/-
Blocks that come too slowly.

With every gap at least `g`, and `g` long enough that the 59 gaps of the window
exceed its goal of 60 block times, one call puts out at most `slowBound g x` when
all values it reads are at most `x`.  The bound is below `x` except at the minimum
difficulty.  It only takes effect on the whole window after a full turnover, so
the largest value falls by one application of the bound in every 61 calls.
-/
import Mathlib.Logic.Function.Iterate
import Crain.Difficulty.Retarget
import Crain.Difficulty.Settled

namespace Crain
namespace Difficulty

open Machine

/-- Timestamp `b` is at least `g` milliseconds after `a`. -/
def AtLeast (g : Nat) (a b : Moment) : Prop := a.toNat + g ≤ b.toNat

theorem atLeast_gap {g : Nat} (a b : Moment) (h : AtLeast g a b) : g ≤ b.toNat - a.toNat := by
  unfold AtLeast at h
  omega

/-- The adjusted time of a window whose gaps are all `g`. -/
def slowAdjust (T g : Nat) : Nat := min (120 * T) ((59 * g + 120 * T) / 3)

def slowBound (T g x : Nat) : Nat := max minD (60 * x * T / slowAdjust T g)

section Bound

variable {T g : Nat}

theorem slowAdjust_gt (hT : 0 < T) (hg : 60 * T + 3 ≤ 59 * g) : 60 * T < slowAdjust T g := by
  unfold slowAdjust
  omega

theorem minD_le_slowBound (T g x : Nat) : minD ≤ slowBound T g x := Nat.le_max_left _ _

/-- Above the minimum the bound is strictly smaller than its argument. -/
theorem slowBound_lt (hT : 0 < T) (hg : 60 * T + 3 ≤ 59 * g) {x : Nat} (hx : minD < x) :
    slowBound T g x < x := by
  have hadj := slowAdjust_gt hT hg
  have hquot : 60 * x * T / slowAdjust T g < x := by
    rw [Nat.div_lt_iff_lt_mul (by omega)]
    calc 60 * x * T = x * (60 * T) := by rw [Nat.mul_comm 60 x, Nat.mul_assoc]
      _ < x * slowAdjust T g := Nat.mul_lt_mul_of_pos_left hadj (by omega)
  exact Nat.max_lt.mpr ⟨hx, hquot⟩

@[simp] theorem slowBound_minD (hT : 0 < T) (hg : 60 * T + 3 ≤ 59 * g) :
    slowBound T g minD = minD := by
  have hadj := slowAdjust_gt hT hg
  have hquot : 60 * minD * T / slowAdjust T g ≤ minD := by
    refine Nat.div_le_of_le_mul ?_
    calc 60 * minD * T = 60 * T * minD := Nat.mul_right_comm _ _ _
      _ ≤ slowAdjust T g * minD := Nat.mul_le_mul_right _ (Nat.le_of_lt hadj)
  exact Nat.max_eq_left hquot

theorem slowBound_le (hT : 0 < T) (hg : 60 * T + 3 ≤ 59 * g) {x : Nat} (hx : minD ≤ x) :
    slowBound T g x ≤ x := by
  rcases Nat.eq_or_lt_of_le hx with heq | hlt
  · rw [← heq, slowBound_minD hT hg]
  · exact Nat.le_of_lt (slowBound_lt hT hg hlt)

theorem minD_le_iterate {x : Nat} (hx : minD ≤ x) (k : Nat) : minD ≤ (slowBound T g)^[k] x := by
  induction k with
  | zero => exact hx
  | succ k _ =>
    rw [Function.iterate_succ_apply']
    exact minD_le_slowBound T g _

theorem iterate_succ_le (hT : 0 < T) (hg : 60 * T + 3 ≤ 59 * g) {x : Nat} (hx : minD ≤ x)
    (k : Nat) : (slowBound T g)^[k + 1] x ≤ (slowBound T g)^[k] x := by
  rw [Function.iterate_succ_apply']
  exact slowBound_le hT hg (minD_le_iterate hx k)

theorem slowAdjust_le_adjust (hT : 0 < T) {sp : Nat} (hsp : 59 * g ≤ sp) :
    slowAdjust T g ≤ adjust T sp := by
  rw [adjust_eq hT, slowAdjust]
  omega

/-- A window covering at least 59 gaps of `g`, and with no difficulty above `x`,
retargets to at most the bound. -/
theorem slow_retarget (hT : 0 < T) (hg : 60 * T + 3 ≤ 59 * g) {S x sp : Nat} (hx : minD ≤ x)
    (hS : S ≤ 60 * x) (hsp : 59 * g ≤ sp) : retarget T S sp ≤ slowBound T g x := by
  have hpos := slowAdjust_gt hT hg
  have hnum : max S minD * T ≤ 60 * x * T := Nat.mul_le_mul_right _ (by omega)
  have hquot : max S minD * T / adjust T sp ≤ 60 * x * T / slowAdjust T g :=
    Nat.div_le_div hnum (slowAdjust_le_adjust hT hsp) (by omega)
  unfold retarget slowBound
  omega

end Bound

section Step

variable {T : Moment} {s : Storage} {now : Moment} {g : Nat}

theorem slow_span (hgaps : ∀ i, g ≤ gapAt T.toNat (next T s now) i) :
    59 * g ≤ span T.toNat (nextWindow s now) := by
  rw [span_nextWindow T.toNat T]
  refine Nat.le_trans ?_ (Finset.sum_le_sum fun i _ => hgaps i)
  rw [Finset.sum_const, Finset.card_univ, Fintype.card_fin, smul_eq_mul]

theorem slow_lowers (hT : 0 < T.toNat) (hg : 60 * T.toNat + 3 ≤ 59 * g)
    (hgaps : ∀ i, g ≤ gapAt T.toNat (next T s now) i) {x : Nat} (hx : minD ≤ x)
    (hall : (view s).All (· ≤ x)) : nextDifficulty T s now ≤ slowBound T.toNat g x :=
  slow_retarget hT hg hx (windowSum_le hall now) (slow_span hgaps)

end Step

/-- Sustained slow blocks bring the difficulty down towards the minimum. -/
theorem slow_blocks_lower (g : Nat) (hg : 60 * blockTime.toNat + 3 ≤ 59 * g) (G : Difficulty)
    (past : List Moment) (s : Storage) (h : runGenesis blockTime G past = some s)
    (hlen : 61 ≤ past.length) (hslow : WindowGaps (AtLeast g) s) (d : Difficulty) (last : Moment)
    (hlast : s.slot (Fin.last 59) = some ⟨d, last⟩) (more : List Moment)
    (hmore : (last :: more).IsChain (AtLeast g)) :
    (∀ k, more.length = 61 * k → ∃ t, runFrom blockTime s more = some t ∧
      (view t).All (· ≤ (slowBound blockTime.toNat g)^[k] (view s).greatest)) ∧
    ∀ x, minD < x → slowBound blockTime.toNat g x < x := by
  have hT := blockTime_pos
  refine ⟨fun k hk => ?_, fun x hx => slowBound_lt hT hg hx⟩
  have hfloor : minD ≤ (view s).greatest :=
    Nat.le_trans (settled_range hT h hlen).2.1 (Feedback.all_greatest (view s)).2
  obtain ⟨t, ht⟩ := run_continues hT h (by omega) more
  refine ⟨t, ht, Feedback.run_turnovers
    (Q := fun j x => x ≤ (slowBound blockTime.toNat g)^[j] (view s).greatest)
    (fun j x hx => Nat.le_trans hx (iterate_succ_le hT hg hfloor j))
    (Feedback.all_greatest (view s)) ?_ ht (Nat.le_of_eq hk.symm)⟩
  intro i hi a b ha hab
  have hgaps := run_gaps (P := (g ≤ ·)) hT atLeast_gap h hlen hslow hlast hmore hi ha
  rw [eq_next hT hab]
  refine ⟨view_slides _ _ _, fun j hj => ?_⟩
  rw [view_next_current, Function.iterate_succ_apply']
  exact slow_lowers hT hg hgaps (minD_le_iterate hfloor j) hj

/-- The timestamps of 122 blocks, 62 seconds apart. -/
def slowClock : List Moment := (List.range 122).map fun i => BitVec.ofNat 64 (62000 * i)

theorem slowClock_length : slowClock.length = 122 := by simp [slowClock]

theorem slowClock_chain : slowClock.IsChain (AtLeast 62000) := by
  rw [slowClock, List.isChain_map, List.isChain_range]
  intro m hm
  show (BitVec.ofNat 64 (62000 * m)).toNat + 62000 ≤ (BitVec.ofNat 64 (62000 * (m + 1))).toNat
  rw [BitVec.toNat_ofNat, BitVec.toNat_ofNat, Nat.mod_eq_of_lt (by omega),
    Nat.mod_eq_of_lt (by omega)]
  omega

/-- One turnover of the window after the first 61 blocks of that chain. -/
theorem slow_blocks_lower_clock : ∃ s t,
    runGenesis blockTime 1000 (slowClock.take 61) = some s ∧
      runFrom blockTime s (slowClock.drop 61) = some t ∧
      (view t).All (· ≤ slowBound blockTime.toNat 62000 (view s).greatest) := by
  have hT := blockTime_pos
  have hlen := slowClock_length
  have hpast : (slowClock.take 61).length = 61 := List.length_take_of_le (by omega)
  have hmore : (slowClock.drop 61).length = 61 := by rw [List.length_drop, hlen]
  obtain ⟨s, hs, _⟩ := run_completes hT (G := 1000) (by decide) (slowClock.take 61)
  have hgaps := run_windowGaps hT hs (slowClock_chain.take 61)
  have hall : runFrom blockTime (genesis 1000) ((slowClock.take 61).take 61) = some s := by
    rw [List.take_of_length_le (by omega)]
    exact hs
  obtain ⟨d, hlast⟩ := run_lastSlot hT (k := 60) (by omega) hall
  have hchain := slowClock_chain.drop 60
  rw [List.drop_eq_getElem_cons (by omega)] at hchain
  rw [List.getElem_take] at hlast
  obtain ⟨t, ht, hlow⟩ := (slow_blocks_lower 62000 (by decide) 1000 (slowClock.take 61) s hs
    (by omega) hgaps d slowClock[60] hlast (slowClock.drop 61) hchain).1 1 (by omega)
  rw [Function.iterate_one] at hlow
  exact ⟨s, t, hs, ht, hlow⟩

end Difficulty
end Crain
