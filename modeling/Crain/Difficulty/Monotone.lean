/-
Retargeting is monotone over whole runs.

`Dominates T a b` compares two storages slot by slot: `a` is at least as
difficult in every slot and every gap of `a` is at most the same gap of `b`.  One
call on each side keeps the comparison as long as the new gap is ordered the same
way, so it holds after equally many calls of two runs.
-/
import Crain.Difficulty.Retarget
import Crain.Difficulty.Traps

namespace Crain
namespace Difficulty

open Machine

/-- Storage `a` is at least as difficult as `b` in every slot, and its blocks came
at least as fast. -/
structure Dominates (T : Nat) (a b : Storage) : Prop where
  initial : b.initialDifficulty.toNat ≤ a.initialDifficulty.toNat
  current : b.currentDifficulty.toNat ≤ a.currentDifficulty.toNat
  slots : ∀ i, (view b).window i ≤ (view a).window i
  gaps : ∀ i, gapAt T a i ≤ gapAt T b i

theorem dominates_genesis (T : Nat) {GA GB : Difficulty} (h : GB.toNat ≤ GA.toNat) :
    Dominates T (genesis GA) (genesis GB) := by
  refine ⟨h, h, fun i => ?_, fun i => Nat.le_refl _⟩
  have hA : (view (genesis GA)).window i = GA.toNat := (view_genesis (P := (· = GA.toNat)) rfl).1 i
  have hB : (view (genesis GB)).window i = GB.toNat := (view_genesis (P := (· = GB.toNat)) rfl).1 i
  rw [hA, hB]
  exact h

theorem Dominates.slots_next {T : Moment} {a b : Storage} (h : Dominates T.toNat a b)
    (nowA nowB : Moment) (i : Fin 60) :
    (view (next T b nowB)).window i ≤ (view (next T a nowA)).window i := by
  have hA := view_slides T a nowA
  have hB := view_slides T b nowB
  cases i using Fin.lastCases with
  | last => rw [hA.2, hB.2]; exact h.current
  | cast i => rw [hA.1 i, hB.1 i]; exact h.slots i.succ

theorem Dominates.gaps_next {T : Moment} {a b : Storage} (h : Dominates T.toNat a b)
    {nowA nowB : Moment} (hlast : lastGap T.toNat a nowA ≤ lastGap T.toNat b nowB) (i : Fin 59) :
    gapAt T.toNat (next T a nowA) i ≤ gapAt T.toNat (next T b nowB) i := by
  cases i using Fin.lastCases with
  | last => rw [gapAt_next_last, gapAt_next_last]; exact hlast
  | cast i => rw [gapAt_next_of_lt, gapAt_next_of_lt]; exact h.gaps i.succ

theorem Dominates.next {T : Moment} (hT : 0 < T.toNat) {a b : Storage}
    (h : Dominates T.toNat a b) {nowA nowB : Moment}
    (hlast : lastGap T.toNat a nowA ≤ lastGap T.toNat b nowB) :
    Dominates T.toNat (next T a nowA) (next T b nowB) := by
  refine ⟨h.initial, ?_, h.slots_next nowA nowB, h.gaps_next hlast⟩
  rw [next_currentDifficulty, next_currentDifficulty]
  refine retarget_mono hT ?_ ?_
  · exact Finset.sum_le_sum fun i _ => h.slots_next nowA nowB i
  · rw [span_nextWindow T.toNat T, span_nextWindow T.toNat T]
    exact Finset.sum_le_sum fun i _ => h.gaps_next hlast i

/-- The gap a call adds is ordered as the inputs are: before the first block both
sides count the target block time, later the difference of the last two
timestamps. -/
theorem lastGap_le {T : Moment} (hT : 0 < T.toNat) {GA GB : Difficulty} {as bs : List Moment}
    (hlen : as.length = bs.length)
    (hgap : ∀ i (_ : i + 1 < as.length),
      as[i + 1].toNat - as[i].toNat ≤ bs[i + 1].toNat - bs[i].toNat)
    {k : Nat} (hk : k < as.length) {x y : Storage}
    (hx : runGenesis T GA (as.take k) = some x) (hy : runGenesis T GB (bs.take k) = some y) :
    lastGap T.toNat x as[k] ≤ lastGap T.toNat y bs[k] := by
  cases k with
  | zero =>
    have hx0 : genesis GA = x := Option.some.inj hx
    have hy0 : genesis GB = y := Option.some.inj hy
    rw [← hx0, ← hy0, lastGap_genesis, lastGap_genesis]
  | succ k =>
    obtain ⟨dx, hdx⟩ := run_lastSlot hT (by omega) hx
    obtain ⟨dy, hdy⟩ := run_lastSlot hT (by omega) hy
    rw [lastGap_of_some hdx, lastGap_of_some hdy]
    exact hgap k hk

/-- A chain that starts easier and whose blocks come slower never has a higher
difficulty at any height. -/
theorem difficulty_monotone (T : Moment) (hT : 1 ≤ T.toNat) (GA GB : Difficulty)
    (hG : GB.toNat ≤ GA.toNat) (as bs : List Moment) (hlen : as.length = bs.length)
    (hgap : ∀ i (_ : i + 1 < as.length),
      as[i + 1].toNat - as[i].toNat ≤ bs[i + 1].toNat - bs[i].toNat)
    (a b : Storage) (ha : runGenesis T GA as = some a) (hb : runGenesis T GB bs = some b) :
    ∀ k, k ≤ as.length → ∃ x y, runGenesis T GA (as.take k) = some x ∧
      runGenesis T GB (bs.take k) = some y ∧
      y.currentDifficulty.toNat ≤ x.currentDifficulty.toNat := by
  intro k hk
  obtain ⟨x, hx⟩ := exists_run_take ha k
  obtain ⟨y, hy⟩ := exists_run_take hb k
  have hdom : Dominates T.toNat x y := by
    refine run_lockstep (R := fun _ x y => Dominates T.toNat x y) hlen
      (dominates_genesis T.toNat hG) ?_ k hk x y hx hy
    intro k hk x y x' y' hx hy hdom hxx hyy
    rw [eq_next hT hxx, eq_next hT hyy]
    exact hdom.next hT (lastGap_le hT hlen hgap hk hx hy)
  exact ⟨x, y, hx, hy, hdom.current⟩

/-- The local test network against one of half its difficulty and double the
block time. -/
theorem difficulty_monotone_local : ∃ x y,
    runGenesis blockTime 1000 [0, 60000, 120000] = some x ∧
      runGenesis blockTime 500 [0, 120000, 240000] = some y ∧
      y.currentDifficulty.toNat ≤ x.currentDifficulty.toNat := by
  obtain ⟨a, ha, _⟩ := run_completes blockTime_pos (G := 1000) (by decide)
    [0, 60000, 120000]
  obtain ⟨b, hb, _⟩ := run_completes blockTime_pos (G := 500) (by decide)
    [0, 120000, 240000]
  refine difficulty_monotone blockTime blockTime_pos 1000 500 (by decide) [0, 60000, 120000]
    [0, 120000, 240000] rfl ?_ a b ha hb 3 (by decide)
  intro i hi
  have hi2 : i + 1 < 3 := hi
  have hi3 : i = 0 ∨ i = 1 := by omega
  rcases hi3 with rfl | rfl
  · show (60000 : Moment).toNat - (0 : Moment).toNat ≤ (120000 : Moment).toNat - (0 : Moment).toNat
    decide
  · show (120000 : Moment).toNat - (60000 : Moment).toNat ≤
      (240000 : Moment).toNat - (120000 : Moment).toNat
    decide

end Difficulty
end Crain
