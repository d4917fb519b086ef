/-
Chains that run exactly on target.

The hook compares the time of the window with a goal of 60 block times, but the
window has only 59 gaps.  A chain whose blocks come exactly one block time apart
is therefore taken to run fast, and its difficulty is multiplied by 180/179 and
rounded down on every call.  `onTarget_keeps_iff` says which genesis
difficulties that rounding or the upper cap hides.
-/
import Crain.Difficulty.Retarget
import Crain.Difficulty.Traps

namespace Crain
namespace Difficulty

open Machine

def onTargetTimes (start : Moment) (n : Nat) : List Moment :=
  (List.range n).map fun j => BitVec.ofNat 64 (start.toNat + j * blockTime.toNat)

/-- After `n` blocks exactly on target the difficulty is still the genesis one. -/
def KeepsDifficulty (G : Difficulty) (start : Moment) (n : Nat) : Prop :=
  ∃ s, runGenesis blockTime G (onTargetTimes start n) = some s ∧ s.currentDifficulty = G

section OnTarget

variable {G : Difficulty} {start : Moment} {n : Nat}

theorem onTargetTimes_length (start : Moment) (n : Nat) : (onTargetTimes start n).length = n := by
  rw [onTargetTimes, List.length_map, List.length_range]

theorem onTargetTimes_getElem
    (hfit : start.toNat + (n - 1) * blockTime.toNat < 2 ^ 64) {k : Nat}
    (hk : k < (onTargetTimes start n).length) :
    (onTargetTimes start n)[k].toNat = start.toNat + k * blockTime.toNat := by
  have hn : k < n := by rw [onTargetTimes_length] at hk; exact hk
  have hle : k * blockTime.toNat ≤ (n - 1) * blockTime.toNat := Nat.mul_le_mul_right _ (by omega)
  simp only [onTargetTimes, List.getElem_map, List.getElem_range]
  rw [BitVec.toNat_ofNat, Nat.mod_eq_of_lt (by omega)]

/-! ## The covered time -/

theorem onTarget_lastGap
    (hfit : start.toNat + (n - 1) * blockTime.toNat < 2 ^ 64) {k : Nat}
    (hk : k < (onTargetTimes start n).length) {a : Storage}
    (ha : runGenesis blockTime G ((onTargetTimes start n).take k) = some a) :
    lastGap blockTime.toNat a (onTargetTimes start n)[k] = blockTime.toNat := by
  cases k with
  | zero =>
    have ha0 : genesis G = a := Option.some.inj ha
    rw [← ha0, lastGap_genesis]
  | succ k =>
    obtain ⟨d, hd⟩ := run_lastSlot blockTime_pos (by omega) ha
    rw [lastGap_of_some hd, onTargetTimes_getElem hfit, onTargetTimes_getElem hfit, Nat.succ_mul]
    omega

theorem onTarget_gapAt
    (hfit : start.toNat + (n - 1) * blockTime.toNat < 2 ^ 64) {k : Nat}
    (hk : k ≤ (onTargetTimes start n).length) {a : Storage}
    (ha : runGenesis blockTime G ((onTargetTimes start n).take k) = some a) (i : Fin 59) :
    gapAt blockTime.toNat a i = blockTime.toNat := by
  refine run_next_take blockTime_pos
    (P := fun _ a => ∀ i, gapAt blockTime.toNat a i = blockTime.toNat) (fun i => ?_) ?_ k hk a ha i
  · rw [gapAt, slot_genesis]
    rfl
  · intro k hk a ha hgaps i
    exact gapAt_next (P := (· = blockTime.toNat)) blockTime hgaps (onTarget_lastGap hfit hk ha) i

/-- One on-target call multiplies the mean difficulty by 180/179. -/
theorem onTarget_nextDifficulty
    (hfit : start.toNat + (n - 1) * blockTime.toNat < 2 ^ 64) {k : Nat}
    (hk : k < (onTargetTimes start n).length) {a : Storage}
    (ha : runGenesis blockTime G ((onTargetTimes start n).take k) = some a) :
    nextDifficulty blockTime a (onTargetTimes start n)[k] =
      min maxD (max minD (max (windowSum a.initialDifficulty.toNat
        (nextWindow a (onTargetTimes start n)[k])) minD * 60000 / 3580000)) := by
  have hspan : span blockTime.toNat (nextWindow a (onTargetTimes start n)[k]) =
      59 * blockTime.toNat := by
    have hgaps := gapAt_next (P := (· = blockTime.toNat)) blockTime
      (onTarget_gapAt hfit (Nat.le_of_lt hk) ha) (onTarget_lastGap hfit hk ha)
    rw [span_nextWindow blockTime.toNat blockTime, Finset.sum_congr rfl fun i _ => hgaps i,
      Finset.sum_const, Finset.card_univ, Fintype.card_fin, smul_eq_mul]
  have hadj : adjust blockTime.toNat (59 * blockTime.toNat) = 3580000 := by
    rw [adjust_eq blockTime_pos, blockTime_toNat]
    omega
  rw [nextDifficulty, hspan, retarget, hadj, blockTime_toNat]

/-! ## The difficulty -/

/-- Where rounding or the upper cap hides the factor, the difficulty is a fixed
point. -/
theorem onTarget_fixed (hlo : minD ≤ G.toNat) (hG : G.toNat ≤ 178 ∨ G.toNat = maxD)
    (hfit : start.toNat + (n - 1) * blockTime.toNat < 2 ^ 64) {s : Storage}
    (hs : runGenesis blockTime G (onTargetTimes start n) = some s) :
    s.currentDifficulty = G := by
  have h3 := minD_eq
  have hM := maxD_eq
  have hall : (view s).All (· = G.toNat) := by
    refine run_next blockTime_pos (P := fun _ a => (view a).All (· = G.toNat)) (view_genesis rfl)
      ?_ hs
    intro k hk a ha hall
    have hsum : windowSum a.initialDifficulty.toNat (nextWindow a (onTargetTimes start n)[k]) =
        60 * G.toNat :=
      Nat.le_antisymm (windowSum_le (hall.mono fun x hx => Nat.le_of_eq hx) _)
        (le_windowSum (hall.mono fun x hx => Nat.le_of_eq hx.symm) _)
    refine hall.slide (view_slides _ _ _) ?_
    rw [view_next_current, onTarget_nextDifficulty hfit hk ha, hsum]
    rcases hG with hG | hG <;> omega
  exact BitVec.eq_of_toNat_eq hall.2

/-- From 179 on the factor 180/179 is worth at least one. -/
theorem lt_onTarget_quotient {g S : Nat} (hlo : 178 < g) (hS : 60 * g ≤ S) :
    g < max S minD * 60000 / 3580000 := by
  have hmul : 60 * g * 60000 ≤ max S minD * 60000 :=
    Nat.mul_le_mul_right _ (Nat.le_trans hS (Nat.le_max_left _ _))
  generalize max S minD = total at hmul ⊢
  omega

/-- Everywhere else the difficulty has risen above the genesis one after the
first call, and stays above it. -/
theorem onTarget_drifts (hlo : 178 < G.toNat) (hhi : G.toNat < maxD) (hn : 1 ≤ n)
    (hfit : start.toNat + (n - 1) * blockTime.toNat < 2 ^ 64) {s : Storage}
    (hs : runGenesis blockTime G (onTargetTimes start n) = some s) :
    G.toNat < s.currentDifficulty.toNat := by
  have hinv := run_next blockTime_pos
    (P := fun k a => (view a).All (G.toNat ≤ ·) ∧ (1 ≤ k → G.toNat < (view a).current))
    ⟨view_genesis (Nat.le_refl _), fun h => absurd h (by omega)⟩
    (fun k hk a ha hP => by
      have hsum := le_windowSum hP.1 (onTargetTimes start n)[k]
      have hcur : G.toNat < (view (next blockTime a (onTargetTimes start n)[k])).current := by
        rw [view_next_current, onTarget_nextDifficulty hfit hk ha, lt_min_iff]
        exact ⟨hhi, lt_max_of_lt_right (lt_onTarget_quotient hlo hsum)⟩
      exact ⟨hP.1.slide (view_slides _ _ _) (Nat.le_of_lt hcur), fun _ => hcur⟩) hs
  rw [onTargetTimes_length] at hinv
  exact hinv.2 hn

end OnTarget

/-- A chain on target keeps its genesis difficulty exactly when that is below 179
or the maximum. -/
theorem onTarget_keeps_iff (G : Difficulty) (hlo : minD ≤ G.toNat) (hhi : G.toNat ≤ maxD)
    (start : Moment) (n : Nat) (hn : 1 ≤ n)
    (hfit : start.toNat + (n - 1) * blockTime.toNat < 2 ^ 64) :
    KeepsDifficulty G start n ↔ G.toNat < 179 ∨ G.toNat = maxD := by
  have hM := maxD_eq
  constructor
  · intro h
    obtain ⟨s, hs, hG⟩ := h
    by_cases hsmall : G.toNat < 179
    · exact Or.inl hsmall
    · right
      by_cases hmax : G.toNat = maxD
      · exact hmax
      · have hlt := onTarget_drifts (by omega) (by omega) hn hfit hs
        rw [hG] at hlt
        exact absurd hlt (Nat.lt_irrefl _)
  · intro hG
    have hT : blockTime.toNat = 60000 := blockTime_toNat
    obtain ⟨s, hs, _⟩ := run_completes blockTime_pos (G := G)
      (by rw [hT]; omega) (onTargetTimes start n)
    exact ⟨s, hs, onTarget_fixed hlo (by omega) hfit hs⟩

theorem onTarget_keeps_small : KeepsDifficulty 100 0 5 :=
  (onTarget_keeps_iff 100 (by decide) (by decide) 0 5 (by decide) (by decide)).mpr
    (Or.inl (by decide))

/-- One block at the genesis difficulty 1000 raises it to 1005. -/
theorem onTarget_first_block_drifts :
    minD ≤ (1000 : Difficulty).toNat ∧ (1000 : Difficulty).toNat ≤ maxD ∧
      (runGenesis blockTime 1000 (onTargetTimes 0 1)).map (·.currentDifficulty) = some 1005 ∧
      ¬ KeepsDifficulty 1000 0 1 := by
  have hrun : (runGenesis blockTime 1000 (onTargetTimes 0 1)).map (·.currentDifficulty) =
      some 1005 := by
    decide
  refine ⟨by decide, by decide, hrun, fun h => ?_⟩
  obtain ⟨s, hs, hG⟩ := h
  rw [hs, Option.map_some, hG] at hrun
  cases hrun

end Difficulty
end Crain
