/-
When the difficulty hook traps.

A call traps only when the window sum times the block time leaves 256 bits
(`onTimestampSet_eq`).  Every difficulty the pallet sets is at most
`maxDifficulty`, and 60 of those times any 64-bit block time fit.  So the genesis
difficulty alone decides: either the very first product is too wide, or no call
of any run traps.
-/
import Crain.Difficulty.Window

namespace Crain
namespace Difficulty

open Machine

/-- Every intermediate integer of one call fits the width the source computes it
at, and the divisor is not zero.  The two loops are bounded at each of their
partial sums. -/
structure InRange (T : Moment) (s : Storage) (now : Moment) : Prop where
  blockTimeWindow : 60 * T.toNat < 2 ^ 128
  tsDelta : ∀ k, (((List.finRange 59).take k).map fun i : Fin 59 =>
    gap T.toNat (nextWindow s now)[i.castSucc] (nextWindow s now)[i.succ]).sum < 2 ^ 128
  dampGoal : 2 * (60 * T.toNat) < 2 ^ 128
  dampTotal : max (span T.toNat (nextWindow s now)) 1 + 2 * (60 * T.toNat) < 2 ^ 128
  damped : dampedTime (max (span T.toNat (nextWindow s now)) 1) (60 * T.toNat) < 2 ^ 128
  clampHigh : 60 * T.toNat * 2 < 2 ^ 128
  adjTs : adjust T.toNat (span T.toNat (nextWindow s now)) < 2 ^ 128
  divisor : adjust T.toNat (span T.toNat (nextWindow s now)) ≠ 0
  diffSum : ∀ k, (((List.finRange 60).take k).map fun i : Fin 60 =>
    slotDifficulty s.initialDifficulty.toNat (nextWindow s now)[i]).sum < 2 ^ 256
  product : max (windowSum s.initialDifficulty.toNat (nextWindow s now)) minD * T.toNat < 2 ^ 256

theorem sum_take_le {α : Type} (f : α → Nat) (l : List α) (k : Nat) :
    ((l.take k).map f).sum ≤ (l.map f).sum := by
  rw [List.map_take]
  exact (List.take_sublist k (l.map f)).sum_le_sum fun _ _ => Nat.zero_le _

theorem inRange_of_product {T : Moment} (hT : 0 < T.toNat) {s : Storage} {now : Moment}
    (h : max (windowSum s.initialDifficulty.toNat (nextWindow s now)) minD * T.toNat < 2 ^ 256) :
    InRange T s now := by
  have hTlt := T.isLt
  have hspan := span_lt hTlt (nextWindow s now)
  have hadj := adjust_bounds hT (span T.toNat (nextWindow s now))
  have hmul := Nat.le_mul_of_pos_right
    (max (windowSum s.initialDifficulty.toNat (nextWindow s now)) minD) hT
  refine ⟨by omega, fun k => ?_, by omega, by omega, ?_, by omega, by omega, by omega,
    fun k => ?_, h⟩
  · refine Nat.lt_of_le_of_lt (sum_take_le _ _ k) ?_
    rw [← span_eq_sum]
    omega
  · unfold dampedTime
    omega
  · refine Nat.lt_of_le_of_lt (sum_take_le _ _ k) ?_
    rw [← windowSum_eq_sum]
    omega

/-- The states of a run whose product always fits: every difficulty in the window
is at most the genesis one or the cap. -/
def Capped (G : Difficulty) (s : Storage) : Prop :=
  s.initialDifficulty = G ∧ (view s).All (· ≤ max G.toNat maxD)

theorem capped_genesis (G : Difficulty) : Capped G (genesis G) :=
  ⟨rfl, view_genesis (Nat.le_max_left _ _)⟩

theorem Capped.next {G : Difficulty} {s : Storage} (h : Capped G s) (T now : Moment) :
    Capped G (next T s now) := by
  refine ⟨h.1, h.2.slide (view_slides T s now) ?_⟩
  rw [view_next_current]
  exact Nat.le_trans (retarget_bounds _ _ _).2 (Nat.le_max_right _ _)

theorem Capped.product_lt {T : Moment} {G : Difficulty} {s : Storage} (h : Capped G s)
    (hfit : 60 * G.toNat * T.toNat < 2 ^ 256) (now : Moment) :
    max (windowSum s.initialDifficulty.toNat (nextWindow s now)) minD * T.toNat < 2 ^ 256 := by
  have hTlt := T.isLt
  have h3 := minD_eq
  have hM := maxD_eq
  have hsum := windowSum_le h.2 now
  have hfloor : max (windowSum s.initialDifficulty.toNat (nextWindow s now)) minD ≤
      60 * max G.toNat maxD := by
    omega
  refine Nat.lt_of_le_of_lt (Nat.mul_le_mul_right _ hfloor) ?_
  rcases Nat.le_total G.toNat maxD with hG | hG
  · rw [Nat.max_eq_right hG]
    have hcap : 60 * maxD * T.toNat ≤ 60 * maxD * 2 ^ 64 :=
      Nat.mul_le_mul_left _ (Nat.le_of_lt hTlt)
    rw [hM] at hcap ⊢
    omega
  · rw [Nat.max_eq_left hG]
    exact hfit

theorem Capped.step {T : Moment} (hT : 0 < T.toNat) {G : Difficulty}
    (hfit : 60 * G.toNat * T.toNat < 2 ^ 256) {s : Storage} (h : Capped G s) (now : Moment) :
    onTimestampSet T s now = some (Difficulty.next T s now) :=
  (onTimestampSet_eq_some_iff hT).mpr ⟨h.product_lt hfit now, rfl⟩

/-- A run from genesis completes as soon as the first product fits. -/
theorem run_completes {T : Moment} (hT : 0 < T.toNat) {G : Difficulty}
    (hfit : 60 * G.toNat * T.toNat < 2 ^ 256) (timestamps : List Moment) :
    ∃ s, runGenesis T G timestamps = some s ∧ Capped G s :=
  run_total (fun a now ha => ⟨next T a now, ha.step hT hfit now, ha.next T now⟩)
    timestamps (genesis G) (capped_genesis G)

theorem windowSum_genesis (G : Difficulty) (now : Moment) :
    windowSum (genesis G).initialDifficulty.toNat (nextWindow (genesis G) now) = 60 * G.toNat :=
  Nat.le_antisymm (windowSum_le (view_genesis (Nat.le_refl _)) now)
    (le_windowSum (view_genesis (Nat.le_refl _)) now)

theorem first_call_traps_iff {T : Moment} (hT : 0 < T.toNat) (G : Difficulty) (now : Moment) :
    onTimestampSet T (genesis G) now = none ↔ 2 ^ 256 ≤ 60 * G.toNat * T.toNat := by
  have hTlt := T.isLt
  have h3 := minD_eq
  rw [onTimestampSet_eq hT, windowSum_genesis]
  have hsmall : minD * T.toNat < 2 ^ 256 := by
    rw [h3]
    omega
  rcases Nat.le_total (60 * G.toNat) minD with hle | hle
  · have hG : 60 * G.toNat * T.toNat < 2 ^ 256 :=
      Nat.lt_of_le_of_lt (Nat.mul_le_mul_right _ hle) hsmall
    rw [Nat.max_eq_right hle, if_pos hsmall]
    exact ⟨fun e => (by cases e), fun e => absurd e (Nat.not_le_of_lt hG)⟩
  · rw [Nat.max_eq_left hle]
    by_cases h : 60 * G.toNat * T.toNat < 2 ^ 256
    · rw [if_pos h]
      exact ⟨fun e => (by cases e), fun e => absurd e (Nat.not_le_of_lt h)⟩
    · rw [if_neg h]
      exact ⟨fun _ => Nat.le_of_not_lt h, fun _ => rfl⟩

/-- The pallet traps on the very first block or never, and when it never traps
all intermediate integers of every call are in range. -/
theorem traps_first_or_never (T : Moment) (hT : 1 ≤ T.toNat) (G : Difficulty) :
    (2 ^ 256 ≤ 60 * G.toNat * T.toNat → ∀ now, onTimestampSet T (genesis G) now = none) ∧
      (60 * G.toNat * T.toNat < 2 ^ 256 → ∀ timestamps now, ∃ s s',
        runGenesis T G timestamps = some s ∧ onTimestampSet T s now = some s' ∧
          InRange T s now) := by
  refine ⟨fun h now => (first_call_traps_iff hT G now).mpr h, fun h timestamps now => ?_⟩
  obtain ⟨s, hs, hcap⟩ := run_completes hT h timestamps
  exact ⟨s, next T s now, hs, hcap.step hT h now, inRange_of_product hT (hcap.product_lt h now)⟩

theorem traps_first_or_never_runtime :
    1 ≤ blockTime.toNat ∧
      ∀ timestamps now, ∃ s s', runGenesis blockTime 1000000 timestamps = some s ∧
        onTimestampSet blockTime s now = some s' ∧ InRange blockTime s now :=
  ⟨blockTime_pos, (traps_first_or_never blockTime blockTime_pos 1000000).2 (by decide)⟩

end Difficulty
end Crain
