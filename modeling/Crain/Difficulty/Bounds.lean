/-
Range and rate of change of the difficulty.

After any call the difficulty lies between the two caps, and up to the caps it
lies between a 120th and a 40th of the 60 difficulties the call used.  The upper
factor is three halves of their mean rather than the clamp factor two, because
damping keeps the adjusted time above 40 block times.  Over a run of `n` calls
the difficulty therefore grows by at most `(3/2)^n`.
-/
import Mathlib.Algebra.Order.Field.Basic
import Mathlib.Data.Rat.Cast.Order
import Mathlib.Tactic.NormNum
import Mathlib.Tactic.Ring
import Crain.Difficulty.Retarget
import Crain.Difficulty.Traps

namespace Crain
namespace Difficulty

open Machine

/-- Every value of the window, after `k` calls from a chain whose genesis
difficulty is at most `M`. -/
def Grown (M k : Nat) (s : Storage) : Prop :=
  (view s).All fun x => x * 2 ^ k ≤ M * 3 ^ k

theorem grown_mono {M k x : Nat} (h : x * 2 ^ k ≤ M * 3 ^ k) :
    x * 2 ^ (k + 1) ≤ M * 3 ^ (k + 1) := by
  rw [Nat.pow_succ, Nat.pow_succ, ← Nat.mul_assoc, ← Nat.mul_assoc]
  exact Nat.mul_le_mul h (by omega)

theorem Grown.next {T : Moment} (hT : 0 < T.toNat) {M k : Nat} (hM : minD ≤ M) {s : Storage}
    (h : Grown M k s) (now : Moment) : Grown M (k + 1) (next T s now) := by
  have hp : 0 < 2 ^ k := Nat.two_pow_pos k
  -- In whole numbers every value is at most the floor of the rational bound.
  have hfloor : (view s).All (· ≤ M * 3 ^ k / 2 ^ k) :=
    h.mono fun x hx => (Nat.le_div_iff_mul_le hp).mpr hx
  have hsum := windowSum_le hfloor now
  generalize hS : windowSum s.initialDifficulty.toNat (nextWindow s now) = S at hsum
  have hS40 : S / 40 * 2 ^ (k + 1) ≤ M * 3 ^ (k + 1) := by
    have h1 : S / 40 * 40 ≤ 60 * (M * 3 ^ k / 2 ^ k) :=
      Nat.le_trans (Nat.div_mul_le_self S 40) hsum
    have h2 : S / 40 * 40 * 2 ^ k ≤ 60 * (M * 3 ^ k / 2 ^ k) * 2 ^ k := Nat.mul_le_mul_right _ h1
    have h3 : M * 3 ^ k / 2 ^ k * 2 ^ k ≤ M * 3 ^ k := Nat.div_mul_le_self _ _
    have h4 : S / 40 * 40 * 2 ^ k = 40 * (S / 40 * 2 ^ k) := by ring
    have h5 : 60 * (M * 3 ^ k / 2 ^ k) * 2 ^ k = 60 * (M * 3 ^ k / 2 ^ k * 2 ^ k) := by ring
    rw [Nat.pow_succ, Nat.pow_succ, ← Nat.mul_assoc, ← Nat.mul_assoc]
    omega
  have hmin : minD * 2 ^ (k + 1) ≤ M * 3 ^ (k + 1) :=
    Nat.mul_le_mul hM (Nat.pow_le_pow_left (by omega) _)
  refine (h.mono fun x hx => grown_mono hx).slide (view_slides T s now) ?_
  have hle := retarget_le hT S (span T.toNat (nextWindow s now))
  rw [view_next_current, nextDifficulty, hS]
  rcases Nat.le_total (S / 40) minD with hc | hc
  · exact Nat.le_trans (Nat.mul_le_mul_right _ (by omega)) hmin
  · exact Nat.le_trans (Nat.mul_le_mul_right _ (by omega)) hS40

theorem run_grown {T : Moment} (hT : 0 < T.toNat) {G : Difficulty} {timestamps : List Moment}
    {s : Storage} (h : runGenesis T G timestamps = some s) :
    Grown (max G.toNat minD) timestamps.length s := by
  refine run_next hT (P := fun k a => Grown (max G.toNat minD) k a)
    (view_genesis (by rw [Nat.pow_zero, Nat.pow_zero]; omega)) ?_ h
  intro k hk a _ ha
  exact ha.next hT (Nat.le_max_right _ _) _

/-- Bounded range and bounded rate of change in every reachable state. -/
theorem difficulty_bounded (T : Moment) (hT : 1 ≤ T.toNat) (G : Difficulty)
    (timestamps : List Moment) (s : Storage) (h : runGenesis T G timestamps = some s) :
    (∀ now s', onTimestampSet T s now = some s' →
      (minD ≤ s'.currentDifficulty.toNat ∧ s'.currentDifficulty.toNat ≤ maxD) ∧
      min maxD (max minD (windowSum G.toNat s'.pastDifficultiesAndTimestamps / 120)) ≤
        s'.currentDifficulty.toNat ∧
      s'.currentDifficulty.toNat ≤
        min maxD (max minD (windowSum G.toNat s'.pastDifficultiesAndTimestamps / 40))) ∧
    (s.currentDifficulty.toNat : ℚ) ≤ max G.toNat minD * (3 / 2) ^ timestamps.length := by
  have hinit : s.initialDifficulty = G := run_initialDifficulty hT h
  constructor
  · intro now s' hs'
    rw [((onTimestampSet_eq_some_iff hT).mp hs').2, next_currentDifficulty, ← hinit]
    exact ⟨retarget_bounds _ _ _, retarget_ge hT _ _, retarget_le hT _ _⟩
  · have hgrown : s.currentDifficulty.toNat * 2 ^ timestamps.length ≤
        max G.toNat minD * 3 ^ timestamps.length := (run_grown hT h).2
    have hq : (s.currentDifficulty.toNat : ℚ) * 2 ^ timestamps.length ≤
        max G.toNat minD * 3 ^ timestamps.length := by exact_mod_cast hgrown
    rw [div_pow, ← mul_div_assoc, le_div_iff₀ (pow_pos (by norm_num) _)]
    exact hq

/-- Two blocks of the local test network, one minute apart. -/
theorem difficulty_bounded_local : ∃ s, runGenesis blockTime 1000 [0, 60000] = some s ∧
    (s.currentDifficulty.toNat : ℚ) ≤ max (1000 : Difficulty).toNat minD * (3 / 2) ^ 2 := by
  obtain ⟨s, hs, _⟩ := run_completes blockTime_pos (G := 1000) (by decide) [0, 60000]
  exact ⟨s, hs, (difficulty_bounded blockTime blockTime_pos 1000 [0, 60000] s hs).2⟩

end Difficulty
end Crain
