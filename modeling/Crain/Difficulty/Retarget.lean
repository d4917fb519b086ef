/-
Arithmetic of one retarget.

`retarget T sum sp` grows with the window sum and falls with the covered time.
The time it divides by lies between 40 and 120 block times whatever the
timestamps are, so up to the caps the result lies between a 120th and a 40th of
the window sum.
-/
import Crain.Difficulty.Exact

namespace Crain
namespace Difficulty

theorem adjust_mono {T spA spB : Nat} (hT : 0 < T) (h : spA ≤ spB) :
    adjust T spA ≤ adjust T spB := by
  rw [adjust_eq hT, adjust_eq hT]
  omega

/-- A smaller window sum and a longer time never give a larger difficulty. -/
theorem retarget_mono {T sumA sumB spA spB : Nat} (hT : 0 < T) (hsum : sumB ≤ sumA)
    (hsp : spA ≤ spB) : retarget T sumB spB ≤ retarget T sumA spA := by
  have hadj := adjust_mono hT hsp
  have hpos := (adjust_bounds hT spA).1
  have hnum : max sumB minD * T ≤ max sumA minD * T :=
    Nat.mul_le_mul_right T (by omega)
  have hdiv : max sumB minD * T / adjust T spB ≤ max sumA minD * T / adjust T spA :=
    Nat.div_le_div hnum hadj (by omega)
  unfold retarget
  omega

theorem quotient_bounds {T : Nat} (hT : 0 < T) (sum sp : Nat) :
    max sum minD / 120 ≤ max sum minD * T / adjust T sp ∧
      max sum minD * T / adjust T sp ≤ max sum minD / 40 := by
  obtain ⟨hlo, hhi⟩ := adjust_bounds hT sp
  constructor
  · calc max sum minD / 120 = max sum minD * T / (120 * T) := (Nat.mul_div_mul_right _ _ hT).symm
      _ ≤ max sum minD * T / adjust T sp := Nat.div_le_div_left hhi (by omega)
  · calc max sum minD * T / adjust T sp ≤ max sum minD * T / (40 * T) :=
          Nat.div_le_div_left hlo (by omega)
      _ = max sum minD / 40 := Nat.mul_div_mul_right _ _ hT

theorem retarget_ge {T : Nat} (hT : 0 < T) (sum sp : Nat) :
    min maxD (max minD (sum / 120)) ≤ retarget T sum sp := by
  have h := (quotient_bounds hT sum sp).1
  have h3 := minD_eq
  unfold retarget
  omega

theorem retarget_le {T : Nat} (hT : 0 < T) (sum sp : Nat) :
    retarget T sum sp ≤ min maxD (max minD (sum / 40)) := by
  have h := (quotient_bounds hT sum sp).2
  have h3 := minD_eq
  unfold retarget
  omega

end Difficulty
end Crain
