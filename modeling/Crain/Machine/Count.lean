/-
How many words draw an entry of a list.

A word drawn at random is reduced modulo `k` and the remainder taken as a position.  The
number of words that leave a given remainder is the quotient of `2 ^ w` by `k`, and one
more for the remainders below that of `2 ^ w` (`card_toNat_mod`).  In a list without
repetitions each entry has one position, so the same number counts the words that draw
it (`card_draws`).
-/
import Mathlib.Data.Int.CardIntervalMod
import Mathlib.Data.List.Nodup
import Mathlib.SetTheory.Cardinal.Finite
import Crain.Machine.Word

namespace Machine
namespace Word

open scoped Count

variable {w : Nat}

/-- Words with a property of their integers, as the integers below `2 ^ w` with it. -/
def subtypeEquiv (p : Nat → Prop) :
    {x : BitVec w // p x.toNat} ≃ {n : Nat // n < 2 ^ w ∧ p n} where
  toFun x := ⟨x.1.toNat, x.1.isLt, x.2⟩
  invFun n := ⟨BitVec.ofNat w n.1, by
    rw [BitVec.toNat_ofNat, Nat.mod_eq_of_lt n.2.1]
    exact n.2.2⟩
  left_inv x := by simp
  right_inv n := by
    apply Subtype.ext
    show (BitVec.ofNat w n.1).toNat = n.1
    rw [BitVec.toNat_ofNat, Nat.mod_eq_of_lt n.2.1]

theorem card_toNat (p : Nat → Prop) [DecidablePred p] :
    Nat.card {x : BitVec w // p x.toNat} = (2 ^ w).count p := by
  rw [Nat.card_congr (subtypeEquiv p), Nat.card_eq_fintype_card, Nat.count_eq_card_fintype]

/-- The number of words that leave a given remainder. -/
theorem card_toNat_mod {k r : Nat} (hr : r < k) :
    Nat.card {x : BitVec w // x.toNat % k = r} =
      2 ^ w / k + if r < 2 ^ w % k then 1 else 0 := by
  have hcount := Nat.count_modEq_card (2 ^ w) (Nat.zero_lt_of_lt hr) r
  rw [Nat.mod_eq_of_lt hr] at hcount
  rw [card_toNat fun n => n % k = r, ← hcount]
  congr 1
  funext n
  rw [Nat.ModEq, Nat.mod_eq_of_lt hr]

/-- The number of words that draw the entry at a position. -/
theorem card_draws {α : Type} {xs : List α} (hxs : xs.Nodup) {k i : Nat} (hk : xs.length ≤ k)
    (hi : i < xs.length) :
    Nat.card {x : BitVec w // xs[x.toNat % k]? = some xs[i]} =
      2 ^ w / k + if i < 2 ^ w % k then 1 else 0 := by
  rw [← card_toNat_mod (w := w) (Nat.lt_of_lt_of_le hi hk)]
  refine Nat.card_congr (Equiv.subtypeEquivRight fun x => ?_)
  rw [List.getElem?_eq_some_iff]
  constructor
  · intro h
    obtain ⟨hx, hsame⟩ := h
    exact (hxs.getElem_inj_iff).mp hsame
  · intro h
    exact ⟨h ▸ hi, by simp only [h]⟩

/-- The number of words that draw no entry, when one position is free. -/
theorem card_draws_none {α : Type} (xs : List α) :
    Nat.card {x : BitVec w // xs[x.toNat % (xs.length + 1)]? = none} =
      2 ^ w / (xs.length + 1) + if xs.length < 2 ^ w % (xs.length + 1) then 1 else 0 := by
  rw [← card_toNat_mod (w := w) (Nat.lt_add_one xs.length)]
  refine Nat.card_congr (Equiv.subtypeEquivRight fun x => ?_)
  rw [List.getElem?_eq_none_iff]
  have hlt : x.toNat % (xs.length + 1) < xs.length + 1 := Nat.mod_lt _ (Nat.succ_pos _)
  omega

end Word
end Machine
