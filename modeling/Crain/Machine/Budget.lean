/-
Budgets.

A budget is set to a value, any number of times, and drawn on in between.  Given
what each input of a history sets and draws, `lastSet` is the value it was last
set to and `sinceSet` the inputs after that.  A counter that is overwritten by a
set and lowered by a draw is at every point the last value set less what was drawn
since (`Remains.since`), and everything ever drawn is within everything ever set
(`Remains.drawn_le`).
-/
import Mathlib.Algebra.BigOperators.Group.List.Basic
import Mathlib.Algebra.GroupWithZero.Nat
import Mathlib.Data.List.DropRight

namespace Machine
namespace Budget

variable {ι : Type}

/-- The value the budget was last set to, zero if it never was. -/
def lastSet (sets : ι → Option Nat) (history : List ι) : Nat :=
  (history.filterMap sets).getLast?.getD 0

/-- The inputs since the budget was last set. -/
def sinceSet (sets : ι → Option Nat) (history : List ι) : List ι :=
  history.rtakeWhile fun i => (sets i).isNone

def drawn (draws : ι → Nat) (history : List ι) : Nat := (history.map draws).sum

/-- Everything the budget was ever set to. -/
def granted (sets : ι → Option Nat) (history : List ι) : Nat := (history.filterMap sets).sum

section History

variable {sets : ι → Option Nat} {draws : ι → Nat} {history : List ι} {i : ι} {v : Nat}

@[simp] theorem drawn_concat : drawn draws (history ++ [i]) = drawn draws history + draws i := by
  simp [drawn]

theorem lastSet_concat_some (h : sets i = some v) : lastSet sets (history ++ [i]) = v := by
  simp [lastSet, h]

theorem lastSet_concat_none (h : sets i = none) :
    lastSet sets (history ++ [i]) = lastSet sets history := by
  simp [lastSet, h]

theorem sinceSet_concat_some (h : sets i = some v) : sinceSet sets (history ++ [i]) = [] := by
  simp [sinceSet, h]

theorem sinceSet_concat_none (h : sets i = none) :
    sinceSet sets (history ++ [i]) = sinceSet sets history ++ [i] := by
  simp [sinceSet, h]

theorem granted_concat :
    granted sets (history ++ [i]) = granted sets history + (sets i).getD 0 := by
  cases h : sets i <;> simp [granted, h]

end History

/-- A counter that tracks the budget. -/
structure Remains (sets : ι → Option Nat) (draws : ι → Nat) (history : List ι) (left : Nat) :
    Prop where
  since : left + drawn draws (sinceSet sets history) = lastSet sets history
  drawn_le : left + drawn draws history ≤ granted sets history

theorem Remains.nil (sets : ι → Option Nat) (draws : ι → Nat) : Remains sets draws [] 0 :=
  ⟨rfl, Nat.le_refl 0⟩

/-- An input either sets the counter and draws nothing, or lowers it by what it
draws. -/
theorem Remains.concat {sets : ι → Option Nat} {draws : ι → Nat} {history : List ι}
    {left left' : Nat} {i : ι} (h : Remains sets draws history left)
    (hexcl : ∀ v, sets i = some v → draws i = 0)
    (hleft : left' + draws i = (sets i).getD left) : Remains sets draws (history ++ [i]) left' := by
  cases hset : sets i with
  | none =>
    rw [hset, Option.getD_none] at hleft
    constructor
    · rw [sinceSet_concat_none hset, lastSet_concat_none hset, drawn_concat, ← h.since]
      omega
    · have hle := h.drawn_le
      rw [drawn_concat, granted_concat, hset, Option.getD_none]
      omega
  | some v =>
    have hzero := hexcl v hset
    rw [hset, Option.getD_some] at hleft
    constructor
    · rw [sinceSet_concat_some hset, lastSet_concat_some hset]
      show left' + 0 = v
      omega
    · have hle := h.drawn_le
      rw [drawn_concat, granted_concat, hset, Option.getD_some]
      omega

end Budget
end Machine
