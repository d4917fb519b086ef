/-
Keeping the least of what arrives.

A machine holds one value and gives it up only for one with a strictly smaller key.
Whatever arrives, it ends with the first value of least key among all it saw, its own
included: this is `List.argmin` (`argmin_cons`).  If no two of them share a key there
is only one value of least key, and the order of arrival does not matter
(`least_perm`).
-/
import Mathlib.Data.List.MinMax

namespace Machine

section Least

variable {α β : Type} [LinearOrder β] {key : α → β}

def keepLess (key : α → β) (own new : α) : α := if key new < key own then new else own

def least (key : α → β) (own : α) (arrivals : List α) : α := arrivals.foldl (keepLess key) own

theorem foldl_argAux_eq (own : α) (arrivals : List α) :
    arrivals.foldl (List.argAux fun b c => key b < key c) (some own) =
      some (least key own arrivals) := by
  induction arrivals generalizing own with
  | nil => rfl
  | cons new rest ih =>
    have hstep : List.argAux (fun b c => key b < key c) (some own) new =
        some (keepLess key own new) := by
      show (if key new < key own then some new else some own) = _
      rw [keepLess, apply_ite some]
    rw [List.foldl_cons, hstep]
    exact ih (keepLess key own new)

theorem argmin_cons (own : α) (arrivals : List α) :
    (own :: arrivals).argmin key = some (least key own arrivals) :=
  foldl_argAux_eq own arrivals

theorem least_mem (own : α) (arrivals : List α) : least key own arrivals ∈ own :: arrivals :=
  List.argmin_mem (argmin_cons own arrivals)

theorem least_le {own a : α} {arrivals : List α} (ha : a ∈ own :: arrivals) :
    key (least key own arrivals) ≤ key a :=
  List.le_of_mem_argmin ha (argmin_cons own arrivals)

/-- With distinct keys the order of arrival does not matter. -/
theorem least_perm {own own' : α} {arrivals arrivals' : List α}
    (hkeys : ∀ a ∈ own :: arrivals, ∀ b ∈ own :: arrivals, key a = key b → a = b)
    (hperm : (own' :: arrivals').Perm (own :: arrivals)) :
    least key own' arrivals' = least key own arrivals := by
  have hmem : least key own' arrivals' ∈ own :: arrivals :=
    hperm.mem_iff.mp (least_mem own' arrivals')
  apply hkeys _ hmem _ (least_mem own arrivals)
  apply le_antisymm
  · exact least_le (hperm.mem_iff.mpr (least_mem own arrivals))
  · exact least_le hmem

end Least

end Machine
