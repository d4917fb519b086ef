/-
Searching a cycle.

A search on a cycle of `N` positions moves on by one, modulo `N`, as long as it does
not find what it is after.  After `k` failures it is `k` positions ahead of its start
(`iterate_cycleAt`).  The first `N` positions it visits are different
(`cycleAt_injective`) and are all there are (`cycleAt_cycleDistance`), so it finds
whatever there is to find within `N` moves, and the nearest one first
(`exists_first_cycleAt`).
-/
import Mathlib.Data.Nat.Find
import Mathlib.Data.Nat.ModEq
import Mathlib.Logic.Function.Iterate

namespace Machine

/-- The position `k` ahead of `start`. -/
def cycleAt (N start k : Nat) : Nat := (start + k) % N

/-- How far `position` is ahead of `start`. -/
def cycleDistance (N start position : Nat) : Nat := (position + (N - start)) % N

section Cycle

variable {N start : Nat}

@[simp] theorem cycleAt_zero (h : start < N) : cycleAt N start 0 = start := Nat.mod_eq_of_lt h

theorem cycleAt_succ (k : Nat) : cycleAt N start (k + 1) = (cycleAt N start k + 1) % N := by
  rw [cycleAt, cycleAt, Nat.mod_add_mod, Nat.add_assoc]

theorem cycleAt_lt (h : start < N) (k : Nat) : cycleAt N start k < N :=
  Nat.mod_lt _ (Nat.zero_lt_of_lt h)

theorem cycleDistance_lt (h : start < N) (position : Nat) : cycleDistance N start position < N :=
  Nat.mod_lt _ (Nat.zero_lt_of_lt h)

theorem cycleAt_cycleDistance (h : start < N) {position : Nat} (hposition : position < N) :
    cycleAt N start (cycleDistance N start position) = position := by
  have hround : start + (position + (N - start)) = position + N := by omega
  rw [cycleAt, cycleDistance, Nat.add_mod_mod, hround, Nat.add_mod_right,
    Nat.mod_eq_of_lt hposition]

theorem cycleAt_injective {i j : Nat} (hi : i < N) (hj : j < N)
    (h : cycleAt N start i = cycleAt N start j) : i = j := by
  have hmod : i ≡ j [MOD N] := Nat.ModEq.add_left_cancel' start h
  exact hmod.eq_of_lt_of_lt hi hj

/-- Something on the cycle is found within one round, and the nearest first. -/
theorem exists_first_cycleAt {P : Nat → Prop} (h : start < N)
    (hsome : ∃ position, position < N ∧ P position) :
    ∃ k, k < N ∧ P (cycleAt N start k) ∧ ∀ i, i < k → ¬ P (cycleAt N start i) := by
  classical
  obtain ⟨position, hposition, hP⟩ := hsome
  have hfound : ∃ k, P (cycleAt N start k) := by
    refine ⟨cycleDistance N start position, ?_⟩
    rw [cycleAt_cycleDistance h hposition]
    exact hP
  have hnear : Nat.find hfound ≤ cycleDistance N start position := by
    apply Nat.find_min'
    rw [cycleAt_cycleDistance h hposition]
    exact hP
  refine ⟨Nat.find hfound, Nat.lt_of_le_of_lt hnear (cycleDistance_lt h position),
    Nat.find_spec hfound, fun i hi => Nat.find_min hfound hi⟩

end Cycle

/-! ## A machine that searches -/

section Search

variable {σ : Type} {N : Nat} {position : σ → Nat} {next : σ → σ} {P : Nat → Prop} {s : σ}

/-- A machine that moves on whenever it fails is `k` positions ahead after `k`
failures. -/
theorem iterate_cycleAt
    (hnext : ∀ s, position s < N → ¬ P (position s) → position (next s) = (position s + 1) % N)
    (hs : position s < N) {k : Nat} (hfail : ∀ i, i < k → ¬ P (position (next^[i] s))) :
    position (next^[k] s) = cycleAt N (position s) k := by
  induction k with
  | zero => exact (cycleAt_zero hs).symm
  | succ k ih =>
    have hprev := ih fun i hi => hfail i (Nat.lt_succ_of_lt hi)
    rw [Function.iterate_succ_apply', hnext, hprev, cycleAt_succ]
    · rw [hprev]
      exact cycleAt_lt hs k
    · exact hfail k (Nat.lt_succ_self k)

/-- The machine fails as long as there is nothing on its way. -/
theorem forall_fails_iff
    (hnext : ∀ s, position s < N → ¬ P (position s) → position (next s) = (position s + 1) % N)
    (hs : position s < N) {k : Nat} :
    (∀ i, i < k → ¬ P (position (next^[i] s))) ↔
      ∀ i, i < k → ¬ P (cycleAt N (position s) i) := by
  constructor
  · intro h i hi
    rw [← iterate_cycleAt hnext hs fun j hj => h j (Nat.lt_trans hj hi)]
    exact h i hi
  · intro h i
    induction i using Nat.strongRecOn with
    | ind i ih =>
      intro hi
      rw [iterate_cycleAt hnext hs fun j hj => ih j hj (Nat.lt_trans hj hi)]
      exact h i hi

/-- A machine that also starts over at zero whenever it finds something repeats the stretch
up to the nearest thing there is to find. -/
theorem iterate_mod
    (hnext : ∀ s, position s < N → ¬ P (position s) → position (next s) = (position s + 1) % N)
    (hreset : ∀ s, position s < N → P (position s) → position (next s) = 0)
    (hs : position s = 0) {m : Nat} (hm : m < N) (hP : P m) (hleast : ∀ i, i < m → ¬ P i)
    (j : Nat) : position (next^[j] s) = j % (m + 1) := by
  induction j with
  | zero => exact hs
  | succ j ih =>
    have hlt : j % (m + 1) < m + 1 := Nat.mod_lt j (Nat.succ_pos m)
    have hN : position (next^[j] s) < N := by omega
    rw [Function.iterate_succ_apply', ← Nat.mod_add_mod j (m + 1) 1]
    by_cases hlast : j % (m + 1) = m
    · have hfound : P (position (next^[j] s)) := by
        rw [ih, hlast]
        exact hP
      rw [hreset _ hN hfound, hlast, Nat.mod_self]
    · have hbefore : ¬ P (position (next^[j] s)) := by
        rw [ih]
        exact hleast _ (by omega)
      rw [hnext _ hN hbefore, ih, Nat.mod_eq_of_lt (show j % (m + 1) + 1 < N by omega),
        Nat.mod_eq_of_lt (show j % (m + 1) + 1 < m + 1 by omega)]

end Search

end Machine
