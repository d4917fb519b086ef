/-
Shift registers and sliding windows.

A register is an array of fixed length.  `shiftDown` is the in-place loop that
moves every slot one place towards the front, and `push` overwrites the last
slot afterwards.  `getElem_push` says which slot every value came from.

The second half treats a register whose pushed value is the machine's own
current output (`Feedback`).  A property of the fresh outputs reaches every slot
after one full turnover of the window, one step more than there are slots, and a
property that improves with each output improves with each turnover
(`run_turnovers`).
-/
import Mathlib.Data.Finset.Lattice.Fold
import Mathlib.Data.Fintype.Basic
import Crain.Machine.Run

namespace Machine
namespace Register

variable {α : Type} {n : Nat}

/-! ## The shift loop -/

/-- Move slot `i + 1` to slot `i`, for each `i` in order.  The last slot keeps
its value. -/
def shiftDown (data : Vector α (n + 1)) : Vector α (n + 1) :=
  (List.finRange n).foldl (fun data i => data.set i.castSucc data[i.succ]) data

def push (data : Vector α (n + 1)) (x : α) : Vector α (n + 1) :=
  (shiftDown data).set n x

/-- After `k` rounds of the loop the first `k` slots have moved and the slots
still to be read are untouched. -/
theorem getElem_shiftLoop (data : Vector α (n + 1)) (k : Nat) (hk : k ≤ n)
    (i : Nat) (hi : i < n + 1) :
    (((List.finRange n).take k).foldl
        (fun data i => data.set i.castSucc data[i.succ]) data)[i] =
      if h : i < k then data[i + 1] else data[i] := by
  induction k generalizing i with
  | zero => simp
  | succ k ih =>
    have hlen : k < (List.finRange n).length := by rw [List.length_finRange]; omega
    rw [List.take_succ_eq_append_getElem hlen, List.foldl_append, List.foldl_cons, List.foldl_nil,
      List.getElem_finRange, Vector.getElem_set]
    by_cases hik : k = i
    · subst hik
      have hread := ih (by omega) (k + 1) (by omega)
      rw [dif_neg (by omega)] at hread
      simpa using hread
    · have hold := ih (by omega) i hi
      by_cases h : i < k
      · rw [dif_pos h] at hold
        rw [dif_pos (by omega), ← hold]
        exact if_neg hik
      · rw [dif_neg h] at hold
        rw [dif_neg (by omega), ← hold]
        exact if_neg hik

theorem getElem_shiftDown (data : Vector α (n + 1)) (i : Nat) (hi : i < n + 1) :
    (shiftDown data)[i] = if h : i < n then data[i + 1] else data[i] := by
  have h := getElem_shiftLoop data n (Nat.le_refl n) i hi
  rw [List.take_of_length_le (Nat.le_of_eq List.length_finRange)] at h
  exact h

theorem getElem_push (data : Vector α (n + 1)) (x : α) (i : Nat) (hi : i < n + 1) :
    (push data x)[i] = if h : i < n then data[i + 1] else x := by
  rw [push, Vector.getElem_set, getElem_shiftDown]
  by_cases h : i < n
  · rw [if_neg (by omega), dif_pos h, dif_pos h]
  · rw [if_pos (by omega), dif_neg h]

theorem getElem_push_of_lt (data : Vector α (n + 1)) (x : α) {i : Nat} (hi : i < n) :
    (push data x)[i] = data[i + 1] := by
  rw [getElem_push, dif_pos hi]

@[simp] theorem getElem_push_last (data : Vector α (n + 1)) (x : α) : (push data x)[n] = x := by
  rw [getElem_push, dif_neg (Nat.lt_irrefl n)]

theorem toList_push (data : Vector α (n + 1)) (x : α) :
    (push data x).toList = data.toList.drop 1 ++ [x] := by
  apply List.ext_getElem
  · simp
  · intro i h₁ h₂
    have hi : i < n + 1 := by simpa using h₁
    rw [Vector.getElem_toList, getElem_push, List.getElem_append]
    by_cases h : i < n
    · rw [dif_pos h, dif_pos (by simpa using h), List.getElem_drop, Vector.getElem_toList]
      congr 1
      omega
    · rw [dif_neg h, dif_neg (by simpa using h), List.getElem_singleton]

/-- A register that started as `initial` shows the end of everything pushed since. -/
theorem toList_push_of_drop {initial pushed : List α} (hinitial : initial.length = n + 1)
    {data : Vector α (n + 1)} (h : data.toList = (initial ++ pushed).drop pushed.length) (x : α) :
    (push data x).toList = (initial ++ (pushed ++ [x])).drop (pushed ++ [x]).length := by
  have hle : pushed.length + 1 ≤ (initial ++ pushed).length := by
    rw [List.length_append, hinitial]
    omega
  rw [toList_push, h, List.drop_drop, ← List.append_assoc, List.length_append,
    List.length_singleton, List.drop_append_of_le_length hle]

end Register

/-! ## Feedback windows -/

/-- A window of past outputs together with the current output. -/
structure Feedback (β : Type) (n : Nat) where
  window : Fin (n + 1) → β
  current : β

namespace Feedback

variable {β σ ι : Type} {n : Nat}

/-- One step of the machine: the window moves by one slot and takes in the old
current output.  The new current output is unconstrained. -/
def Slides (a b : Feedback β n) : Prop :=
  (∀ i : Fin n, b.window i.castSucc = a.window i.succ) ∧ b.window (Fin.last n) = a.current

def All (P : β → Prop) (a : Feedback β n) : Prop :=
  (∀ i, P (a.window i)) ∧ P a.current

/-- The outputs of the last `k` steps satisfy `P`.  They are the current one and
the last `k - 1` slots. -/
def Newest (P : β → Prop) (k : Nat) (a : Feedback β n) : Prop :=
  (∀ i : Fin (n + 1), n + 2 ≤ i.val + k → P (a.window i)) ∧ (1 ≤ k → P a.current)

theorem newest_zero (P : β → Prop) (a : Feedback β n) : Newest P 0 a :=
  ⟨fun i hi => absurd hi (by have := i.isLt; omega), fun h => absurd h (by omega)⟩

theorem Newest.all {P : β → Prop} {k : Nat} {a : Feedback β n} (h : Newest P k a)
    (hk : n + 2 ≤ k) : All P a :=
  ⟨fun i => h.1 i (by omega), h.2 (by omega)⟩

theorem Newest.slide {P : β → Prop} {k : Nat} {a b : Feedback β n} (h : Newest P k a)
    (hs : Slides a b) (hb : P b.current) : Newest P (k + 1) b := by
  refine ⟨fun i hi => ?_, fun _ => hb⟩
  cases i using Fin.lastCases with
  | last =>
    rw [hs.2]
    exact h.2 (by rw [Fin.val_last] at hi; omega)
  | cast i =>
    rw [hs.1 i]
    exact h.1 i.succ (by rw [Fin.val_castSucc] at hi; rw [Fin.val_succ]; omega)

theorem All.window_slide {P : β → Prop} {a b : Feedback β n} (h : All P a) (hs : Slides a b)
    (i : Fin (n + 1)) : P (b.window i) := by
  cases i using Fin.lastCases with
  | last => rw [hs.2]; exact h.2
  | cast i => rw [hs.1 i]; exact h.1 i.succ

theorem All.slide {P : β → Prop} {a b : Feedback β n} (h : All P a) (hs : Slides a b)
    (hb : P b.current) : All P b :=
  ⟨h.window_slide hs, hb⟩

theorem All.mono {P Q : β → Prop} (hPQ : ∀ x, P x → Q x) {a : Feedback β n} (h : All P a) :
    All Q a :=
  ⟨fun i => hPQ _ (h.1 i), hPQ _ h.2⟩

def least [LinearOrder β] (a : Feedback β n) : β :=
  min (Finset.univ.inf' Finset.univ_nonempty a.window) a.current

theorem le_least_iff [LinearOrder β] {a : Feedback β n} {c : β} :
    c ≤ least a ↔ All (c ≤ ·) a := by
  rw [least, le_min_iff, Finset.le_inf'_iff]
  exact ⟨fun h => ⟨fun i => h.1 i (Finset.mem_univ i), h.2⟩, fun h => ⟨fun i _ => h.1 i, h.2⟩⟩

theorem all_least [LinearOrder β] (a : Feedback β n) : All (least a ≤ ·) a :=
  le_least_iff.mp (le_refl _)

def greatest [LinearOrder β] (a : Feedback β n) : β :=
  max (Finset.univ.sup' Finset.univ_nonempty a.window) a.current

theorem greatest_le_iff [LinearOrder β] {a : Feedback β n} {c : β} :
    greatest a ≤ c ↔ All (· ≤ c) a := by
  rw [greatest, max_le_iff, Finset.sup'_le_iff]
  exact ⟨fun h => ⟨fun i => h.1 i (Finset.mem_univ i), h.2⟩, fun h => ⟨fun i _ => h.1 i, h.2⟩⟩

theorem all_greatest [LinearOrder β] (a : Feedback β n) : All (· ≤ greatest a) a :=
  greatest_le_iff.mp (le_refl _)

/-- Suppose every step taken while all values satisfy `Q j` puts out a value
satisfying the stronger `Q (j + 1)`.  Then after `k` full turnovers of the window
all values satisfy `Q k`. -/
theorem run_turnovers {step : σ → ι → Option σ} {view : σ → Feedback β n} {Q : Nat → β → Prop}
    {s t : σ} {inputs : List ι} (hanti : ∀ j x, Q (j + 1) x → Q j x) (h0 : All (Q 0) (view s))
    (hstep : ∀ k (hk : k < inputs.length) a b, run step s (inputs.take k) = some a →
      step a inputs[k] = some b →
      Slides (view a) (view b) ∧ ∀ j, All (Q j) (view a) → Q (j + 1) (view b).current)
    (h : run step s inputs = some t) {k : Nat} (hk : (n + 2) * k ≤ inputs.length) :
    All (Q k) (view t) := by
  have hle : ∀ i j x, i ≤ j → Q j x → Q i x := by
    intro i j x hij
    induction hij with
    | refl => exact fun hx => hx
    | step _ ih => exact fun hx => ih (hanti _ x hx)
  -- With `q` turnovers complete and `r` steps into the next one.
  have hinv := run_invariant_end
    (P := fun c a => ∃ q r, c = (n + 2) * q + r ∧ r < n + 2 ∧
      All (Q q) (view a) ∧ Newest (Q (q + 1)) r (view a))
    ⟨0, 0, rfl, by omega, h0, newest_zero _ _⟩
    (fun c hc a b ha hP hab => by
      obtain ⟨q, r, hqr, hr, hall, hnew⟩ := hP
      obtain ⟨hs, hb⟩ := hstep c hc a b ha hab
      have hcur := hb q hall
      have hnew' := hnew.slide hs hcur
      by_cases hlast : r + 1 < n + 2
      · exact ⟨q, r + 1, by omega, hlast, hall.slide hs (hanti q _ hcur), hnew'⟩
      · refine ⟨q + 1, 0, ?_, by omega, hnew'.all (by omega), newest_zero _ _⟩
        rw [Nat.mul_succ]
        omega) h
  obtain ⟨q, r, hqr, hr, hall, _⟩ := hinv
  refine hall.mono fun x hx => hle k q x ?_ hx
  have hlt : (n + 2) * k < (n + 2) * (q + 1) := by
    rw [Nat.mul_succ]
    omega
  have := Nat.lt_of_mul_lt_mul_left hlt
  omega

/-- One turnover: a property of every output holds of the whole window. -/
theorem run_turnover {step : σ → ι → Option σ} {view : σ → Feedback β n} {P : β → Prop}
    {s t : σ} {inputs : List ι}
    (hstep : ∀ k (hk : k < inputs.length) a b, run step s (inputs.take k) = some a →
      step a inputs[k] = some b → Slides (view a) (view b) ∧ P (view b).current)
    (h : run step s inputs = some t) (hlen : n + 2 ≤ inputs.length) : All P (view t) := by
  have hQ := run_turnovers (Q := fun j x => 1 ≤ j → P x) (k := 1)
    (fun j x hx h1 => hx (by omega))
    ⟨fun i h1 => absurd h1 (by omega), fun h1 => absurd h1 (by omega)⟩
    (fun c hc a b ha hab => by
      obtain ⟨hs, hb⟩ := hstep c hc a b ha hab
      exact ⟨hs, fun _ _ _ => hb⟩) h (by omega)
  exact hQ.mono fun x hx => hx (Nat.le_refl 1)

end Feedback
end Machine
