/-
Transactions that take effect as a whole or not at all.

`attempt s i` is the state an input would lead to, or `none` when the transaction
fails.  A failed transaction is rolled back, so the machine as a whole never
stops: `commit` falls back to the old state.  An invariant of the committed
states only has to be carried over the attempts that succeed
(`commitAll_invariant`), with the state before each input named by the prefix it
was reached by, and for inputs that suit the state they are tried in only over those
that do (`commitAll_of_follows`).  The inputs that took effect are `committed`, and the state is the
one an ordinary run over them reaches (`run_committed`).
-/
import Crain.Machine.Run

namespace Machine

variable {σ ι : Type}

/-- The state after an attempt, rolled back if it failed. -/
def commit (attempt : σ → ι → Option σ) (s : σ) (i : ι) : σ := (attempt s i).getD s

def commitAll (attempt : σ → ι → Option σ) (s : σ) (inputs : List ι) : σ :=
  inputs.foldl (commit attempt) s

/-- The inputs that took effect, in order. -/
def committed (attempt : σ → ι → Option σ) : σ → List ι → List ι
  | _, [] => []
  | s, i :: rest =>
    match attempt s i with
    | some t => i :: committed attempt t rest
    | none => committed attempt s rest

/-- Each input is in a relation to the state it is tried in. -/
def Follows (attempt : σ → ι → Option σ) (R : σ → ι → Prop) : σ → List ι → Prop
  | _, [] => True
  | s, i :: rest => R s i ∧ Follows attempt R (commit attempt s i) rest

section Commit

variable {attempt : σ → ι → Option σ}

theorem commit_of_some {s t : σ} {i : ι} (h : attempt s i = some t) : commit attempt s i = t := by
  rw [commit, h, Option.getD_some]

theorem commit_of_none {s : σ} {i : ι} (h : attempt s i = none) : commit attempt s i = s := by
  rw [commit, h, Option.getD_none]

theorem commitAll_take_succ (s : σ) {inputs : List ι} {k : Nat} (hk : k < inputs.length) :
    commitAll attempt s (inputs.take (k + 1)) =
      commit attempt (commitAll attempt s (inputs.take k)) inputs[k] := by
  rw [List.take_succ_eq_append_getElem hk, commitAll, List.foldl_append]
  rfl

/-- A state that refuses every input is final. -/
theorem commitAll_of_refused {s : σ} (h : ∀ i, attempt s i = none) (inputs : List ι) :
    commitAll attempt s inputs = s := by
  induction inputs with
  | nil => rfl
  | cons i rest ih =>
    rw [commitAll, List.foldl_cons, commit_of_none (h i)]
    exact ih

theorem commitAll_take_of_refused {s : σ} {inputs : List ι} {k j : Nat} (hkj : k ≤ j)
    (h : ∀ i, attempt (commitAll attempt s (inputs.take k)) i = none) :
    commitAll attempt s (inputs.take j) = commitAll attempt s (inputs.take k) := by
  have hsplit : inputs.take j = inputs.take k ++ (inputs.drop k).take (j - k) := by
    rw [← List.take_add, Nat.add_sub_cancel' hkj]
  rw [hsplit, commitAll, List.foldl_append]
  exact commitAll_of_refused h _

/-- A fact that holds at the start and is carried by each successful attempt
holds after every prefix. -/
theorem commitAll_invariant {P : σ → Prop} {s : σ} {inputs : List ι} (h0 : P s)
    (hstep : ∀ k (hk : k < inputs.length) t, P (commitAll attempt s (inputs.take k)) →
      attempt (commitAll attempt s (inputs.take k)) inputs[k] = some t → P t) :
    ∀ k, k ≤ inputs.length → P (commitAll attempt s (inputs.take k)) := by
  intro k
  induction k with
  | zero => exact fun _ => h0
  | succ k ih =>
    intro hk
    have hprev := ih (by omega)
    rw [commitAll_take_succ s (by omega)]
    cases h : attempt (commitAll attempt s (inputs.take k)) inputs[k] with
    | none =>
      rw [commit_of_none h]
      exact hprev
    | some t =>
      rw [commit_of_some h]
      exact hstep k (by omega) t hprev h

/-- An invariant of the attempts holds of every state that is reached. -/
theorem commitAll_stable {I : σ → Prop} (hstep : ∀ a i b, I a → attempt a i = some b → I b)
    {s : σ} (h0 : I s) (inputs : List ι) : I (commitAll attempt s inputs) := by
  have h := commitAll_invariant h0
    (fun k (_ : k < inputs.length) t ha hat => hstep _ _ t ha hat) inputs.length (Nat.le_refl _)
  rw [List.take_length] at h
  exact h

/-- An invariant of the attempts whose inputs are in the relation. -/
theorem commitAll_of_follows {R : σ → ι → Prop} {I : σ → Prop}
    (hstep : ∀ a i b, I a → R a i → attempt a i = some b → I b) {s : σ} (h0 : I s)
    {inputs : List ι} (h : Follows attempt R s inputs) : I (commitAll attempt s inputs) := by
  induction inputs generalizing s with
  | nil => exact h0
  | cons i rest ih =>
    refine ih ?_ h.2
    cases hi : attempt s i with
    | none =>
      rw [commit_of_none hi]
      exact h0
    | some t =>
      rw [commit_of_some hi]
      exact hstep s i t h0 h.1 hi

theorem Follows.mono {R R' : σ → ι → Prop} {s : σ} {inputs : List ι}
    (h : Follows attempt R s inputs) (hR : ∀ a i, R a i → R' a i) : Follows attempt R' s inputs := by
  induction inputs generalizing s with
  | nil => trivial
  | cons i rest ih => exact ⟨hR s i h.1, ih h.2⟩

/-! ## The inputs that took effect -/

theorem run_committed (s : σ) (inputs : List ι) :
    run attempt s (committed attempt s inputs) = some (commitAll attempt s inputs) := by
  induction inputs generalizing s with
  | nil => rfl
  | cons i rest ih =>
    rw [committed, commitAll, List.foldl_cons]
    cases h : attempt s i with
    | none =>
      rw [commit_of_none h]
      exact ih s
    | some t =>
      rw [commit_of_some h, run_cons, h]
      exact ih t

/-- Inputs that always take effect are all among the committed ones. -/
theorem committed_filterMap {β : Type} {f : ι → Option β}
    (h : ∀ s i, (f i).isSome → (attempt s i).isSome) (s : σ) (inputs : List ι) :
    (committed attempt s inputs).filterMap f = inputs.filterMap f := by
  induction inputs generalizing s with
  | nil => rfl
  | cons i rest ih =>
    rw [committed]
    cases hi : attempt s i with
    | none =>
      have hf : f i = none := by
        by_contra hne
        have hsome := h s i (Option.isSome_iff_ne_none.mpr hne)
        rw [hi] at hsome
        cases hsome
      rw [List.filterMap_cons_none hf]
      exact ih s
    | some t =>
      show (i :: committed attempt t rest).filterMap f = _
      rw [List.filterMap_cons, List.filterMap_cons, ih]

/-- A machine that keeps more of its state than another does the same to the rest. -/
theorem commitAll_map {τ : Type} {attempt' : τ → ι → Option τ} {f : σ → τ}
    (h : ∀ s i, (attempt s i).map f = attempt' (f s) i) (s : σ) (inputs : List ι) :
    f (commitAll attempt s inputs) = commitAll attempt' (f s) inputs ∧
      committed attempt s inputs = committed attempt' (f s) inputs := by
  induction inputs generalizing s with
  | nil => exact ⟨rfl, rfl⟩
  | cons i rest ih =>
    have hi := h s i
    rw [commitAll, commitAll, List.foldl_cons, List.foldl_cons, committed, committed]
    cases hs : attempt s i with
    | none =>
      rw [hs, Option.map_none] at hi
      rw [commit_of_none hs, commit_of_none hi.symm, ← hi]
      exact ih s
    | some t =>
      rw [hs, Option.map_some] at hi
      obtain ⟨hstate, hinputs⟩ := ih t
      rw [commit_of_some hs, commit_of_some hi.symm, ← hi]
      exact ⟨hstate, congrArg (i :: ·) hinputs⟩

/-- A fact about the inputs that took effect, carried by each successful attempt,
holds of every state that is reached. -/
theorem commitAll_history {P : List ι → σ → Prop}
    (hstep : ∀ past a i b, P past a → attempt a i = some b → P (past ++ [i]) b) {s : σ}
    (h0 : P [] s) (inputs : List ι) :
    P (committed attempt s inputs) (commitAll attempt s inputs) :=
  run_history hstep h0 (run_committed s inputs)

end Commit

end Machine
