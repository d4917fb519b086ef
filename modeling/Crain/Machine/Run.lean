/-
Runs of a machine that may trap.

`step s i` is the state after input `i`, or `none` when the machine traps.  A
run feeds a list of inputs in order and stops at the first trap.  The rules
below carry a fact from one step to every state of a run: `run_total` for the
absence of traps, `run_invariant` for one run and `run_lockstep` for two runs
compared input by input.  Facts are indexed by the number of inputs consumed,
so that an invariant may speak of the position in the run, or by the inputs
themselves (`run_history`).
-/
import Mathlib.Data.List.Basic

namespace Machine

variable {σ τ ι κ : Type}

def run (step : σ → ι → Option σ) (s : σ) (inputs : List ι) : Option σ :=
  inputs.foldlM step s

section OneMachine

variable {step : σ → ι → Option σ}

@[simp] theorem run_nil (s : σ) : run step s [] = some s := rfl

theorem run_cons (s : σ) (i : ι) (rest : List ι) :
    run step s (i :: rest) = (step s i).bind fun t => run step t rest := by
  rw [run, List.foldlM_cons]
  rfl

theorem run_append (s : σ) (first second : List ι) :
    run step s (first ++ second) = (run step s first).bind fun t => run step t second := by
  rw [run, List.foldlM_append]
  rfl

theorem run_concat (s : σ) (inputs : List ι) (i : ι) :
    run step s (inputs ++ [i]) = (run step s inputs).bind fun t => step t i := by
  rw [run_append]
  congr 1
  funext t
  rw [run_cons]
  cases step t i <;> rfl

theorem run_take_succ (s : σ) {inputs : List ι} {k : Nat} (hk : k < inputs.length) :
    run step s (inputs.take (k + 1)) =
      (run step s (inputs.take k)).bind fun t => step t inputs[k] := by
  rw [List.take_succ_eq_append_getElem hk, run_concat]

/-- A run that did not trap did not trap at any earlier point. -/
theorem exists_run_take {s t : σ} {inputs : List ι} (h : run step s inputs = some t) (k : Nat) :
    ∃ a, run step s (inputs.take k) = some a := by
  rw [← List.take_append_drop k inputs, run_append, Option.bind_eq_some_iff] at h
  obtain ⟨a, ha, _⟩ := h
  exact ⟨a, ha⟩

/-- A machine that can always step from a state of `I`, and stays in `I`, never
traps. -/
theorem run_total {I : σ → Prop} (hstep : ∀ a i, I a → ∃ b, step a i = some b ∧ I b) :
    ∀ (inputs : List ι) (s : σ), I s → ∃ t, run step s inputs = some t ∧ I t
  | [], s, hs => ⟨s, rfl, hs⟩
  | i :: rest, s, hs => by
    obtain ⟨a, ha, hIa⟩ := hstep s i hs
    obtain ⟨t, ht, hIt⟩ := run_total hstep rest a hIa
    refine ⟨t, ?_, hIt⟩
    rw [run_cons, ha]
    exact ht

/-- A fact that holds at the start and is carried by each step holds after every
prefix of the run. -/
theorem run_invariant {P : Nat → σ → Prop} {s : σ} {inputs : List ι} (h0 : P 0 s)
    (hstep : ∀ k (hk : k < inputs.length) a b, run step s (inputs.take k) = some a → P k a →
      step a inputs[k] = some b → P (k + 1) b) :
    ∀ k, k ≤ inputs.length → ∀ a, run step s (inputs.take k) = some a → P k a := by
  intro k
  induction k with
  | zero =>
    intro _ a ha
    rw [List.take_zero, run_nil, Option.some.injEq] at ha
    rw [← ha]
    exact h0
  | succ k ih =>
    intro hk b hb
    rw [run_take_succ s (by omega), Option.bind_eq_some_iff] at hb
    obtain ⟨a, ha, hab⟩ := hb
    exact hstep k (by omega) a b ha (ih (by omega) a ha) hab

theorem run_invariant_end {P : Nat → σ → Prop} {s t : σ} {inputs : List ι} (h0 : P 0 s)
    (hstep : ∀ k (hk : k < inputs.length) a b, run step s (inputs.take k) = some a → P k a →
      step a inputs[k] = some b → P (k + 1) b)
    (h : run step s inputs = some t) : P inputs.length t := by
  refine run_invariant h0 hstep inputs.length (Nat.le_refl _) t ?_
  rw [List.take_length]
  exact h

/-- A fact about the inputs consumed so far, carried by each step, holds of the
whole run. -/
theorem run_history {P : List ι → σ → Prop}
    (hstep : ∀ past a i b, P past a → step a i = some b → P (past ++ [i]) b) {s t : σ}
    {inputs : List ι} (h0 : P [] s) (h : run step s inputs = some t) : P inputs t := by
  have hend := run_invariant_end (P := fun k a => P (inputs.take k) a) (by
      rw [List.take_zero]
      exact h0)
    (fun k hk a b _ ha hab => by
      rw [List.take_succ_eq_append_getElem hk]
      exact hstep _ a _ b ha hab) h
  rw [List.take_length] at hend
  exact hend

end OneMachine

/-- Two machines fed lists of equal length stay related when related states step
to related states. -/
theorem run_lockstep {stepA : σ → ι → Option σ} {stepB : τ → κ → Option τ}
    {R : Nat → σ → τ → Prop} {s : σ} {t : τ} {as : List ι} {bs : List κ}
    (hlen : as.length = bs.length) (h0 : R 0 s t)
    (hstep : ∀ k (hk : k < as.length) a b a' b', run stepA s (as.take k) = some a →
      run stepB t (bs.take k) = some b → R k a b → stepA a as[k] = some a' →
      stepB b bs[k] = some b' → R (k + 1) a' b') :
    ∀ k, k ≤ as.length → ∀ a b, run stepA s (as.take k) = some a →
      run stepB t (bs.take k) = some b → R k a b := by
  intro k
  induction k with
  | zero =>
    intro _ a b ha hb
    rw [List.take_zero, run_nil, Option.some.injEq] at ha hb
    rw [← ha, ← hb]
    exact h0
  | succ k ih =>
    intro hk a' b' ha hb
    rw [run_take_succ s (by omega), Option.bind_eq_some_iff] at ha
    rw [run_take_succ t (by omega), Option.bind_eq_some_iff] at hb
    obtain ⟨a, ha, haa⟩ := ha
    obtain ⟨b, hb, hbb⟩ := hb
    exact hstep k (by omega) a b a' b' ha hb (ih (by omega) a b ha hb) haa hbb

end Machine
