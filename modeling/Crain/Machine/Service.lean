/-
Machines that answer.

A service answers each input and moves on.  Two services in related states give the same
answers for ever if related states answer alike and stay related (`answers_simulate`).

The second rule compares a run with the same run without some of its inputs.  If the inputs
left out do not change what the others can see, the others are answered as if they had been
alone (`answersTo_unwind`), however the two kinds of input are interleaved.
-/
import Mathlib.Data.List.Basic

namespace Machine

variable {σ τ ι ρ : Type}

def answers (serve : σ → ι → ρ × σ) : σ → List ι → List ρ
  | _, [] => []
  | s, i :: rest => (serve s i).1 :: answers serve (serve s i).2 rest

def finalState (serve : σ → ι → ρ × σ) (s : σ) (inputs : List ι) : σ :=
  inputs.foldl (fun s i => (serve s i).2) s

/-- The answers given to the inputs that satisfy `p`. -/
def answersTo (serve : σ → ι → ρ × σ) (p : ι → Bool) : σ → List ι → List ρ
  | _, [] => []
  | s, i :: rest =>
    if p i then (serve s i).1 :: answersTo serve p (serve s i).2 rest
    else answersTo serve p (serve s i).2 rest

theorem answers_simulate {serveA : σ → ι → ρ × σ} {serveB : τ → ι → ρ × τ} {R : σ → τ → Prop}
    (hstep : ∀ s t i, R s t → (serveA s i).1 = (serveB t i).1 ∧ R (serveA s i).2 (serveB t i).2)
    {s : σ} {t : τ} (h : R s t) (inputs : List ι) :
    answers serveA s inputs = answers serveB t inputs ∧
      R (finalState serveA s inputs) (finalState serveB t inputs) := by
  induction inputs generalizing s t with
  | nil => exact ⟨rfl, h⟩
  | cons i rest ih =>
    obtain ⟨hanswer, hnext⟩ := hstep s t i h
    obtain ⟨hanswers, hfinal⟩ := ih hnext
    exact ⟨congrArg₂ List.cons hanswer hanswers, hfinal⟩

/-- Inputs outside `p` go unnoticed by those inside. -/
theorem answersTo_unwind {serve : σ → ι → ρ × σ} {p : ι → Bool} {Agree : σ → σ → Prop}
    {inputs : List ι}
    (hinside : ∀ s t i, i ∈ inputs → p i = true → Agree s t →
      (serve s i).1 = (serve t i).1 ∧ Agree (serve s i).2 (serve t i).2)
    (houtside : ∀ s t i, i ∈ inputs → p i = false → Agree s t → Agree (serve s i).2 t)
    {s t : σ} (h : Agree s t) :
    answersTo serve p s inputs = answers serve t (inputs.filter p) ∧
      Agree (finalState serve s inputs) (finalState serve t (inputs.filter p)) := by
  induction inputs generalizing s t with
  | nil => exact ⟨rfl, h⟩
  | cons i rest ih =>
    have hin := fun s t j (hj : j ∈ rest) => hinside s t j (List.mem_cons_of_mem i hj)
    have hout := fun s t j (hj : j ∈ rest) => houtside s t j (List.mem_cons_of_mem i hj)
    cases hp : p i with
    | true =>
      obtain ⟨hanswer, hnext⟩ := hinside s t i List.mem_cons_self hp h
      obtain ⟨hanswers, hfinal⟩ := ih hin hout hnext
      rw [answersTo, if_pos hp, List.filter_cons_of_pos hp]
      exact ⟨congrArg₂ List.cons hanswer hanswers, hfinal⟩
    | false =>
      have hp' : ¬ p i = true := by simp [hp]
      rw [answersTo, if_neg hp', List.filter_cons_of_neg hp']
      exact ih hin hout (houtside s t i List.mem_cons_self hp h)

end Machine
