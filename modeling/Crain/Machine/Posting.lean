/-
Double-entry bookkeeping.

A posting moves a value from a source account to a target account, and either
side may be missing.  `net log` is what a list of postings leaves in every
account, as integers: it does not depend on the order of the list (`net_perm`),
and it is what each account received less what it spent (`net_apply`).

`Totals f n` says that natural-number holdings `f` are zero outside a finite set
of accounts and add up to `n`.  A posting between two accounts keeps the total
(`Totals.post`), and no two accounts hold more than it (`Totals.add_le`).
-/
import Mathlib.Algebra.BigOperators.Finprod
import Mathlib.Algebra.Order.BigOperators.Group.Finset
import Mathlib.Data.Finsupp.Weight

namespace Machine

structure Posting (α : Type) where
  source : Option α
  target : Option α
  value : Nat

namespace Posting

variable {α : Type}

/-! ## Flows -/

/-- The value on one side of a posting. -/
noncomputable def side (account : Option α) (value : Nat) : α →₀ ℤ :=
  account.elim 0 fun a => Finsupp.single a (value : ℤ)

noncomputable def flow (p : Posting α) : α →₀ ℤ := side p.target p.value - side p.source p.value

noncomputable def net (log : List (Posting α)) : α →₀ ℤ := (log.map flow).sum

@[simp] theorem net_nil : net ([] : List (Posting α)) = 0 := rfl

@[simp] theorem net_append (first second : List (Posting α)) :
    net (first ++ second) = net first + net second := by
  simp [net]

@[simp] theorem net_singleton (p : Posting α) : net [p] = p.flow := by
  simp [net]

theorem net_perm {log log' : List (Posting α)} (h : log.Perm log') : net log = net log' :=
  (h.map flow).sum_eq

section Accounts

variable [DecidableEq α]

theorem side_apply (account : Option α) (value : Nat) (a : α) :
    side account value a = if account = some a then (value : ℤ) else 0 := by
  cases account with
  | none => simp [side]
  | some b => simp [side, Finsupp.single_apply]

theorem flow_apply (p : Posting α) (a : α) :
    p.flow a = (if p.target = some a then (p.value : ℤ) else 0) -
      (if p.source = some a then (p.value : ℤ) else 0) := by
  rw [flow, Finsupp.sub_apply, side_apply, side_apply]

/-- Only the source of a posting loses by it. -/
theorem source_of_flow_neg {p : Posting α} {a : α} (h : p.flow a < 0) : p.source = some a := by
  by_contra hne
  rw [flow_apply, if_neg hne, sub_zero] at h
  split at h <;> omega

/-- What was posted to an account. -/
def received (log : List (Posting α)) (a : α) : Nat :=
  ((log.filter fun p => p.target = some a).map value).sum

def spent (log : List (Posting α)) (a : α) : Nat :=
  ((log.filter fun p => p.source = some a).map value).sum

theorem received_cons (p : Posting α) (log : List (Posting α)) (a : α) :
    received (p :: log) a = (if p.target = some a then p.value else 0) + received log a := by
  by_cases h : p.target = some a <;> simp [received, h]

theorem spent_cons (p : Posting α) (log : List (Posting α)) (a : α) :
    spent (p :: log) a = (if p.source = some a then p.value else 0) + spent log a := by
  by_cases h : p.source = some a <;> simp [spent, h]

theorem net_apply (log : List (Posting α)) (a : α) :
    net log a = (received log a : ℤ) - spent log a := by
  induction log with
  | nil => rfl
  | cons p rest ih =>
    rw [← List.singleton_append, net_append, net_singleton, Finsupp.add_apply, ih, flow_apply,
      List.singleton_append, received_cons, spent_cons]
    push_cast
    omega

end Accounts

/-! ## Totals -/

theorem degree_side (account : Option α) (value : Nat) :
    (side account value).degree = account.elim 0 fun _ => (value : ℤ) := by
  cases account with
  | none => simp [side]
  | some a => simp [side]

/-- A posting with two sides leaves the total alone. -/
theorem degree_flow {p : Posting α} (hsource : p.source.isSome) (htarget : p.target.isSome) :
    p.flow.degree = 0 := by
  obtain ⟨a, ha⟩ := Option.isSome_iff_exists.mp hsource
  obtain ⟨b, hb⟩ := Option.isSome_iff_exists.mp htarget
  rw [flow, map_sub, degree_side, degree_side, ha, hb]
  exact sub_self _

end Posting

/-- The holdings `f` are finitely supported and add up to `n`. -/
def Totals {α : Type} (f : α → Nat) (n : Nat) : Prop :=
  ∃ h : α →₀ ℤ, (∀ a, h a = f a) ∧ h.degree = n

namespace Totals

variable {α : Type} {f g : α → Nat} {n : Nat}

theorem single [DecidableEq α] (a : α) (n : Nat) : Totals (fun b => if b = a then n else 0) n := by
  refine ⟨Finsupp.single a (n : ℤ), fun b => ?_, Finsupp.degree_single a _⟩
  by_cases h : b = a <;> simp [h]

/-- A posting between two accounts keeps the total. -/
theorem post (h : Totals f n) {p : Posting α} (hsource : p.source.isSome)
    (htarget : p.target.isSome) (hg : ∀ a, (g a : ℤ) = f a + p.flow a) : Totals g n := by
  obtain ⟨holdings, hf, hn⟩ := h
  refine ⟨holdings + p.flow, fun a => ?_, ?_⟩
  · rw [Finsupp.add_apply, hf, hg]
  · rw [map_add, hn, Posting.degree_flow hsource htarget, add_zero]

theorem le (h : Totals f n) (a : α) : f a ≤ n := by
  obtain ⟨holdings, hf, hn⟩ := h
  by_cases ha : a ∈ holdings.support
  · have hle := Finset.single_le_sum (f := fun b => holdings b)
      (fun b _ => by rw [hf]; exact Int.natCast_nonneg _) ha
    rw [← Finsupp.degree_apply, hn, hf] at hle
    exact_mod_cast hle
  · have hzero := hf a
    rw [Finsupp.notMem_support_iff.mp ha] at hzero
    omega

/-- Two accounts never hold more than the total. -/
theorem add_le (h : Totals f n) {a b : α} (hab : a ≠ b) : f a + f b ≤ n := by
  have hle := h.le
  obtain ⟨holdings, hf, hn⟩ := h
  by_cases ha : a ∈ holdings.support
  · by_cases hb : b ∈ holdings.support
    · have hsum := Finset.add_le_sum (f := fun b => holdings b)
        (fun b _ => by rw [hf]; exact Int.natCast_nonneg _) ha hb hab
      rw [← Finsupp.degree_apply, hn, hf, hf] at hsum
      exact_mod_cast hsum
    · have hzero := hf b
      rw [Finsupp.notMem_support_iff.mp hb] at hzero
      have hla := hle a
      omega
  · have hzero := hf a
    rw [Finsupp.notMem_support_iff.mp ha] at hzero
    have hlb := hle b
    omega

theorem iff_finsum : Totals f n ↔ (Function.support f).Finite ∧ ∑ᶠ a, f a = n := by
  constructor
  · intro h
    obtain ⟨holdings, hf, hn⟩ := h
    have hsub : Function.support f ⊆ (holdings.support : Set α) := fun a ha => by
      rw [Finset.mem_coe, Finsupp.mem_support_iff, hf]
      exact_mod_cast ha
    refine ⟨holdings.support.finite_toSet.subset hsub, ?_⟩
    rw [finsum_eq_sum_of_support_subset f hsub]
    rw [Finsupp.degree_apply, Finset.sum_congr rfl fun a _ => hf a] at hn
    exact_mod_cast hn
  · intro h
    obtain ⟨hfin, hsum⟩ := h
    have hsub : Function.support f ⊆ (hfin.toFinset : Set α) := by
      rw [Set.Finite.coe_toFinset]
    refine ⟨Finsupp.onFinset hfin.toFinset (fun a => (f a : ℤ)) fun a ha => ?_, fun a => rfl, ?_⟩
    · rw [Set.Finite.mem_toFinset]
      exact_mod_cast ha
    · rw [← hsum, finsum_eq_sum_of_support_subset f hsub, Nat.cast_sum, Finsupp.degree_apply]
      exact Finset.sum_subset Finsupp.support_onFinset_subset fun a _ ha =>
        Finsupp.notMem_support_iff.mp ha

end Totals
end Machine
