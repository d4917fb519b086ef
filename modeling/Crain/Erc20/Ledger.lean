/-
The ERC-20 contract on the chain.

A call that traps or returns an error is rolled back, so the ledger only changes
by the calls that succeed.  Nothing is lost by rolling back errors: a call that
returns one has not written anything (`commit_attempt`).

The invariant of every reachable state is `Conserved`: the balances add up to the
supply.  It is what keeps the contract from trapping, because the one addition
that could overflow puts together the balances of two accounts (`dispatch_total`).
The checks alone then decide how a message returns (`transferFrom_outcome`).
-/
import Crain.Machine.Transaction
import Crain.Erc20.Effect

namespace Crain
namespace Erc20

open Machine

variable {AccountId : Type}

/-- The sum of all balances is the supply. -/
def Conserved (token : Erc20 AccountId) : Prop :=
  (Function.support fun a => (token.balanceOf a).toNat).Finite ∧
    ∑ᶠ a, (token.balanceOf a).toNat = token.totalSupply.toNat

theorem conserved_iff {token : Erc20 AccountId} :
    Conserved token ↔ Totals (fun a => (token.balanceOf a).toNat) token.totalSupply.toNat :=
  Totals.iff_finsum.symm

/-- Two accounts together never hold more than the supply, so a funded move always
fits. -/
theorem Conserved.room {x : Exec AccountId} (hx : Conserved x.token) {source target : AccountId}
    {value : Balance} (h : value ≤ x.token.balanceOf source) (hne : source ≠ target) :
    (x.token.balanceOf target).toNat + value.toNat < 2 ^ 128 := by
  have hle : value.toNat ≤ (x.token.balanceOf source).toNat := h
  have hsum := (conserved_iff.mp hx).add_le hne
  have hlt := x.token.totalSupply.isLt
  omega

section Chain

variable [DecidableEq AccountId]

def attempt (x : Exec AccountId) (c : Call AccountId) : Option (Exec AccountId) :=
  match dispatch c x with
  | some (.ok (), y) => some y
  | _ => none

/-- The state after a list of calls, those that fail included. -/
def ledgerAfter (caller : AccountId) (initialSupply : Balance) (calls : List (Call AccountId)) :
    Exec AccountId :=
  commitAll attempt (new caller initialSupply) calls

theorem attempt_eq_some_iff {x y : Exec AccountId} {c : Call AccountId} :
    attempt x c = some y ↔ dispatch c x = some (.ok (), y) := by
  unfold attempt
  split
  · rename_i z hz
    rw [hz]
    simp
  · rename_i hne
    exact ⟨fun h => (by cases h), fun h => absurd h (hne y)⟩

theorem attempt_performs {x y : Exec AccountId} {c : Call AccountId} (h : attempt x c = some y) :
    Performs c x y :=
  dispatch_performs (attempt_eq_some_iff.mp h)

/-- Rolling back errors makes no difference: the state a call leaves behind is the
one the source left behind, unless it trapped. -/
theorem commit_attempt (x : Exec AccountId) (c : Call AccountId) :
    commit attempt x c = ((dispatch c x).map Prod.snd).getD x := by
  cases h : dispatch c x with
  | none => simp [commit, attempt, h]
  | some p =>
    obtain ⟨r, y⟩ := p
    cases r with
    | error e => simp [commit, attempt, h, dispatch_error h]
    | ok u => simp [commit, attempt, h]

/-! ## Conservation -/

theorem conserved_new (caller : AccountId) (initialSupply : Balance) :
    Conserved (new caller initialSupply).token := by
  rw [conserved_iff]
  have h := Totals.single caller initialSupply.toNat
  have hbalance : (fun a => ((new caller initialSupply).token.balanceOf a).toNat) =
      fun a => if a = caller then initialSupply.toNat else 0 := by
    funext a
    by_cases ha : a = caller <;> simp [new, newInit, Exec.insertBalance, balanceOf, ha]
  rw [hbalance]
  exact h

theorem Performs.conserved {c : Call AccountId} {x y : Exec AccountId} (h : Performs c x y)
    (hx : Conserved x.token) : Conserved y.token := by
  rw [conserved_iff] at hx ⊢
  rw [h.totalSupply]
  have hbalances := h.balances
  obtain ⟨caller, message⟩ := c
  cases message with
  | transfer target value => exact hx.post rfl rfl fun a => by simpa [Call.event] using hbalances a
  | approve spender value =>
    have hsame : (fun a => (y.token.balanceOf a).toNat) = fun a => (x.token.balanceOf a).toNat := by
      funext a
      simpa [Call.event] using hbalances a
    rw [hsame]
    exact hx
  | transferFrom source target value =>
    exact hx.post rfl rfl fun a => by simpa [Call.event] using hbalances a

/-! ## Outcomes -/

section Outcomes

variable {x : Exec AccountId}

theorem transferFromTo_outcome (hx : Conserved x.token) (source target : AccountId)
    (value : Balance) :
    (x.token.balanceOf source < value ∧
        transferFromTo source target value x = some (.error .insufficientBalance, x)) ∨
      (value ≤ x.token.balanceOf source ∧ ∃ y,
        transferFromTo source target value x = some (.ok (), y) ∧
          Moves source target value x y) := by
  by_cases h : x.token.balanceOf source < value
  · exact Or.inl ⟨h, transferFromTo_error h⟩
  · have hle : value ≤ x.token.balanceOf source := Nat.le_of_not_lt h
    obtain ⟨y, hy⟩ := exists_transferFromTo hle (hx.room hle)
    right
    refine ⟨hle, y, hy, ?_⟩
    rcases transferFromTo_cases hy with herr | hok
    · cases herr.1
    · exact hok.2

/-- The allowance is checked before the balance. -/
theorem transferFrom_outcome (hx : Conserved x.token) (caller source target : AccountId)
    (value : Balance) :
    (x.token.allowance source caller < value ∧
        transferFrom caller source target value x =
          some (.error .insufficientAllowance, x)) ∨
      (value ≤ x.token.allowance source caller ∧ x.token.balanceOf source < value ∧
        transferFrom caller source target value x =
          some (.error .insufficientBalance, x)) ∨
      (value ≤ x.token.allowance source caller ∧ value ≤ x.token.balanceOf source ∧ ∃ y,
        transferFrom caller source target value x = some (.ok (), y) ∧
          Performs ⟨caller, .transferFrom source target value⟩ x y) := by
  by_cases h : x.token.allowance source caller < value
  · exact Or.inl ⟨h, transferFrom_error h⟩
  · have hle : value ≤ x.token.allowance source caller := Nat.le_of_not_lt h
    right
    rw [transferFrom_eq hle]
    rcases transferFromTo_outcome hx source target value with herr | hok
    · left
      rw [herr.2]
      exact ⟨hle, herr.1, rfl⟩
    · right
      obtain ⟨hfunded, y, hy, hmoves⟩ := hok
      rw [hy]
      exact ⟨hle, hfunded, _, rfl, hmoves.performs_transferFrom hle⟩

/-- With balances that add up to the supply no call traps. -/
theorem dispatch_total (hx : Conserved x.token) (c : Call AccountId) :
    ∃ r y, dispatch c x = some (r, y) := by
  obtain ⟨caller, message⟩ := c
  cases message with
  | transfer target value =>
    rcases transferFromTo_outcome hx caller target value with herr | hok
    · exact ⟨_, _, herr.2⟩
    · obtain ⟨_, y, hy, _⟩ := hok
      exact ⟨_, y, hy⟩
  | approve spender value => exact ⟨_, _, rfl⟩
  | transferFrom source target value =>
    rcases transferFrom_outcome hx caller source target value with hallowance | hbalance | hok
    · exact ⟨_, _, hallowance.2⟩
    · exact ⟨_, _, hbalance.2.2⟩
    · obtain ⟨_, _, y, hy, _⟩ := hok
      exact ⟨_, y, hy⟩

end Outcomes

/-! ## Reachable states -/

/-- The supply is the initial one and the balances add up to it. -/
def Supplied (initialSupply : Balance) (x : Exec AccountId) : Prop :=
  Conserved x.token ∧ x.token.totalSupply = initialSupply

theorem Performs.supplied {c : Call AccountId} {x y : Exec AccountId} {initialSupply : Balance}
    (h : Performs c x y) (hx : Supplied initialSupply x) : Supplied initialSupply y :=
  ⟨h.conserved hx.1, h.totalSupply.trans hx.2⟩

theorem supplied_ledgerAfter (caller : AccountId) (initialSupply : Balance)
    (calls : List (Call AccountId)) :
    Supplied initialSupply (ledgerAfter caller initialSupply calls) :=
  commitAll_stable (I := Supplied initialSupply)
    (fun _ _ _ hx h => (attempt_performs h).supplied hx)
    ⟨conserved_new caller initialSupply, rfl⟩ calls

/-- Supply conservation: in every reachable state the balances add up to the
initial supply, and from there every call returns, with the sum unchanged. -/
theorem supply_conserved (caller : AccountId) (initialSupply : Balance)
    (calls : List (Call AccountId)) :
    Conserved (ledgerAfter caller initialSupply calls).token ∧
      (ledgerAfter caller initialSupply calls).token.totalSupply = initialSupply ∧
      ∀ c, ∃ r y, dispatch c (ledgerAfter caller initialSupply calls) = some (r, y) ∧
        Conserved y.token ∧ y.token.totalSupply = initialSupply := by
  have hx := supplied_ledgerAfter caller initialSupply calls
  refine ⟨hx.1, hx.2, fun c => ?_⟩
  obtain ⟨r, y, hy⟩ := dispatch_total hx.1 c
  refine ⟨r, y, hy, ?_⟩
  rcases dispatch_cases hy with herr | hok
  · rw [herr.2]
    exact hx
  · exact hok.2.supplied hx

end Chain

end Erc20
end Crain
