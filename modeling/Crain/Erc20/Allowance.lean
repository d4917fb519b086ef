/-
Allowances and who may spend.

The stored allowance is a budget in the sense of `Machine.Budget`: an approval by
the owner sets it, a withdrawal by the spender that succeeds draws on it, and no
other call touches it.  Approvals always succeed, so the ones among the calls that
took effect are all there were.
-/
import Crain.Machine.Budget
import Crain.Erc20.Ledger

namespace Crain
namespace Erc20

open Machine

variable {AccountId : Type} [DecidableEq AccountId]

section Calls

variable {c : Call AccountId} {owner spender : AccountId}

theorem withdraws_of_approves {v : Nat} (h : c.approves owner spender = some v) :
    c.withdraws owner spender = 0 := by
  obtain ⟨caller, message⟩ := c
  cases message with
  | transfer target value => rfl
  | approve spender' value => rfl
  | transferFrom source target value => cases h

/-- An approval never fails. -/
theorem isSome_attempt_of_approves (x : Exec AccountId)
    (h : (c.approves owner spender).isSome) : (attempt x c).isSome := by
  obtain ⟨caller, message⟩ := c
  cases message with
  | transfer target value => cases h
  | approve spender' value => rfl
  | transferFrom source target value => cases h

/-- A call that lowers a balance is a transfer by its holder, or a withdrawal from
the holder within the allowance of the caller. -/
theorem Performs.debits {x y : Exec AccountId} (h : Performs c x y) {a : AccountId}
    (hlt : y.token.balanceOf a < x.token.balanceOf a) :
    (c.caller = a ∧ ∃ target value, c.message = .transfer target value) ∨
      ∃ target value, c.message = .transferFrom a target value ∧
        value ≤ x.token.allowance a c.caller := by
  have hlt : (y.token.balanceOf a).toNat < (x.token.balanceOf a).toNat := hlt
  have hallowed := h.allowed
  have hnet : Posting.net (postings [c.event]) a < 0 := by
    have hbalance := h.balances a
    omega
  obtain ⟨caller, message⟩ := c
  cases message with
  | transfer target value =>
    left
    rw [Call.event, postings_transfer, Posting.net_singleton] at hnet
    exact ⟨Option.some.inj (Posting.source_of_flow_neg hnet), target, value, rfl⟩
  | approve spender value =>
    rw [Call.event, postings_approval, Posting.net_nil] at hnet
    exact absurd hnet (lt_irrefl 0)
  | transferFrom source target value =>
    right
    rw [Call.event, postings_transfer, Posting.net_singleton] at hnet
    have hsource := Option.some.inj (Posting.source_of_flow_neg hnet)
    subst hsource
    exact ⟨target, value, rfl, hallowed.1⟩

end Calls

/-- The allowance of every owner and spender tracks the budget between them. -/
theorem allowance_remains (caller : AccountId) (initialSupply : Balance)
    (calls : List (Call AccountId)) (owner spender : AccountId) :
    Budget.Remains (Call.approves · owner spender) (Call.withdraws · owner spender)
      (committed attempt (new caller initialSupply) calls)
      ((ledgerAfter caller initialSupply calls).token.allowance owner spender).toNat := by
  refine commitAll_history (P := fun history (x : Exec AccountId) =>
    Budget.Remains (Call.approves · owner spender) (Call.withdraws · owner spender) history
      (x.token.allowance owner spender).toNat) ?_ (Budget.Remains.nil _ _) calls
  intro past x c y hpast hxy
  exact hpast.concat (fun v hv => withdraws_of_approves hv)
    ((attempt_performs hxy).allowances owner spender)

theorem committed_approvals (caller : AccountId) (initialSupply : Balance)
    (calls : List (Call AccountId)) (owner spender : AccountId) :
    (committed attempt (new caller initialSupply) calls).filterMap (Call.approves · owner spender) =
      calls.filterMap (Call.approves · owner spender) :=
  committed_filterMap (f := (Call.approves · owner spender))
    (fun x _ h => isSome_attempt_of_approves x h) _ _

/-- Spending is authorised and within budget: the allowance is the last approval
less what was withdrawn since, everything withdrawn is within everything approved,
and no balance falls without its holder or an allowance. -/
theorem spending_authorised (caller : AccountId) (initialSupply : Balance)
    (calls : List (Call AccountId)) :
    (∀ owner spender,
      Budget.drawn (Call.withdraws · owner spender)
          (Budget.sinceSet (Call.approves · owner spender)
            (committed attempt (new caller initialSupply) calls)) ≤
        Budget.lastSet (Call.approves · owner spender) calls ∧
      ((ledgerAfter caller initialSupply calls).token.allowance owner spender).toNat =
        Budget.lastSet (Call.approves · owner spender) calls -
          Budget.drawn (Call.withdraws · owner spender)
            (Budget.sinceSet (Call.approves · owner spender)
              (committed attempt (new caller initialSupply) calls)) ∧
      Budget.drawn (Call.withdraws · owner spender)
          (committed attempt (new caller initialSupply) calls) ≤
        Budget.granted (Call.approves · owner spender) calls) ∧
    ∀ c r y, dispatch c (ledgerAfter caller initialSupply calls) = some (r, y) → ∀ a,
      y.token.balanceOf a < (ledgerAfter caller initialSupply calls).token.balanceOf a →
        (c.caller = a ∧ ∃ target value, c.message = .transfer target value) ∨
          ∃ target value, c.message = .transferFrom a target value ∧
            value ≤ (ledgerAfter caller initialSupply calls).token.allowance a c.caller := by
  refine ⟨fun owner spender => ?_, fun c r y h a hlt => ?_⟩
  · obtain ⟨hsince, hdrawn⟩ := allowance_remains caller initialSupply calls owner spender
    have happrovals := committed_approvals caller initialSupply calls owner spender
    rw [Budget.lastSet, happrovals, ← Budget.lastSet] at hsince
    rw [Budget.granted, happrovals, ← Budget.granted] at hdrawn
    exact ⟨by omega, by omega, by omega⟩
  · rcases dispatch_cases h with herr | hok
    · rw [herr.2] at hlt
      exact absurd hlt (BitVec.lt_irrefl _)
    · exact hok.2.debits hlt

end Erc20
end Crain
