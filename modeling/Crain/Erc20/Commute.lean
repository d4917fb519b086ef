/-
The order of transfers.

A transfer that succeeds adds its posting to the balances and its withdrawal to
what has been drawn, whatever came before it.  A run of transfers that all succeed
therefore ends at the sums over the run (`run_settles`), and sums do not depend on
the order.  The states in between do, and so does whether a transfer is funded:
that every call succeeds is assumed of each order separately.
-/
import Crain.Machine.Budget
import Crain.Erc20.Ledger

namespace Crain
namespace Erc20

open Machine

variable {AccountId : Type} [DecidableEq AccountId]

/-- The call is a transfer, by the holder or by a spender. -/
def Call.Spends (c : Call AccountId) : Prop :=
  match c.message with
  | .transfer _ _ => True
  | .approve _ _ => False
  | .transferFrom _ _ _ => True

theorem Call.Spends.approves {c : Call AccountId} (h : c.Spends) (owner spender : AccountId) :
    c.approves owner spender = none := by
  obtain ⟨caller, message⟩ := c
  cases message with
  | transfer target value => rfl
  | approve spender' value => exact absurd h (fun hf => hf)
  | transferFrom source target value => rfl

/-- Where a run of transfers ends. -/
structure Settles (calls : List (Call AccountId)) (x y : Exec AccountId) : Prop where
  totalSupply : y.token.totalSupply = x.token.totalSupply
  balances : ∀ a, ((y.token.balanceOf a).toNat : ℤ) =
    (x.token.balanceOf a).toNat + Posting.net (postings (calls.map Call.event)) a
  allowances : ∀ owner spender, (y.token.allowance owner spender).toNat +
    Budget.drawn (Call.withdraws · owner spender) calls = (x.token.allowance owner spender).toNat

theorem Settles.nil (x : Exec AccountId) : Settles [] x x where
  totalSupply := rfl
  balances a := by simp [postings]
  allowances owner spender := by simp [Budget.drawn]

theorem Settles.concat {calls : List (Call AccountId)} {c : Call AccountId}
    {x y z : Exec AccountId} (h : Settles calls x y) (hc : c.Spends) (hyz : Performs c y z) :
    Settles (calls ++ [c]) x z where
  totalSupply := hyz.totalSupply.trans h.totalSupply
  balances a := by
    rw [hyz.balances, h.balances, List.map_append, postings_append, Posting.net_append,
      Finsupp.add_apply, add_assoc, List.map_singleton]
  allowances owner spender := by
    have hdraw := hyz.allowances owner spender
    have hrest := h.allowances owner spender
    rw [hc.approves, Option.getD_none] at hdraw
    rw [Budget.drawn_concat]
    omega

theorem run_settles {calls : List (Call AccountId)} (hspends : ∀ c ∈ calls, c.Spends)
    {x y : Exec AccountId} (h : run attempt x calls = some y) : Settles calls x y := by
  refine run_history (P := fun past z => (∀ c ∈ past, c.Spends) → Settles past x z) ?_
    (fun _ => Settles.nil x) h hspends
  intro past a c b ha hab hpast
  have hc : c.Spends := hpast c (List.mem_append_right past (List.mem_singleton_self c))
  exact (ha fun d hd => hpast d (List.mem_append_left [c] hd)).concat hc (attempt_performs hab)

theorem Settles.perm {calls calls' : List (Call AccountId)} (hperm : calls.Perm calls')
    {x y : Exec AccountId} (h : Settles calls x y) : Settles calls' x y where
  totalSupply := h.totalSupply
  balances a := by
    have hpostings : (postings (calls.map Call.event)).Perm (postings (calls'.map Call.event)) :=
      (hperm.map Call.event).filterMap Event.posting
    rw [h.balances, Posting.net_perm hpostings]
  allowances owner spender := by
    rw [← h.allowances owner spender, Budget.drawn, Budget.drawn,
      (hperm.map (Call.withdraws · owner spender)).sum_eq]

/-- Two orders of the same transfers, in each of which every call succeeds, end
with the same balances, allowances and supply. -/
theorem transfers_commute (x y z : Exec AccountId) (calls calls' : List (Call AccountId))
    (hspends : ∀ c ∈ calls, c.Spends) (hperm : calls.Perm calls')
    (h : run attempt x calls = some y) (h' : run attempt x calls' = some z) :
    (∀ a, y.token.balanceOf a = z.token.balanceOf a) ∧
      (∀ owner spender, y.token.allowance owner spender = z.token.allowance owner spender) ∧
      y.token.totalSupply = z.token.totalSupply := by
  have hy := (run_settles hspends h).perm hperm
  have hz := run_settles (fun c hc => hspends c (hperm.mem_iff.mpr hc)) h'
  refine ⟨fun a => ?_, fun owner spender => ?_, hy.totalSupply.trans hz.totalSupply.symm⟩
  · have hya := hy.balances a
    have hza := hz.balances a
    apply BitVec.eq_of_toNat_eq
    omega
  · have hya := hy.allowances owner spender
    have hza := hz.allowances owner spender
    apply BitVec.eq_of_toNat_eq
    omega

/-- Account 0 pays accounts 1 and 2, and account 1 passes on what it may withdraw. -/
def payments : List (Call Nat) :=
  [⟨0, .transfer 1 10⟩, ⟨0, .transfer 2 20⟩, ⟨1, .transferFrom 0 2 5⟩]

/-- The state after account 0 created 100 tokens and approved 7 of them to
account 1. -/
def approved : Exec Nat := ledgerAfter 0 100 [⟨0, .approve 1 7⟩]

theorem transfers_commute_payments : ∃ y z, run attempt approved payments = some y ∧
    run attempt approved payments.reverse = some z ∧
      (∀ a, y.token.balanceOf a = z.token.balanceOf a) ∧
      (∀ owner spender, y.token.allowance owner spender = z.token.allowance owner spender) ∧
      y.token.totalSupply = z.token.totalSupply := by
  have hy : (run attempt approved payments).isSome := by decide
  have hz : (run attempt approved payments.reverse).isSome := by decide
  obtain ⟨y, hy⟩ := Option.isSome_iff_exists.mp hy
  obtain ⟨z, hz⟩ := Option.isSome_iff_exists.mp hz
  have hspends : ∀ c ∈ payments, c.Spends := by simp [payments, Call.Spends]
  exact ⟨y, z, hy, hz, transfers_commute approved y z payments payments.reverse hspends
    (List.reverse_perm payments).symm hy hz⟩

end Erc20
end Crain
