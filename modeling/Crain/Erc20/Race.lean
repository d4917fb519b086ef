/-
Changing an allowance.

`approve` overwrites the allowance, and the spender may withdraw the old one just before
that happens.  Over all ways to put other calls between the approvals of an owner, the
most a spender can withdraw is what it was allowed at the start and every approval in
full (`most_withdrawn`): an owner who changes an allowance may lose the old value and
the new one.
-/
import Mathlib.Order.Bounds.Defs
import Crain.Erc20.Allowance

namespace Crain
namespace Erc20

open Machine

variable {AccountId : Type} [DecidableEq AccountId]

/-! ## The bound -/

/-- A call leaves and withdraws no more than there was and what it approves. -/
theorem Performs.left_le {c : Call AccountId} {x y : Exec AccountId} (h : Performs c x y)
    (owner spender : AccountId) :
    (y.token.allowance owner spender).toNat + c.withdraws owner spender ≤
      (x.token.allowance owner spender).toNat + (c.approves owner spender).getD 0 := by
  have hallowance := h.allowances owner spender
  cases happroves : c.approves owner spender with
  | none =>
    rw [happroves, Option.getD_none] at hallowance
    exact Nat.le_of_eq hallowance
  | some v =>
    rw [happroves, Option.getD_some] at hallowance
    rw [hallowance, Option.getD_some]
    exact Nat.le_add_left v _

theorem withdrawn_le (x : Exec AccountId) (owner spender : AccountId)
    (more : List (Call AccountId)) :
    Budget.drawn (Call.withdraws · owner spender) (committed attempt x more) ≤
      (x.token.allowance owner spender).toNat +
        Budget.granted (Call.approves · owner spender) more := by
  have h : ((commitAll attempt x more).token.allowance owner spender).toNat +
      Budget.drawn (Call.withdraws · owner spender) (committed attempt x more) ≤
        (x.token.allowance owner spender).toNat +
          Budget.granted (Call.approves · owner spender) (committed attempt x more) := by
    refine commitAll_history (P := fun past (y : Exec AccountId) =>
      (y.token.allowance owner spender).toNat + Budget.drawn (Call.withdraws · owner spender) past ≤
        (x.token.allowance owner spender).toNat +
          Budget.granted (Call.approves · owner spender) past) ?_ (Nat.le_refl _) more
    intro past y c z hpast hyz
    have hstep := (attempt_performs hyz).left_le owner spender
    rw [Budget.drawn_concat, Budget.granted_concat]
    omega
  have happrovals : (committed attempt x more).filterMap (Call.approves · owner spender) =
      more.filterMap (Call.approves · owner spender) :=
    committed_filterMap (f := (Call.approves · owner spender))
      (fun y _ hy => isSome_attempt_of_approves y hy) x more
  rw [Budget.granted, happrovals, ← Budget.granted] at h
  omega

/-! ## The race -/

section Race

variable {x : Exec AccountId} {owner spender : AccountId}

/-- The spender withdraws all it is allowed. -/
def withdrawAll (x : Exec AccountId) (owner spender : AccountId) : Call AccountId :=
  ⟨spender, .transferFrom owner spender (x.token.allowance owner spender)⟩

theorem attempt_withdrawAll (hx : Conserved x.token)
    (hfunds : (x.token.allowance owner spender).toNat ≤ (x.token.balanceOf owner).toNat) :
    ∃ y, attempt x (withdrawAll x owner spender) = some y ∧ Conserved y.token ∧
      (x.token.balanceOf owner).toNat ≤
        (y.token.balanceOf owner).toNat + (x.token.allowance owner spender).toNat := by
  rcases transferFrom_outcome hx spender owner spender (x.token.allowance owner spender) with
    hless | hpoor | hok
  · exact absurd hless.1 (BitVec.lt_irrefl _)
  · exact absurd hpoor.2.1 (Nat.not_lt_of_le hfunds)
  · obtain ⟨_, _, y, hy, hperforms⟩ := hok
    refine ⟨y, attempt_eq_some_iff.mpr hy, hperforms.conserved hx, ?_⟩
    have hbalance := hperforms.balances owner
    rw [Call.event, postings_transfer, Posting.net_singleton, Posting.flow_apply, if_pos rfl]
      at hbalance
    simp only at hbalance
    split at hbalance <;> omega

theorem attempt_approve (hx : Conserved x.token) (value : Balance) :
    ∃ y, attempt x ⟨owner, .approve spender value⟩ = some y ∧ Conserved y.token ∧
      y.token.allowance owner spender = value ∧
      y.token.balanceOf owner = x.token.balanceOf owner := by
  refine ⟨_, rfl, performs_approve.conserved hx, ?_, rfl⟩
  rw [emit_token, allowance_insertAllowance, if_pos ⟨rfl, rfl⟩]

@[simp] theorem withdraws_withdrawAll :
    (withdrawAll x owner spender).withdraws owner spender =
      (x.token.allowance owner spender).toNat :=
  if_pos ⟨rfl, rfl⟩

theorem committed_of_some {c : Call AccountId} {y : Exec AccountId} (h : attempt x c = some y)
    (more : List (Call AccountId)) :
    committed attempt x (c :: more) = c :: committed attempt y more := by
  rw [committed, h]

end Race

/-- Induction on the approvals: the spender withdraws everything before each. -/
theorem exists_withdrawals (owner spender : AccountId) :
    ∀ (values : List Balance) (x : Exec AccountId), Conserved x.token →
      (x.token.allowance owner spender).toNat + (values.map BitVec.toNat).sum ≤
        (x.token.balanceOf owner).toNat →
      ∃ more : List (Call AccountId),
        more.filterMap (Call.approves · owner spender) = values.map BitVec.toNat ∧
        Budget.drawn (Call.withdraws · owner spender) (committed attempt x more) =
          (x.token.allowance owner spender).toNat + (values.map BitVec.toNat).sum
  | [], x, hx, hfunds => by
    obtain ⟨y, hy, _⟩ := attempt_withdrawAll hx (show _ ≤ _ from hfunds)
    refine ⟨[withdrawAll x owner spender], rfl, ?_⟩
    rw [committed_of_some hy]
    simp [committed, Budget.drawn]
  | value :: rest, x, hx, hfunds => by
    rw [List.map_cons, List.sum_cons] at hfunds ⊢
    have hallowed : (x.token.allowance owner spender).toNat ≤ (x.token.balanceOf owner).toNat := by
      omega
    obtain ⟨y, hy, hcy, hbalance⟩ := attempt_withdrawAll hx hallowed
    obtain ⟨z, hz, hcz, hallowance, hsame⟩ : ∃ z, attempt y ⟨owner, .approve spender value⟩ =
      some z ∧ _ := attempt_approve hcy value
    rw [← hsame] at hbalance
    obtain ⟨more, happrovals, hdrawn⟩ := exists_withdrawals owner spender rest z hcz (by
      rw [hallowance]
      omega)
    refine ⟨withdrawAll x owner spender :: ⟨owner, .approve spender value⟩ :: more, ?_, ?_⟩
    · have happroves : (Call.approves · owner spender)
          (⟨owner, .approve spender value⟩ : Call AccountId) = some value.toNat := if_pos ⟨rfl, rfl⟩
      rw [List.filterMap_cons_none rfl,
        List.filterMap_cons_some (f := (Call.approves · owner spender)) happroves, happrovals]
    · rw [committed_of_some hy, committed_of_some hz, Budget.drawn, List.map_cons, List.map_cons,
        List.sum_cons, List.sum_cons, withdraws_withdrawAll]
      rw [hallowance, Budget.drawn] at hdrawn
      rw [hdrawn]
      show _ + (0 + _) = _
      omega

/-- What a spender can withdraw while an owner makes given approvals is at most what it
was allowed and all of these, and this much it can when the owner has the funds. -/
theorem most_withdrawn (caller : AccountId) (initialSupply : Balance)
    (calls : List (Call AccountId)) (owner spender : AccountId) (values : List Balance)
    (hfunds : ((ledgerAfter caller initialSupply calls).token.allowance owner spender).toNat +
      (values.map BitVec.toNat).sum ≤
        ((ledgerAfter caller initialSupply calls).token.balanceOf owner).toNat) :
    IsGreatest {amount | ∃ more : List (Call AccountId),
        more.filterMap (Call.approves · owner spender) = values.map BitVec.toNat ∧
        Budget.drawn (Call.withdraws · owner spender)
          (committed attempt (ledgerAfter caller initialSupply calls) more) = amount}
      (((ledgerAfter caller initialSupply calls).token.allowance owner spender).toNat +
        (values.map BitVec.toNat).sum) := by
  constructor
  · exact exists_withdrawals owner spender values _
      (supplied_ledgerAfter caller initialSupply calls).1 hfunds
  · intro amount h
    obtain ⟨more, happrovals, hdrawn⟩ := h
    have hle := withdrawn_le (ledgerAfter caller initialSupply calls) owner spender more
    rw [Budget.granted, happrovals, hdrawn] at hle
    exact hle

/-- An allowance of 60 that is changed to 40 is worth 100 to the spender. -/
theorem most_withdrawn_change :
    let approved : List (Call Nat) := [⟨0, .approve 1 60⟩]
    IsGreatest {amount | ∃ more : List (Call Nat),
        more.filterMap (Call.approves · 0 1) = [40] ∧
        Budget.drawn (Call.withdraws · 0 1)
          (committed attempt (ledgerAfter 0 1000 approved) more) = amount} 100 :=
  most_withdrawn 0 1000 [⟨0, .approve 1 60⟩] 0 1 [40] (by decide)

end Erc20
end Crain
