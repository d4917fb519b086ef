/-
The token the ERC-20 contract stands for.

`Ideal` is a token on integers without bound.  It has the accounts' holdings, what they have
approved to each other, and the log, and its operations never overflow.  The contract on 128
bits answers every call as the ideal token does and stays equal to it, in every run from its
construction (`contract_refines_ideal`).  What makes this true is `Conserved`: the sum of all
balances is a word, so none of the additions leaves its width.
-/
import Crain.Erc20.Frame
import Crain.Machine.Service

namespace Crain
namespace Erc20

open Machine

/-! ## The ideal token -/

@[ext] structure Ideal (AccountId : Type) where
  supply : Nat
  holdings : AccountId → Nat
  approved : AccountId → AccountId → Nat
  log : List (Event AccountId)

variable {AccountId : Type} [DecidableEq AccountId]

namespace Ideal

def new (caller : AccountId) (supply : Balance) : Ideal AccountId where
  supply := supply.toNat
  holdings a := if a = caller then supply.toNat else 0
  approved _ _ := 0
  log := [.transfer none (some caller) supply]

/-- How a call is answered. -/
def response (token : Ideal AccountId) (c : Call AccountId) : Except Error Unit :=
  match c.message with
  | .transfer _ value =>
    if token.holdings c.caller < value.toNat then .error .insufficientBalance else .ok ()
  | .approve _ _ => .ok ()
  | .transferFrom source _ value =>
    if token.approved source c.caller < value.toNat then .error .insufficientAllowance
    else if token.holdings source < value.toNat then .error .insufficientBalance
    else .ok ()

/-- What a call that succeeds does. -/
def perform (token : Ideal AccountId) (c : Call AccountId) : Ideal AccountId :=
  match c.message with
  | .transfer target value =>
    { token with
      holdings := moved token.holdings c.caller target value.toNat
      log := token.log ++ [c.event] }
  | .approve spender value =>
    { token with
      approved := fun o s =>
        if o = c.caller ∧ s = spender then value.toNat else token.approved o s
      log := token.log ++ [c.event] }
  | .transferFrom source target value =>
    { token with
      holdings := moved token.holdings source target value.toNat
      approved := fun o s =>
        if o = source ∧ s = c.caller then token.approved o s - value.toNat
        else token.approved o s
      log := token.log ++ [c.event] }

def serve (token : Ideal AccountId) (c : Call AccountId) :
    Option (Except Error Unit) × Ideal AccountId :=
  match token.response c with
  | .ok () => (some (.ok ()), token.perform c)
  | .error e => (some (.error e), token)

end Ideal

/-- The ideal token answers every call. -/
theorem Ideal.none_notMem_answers (token : Ideal AccountId) (calls : List (Call AccountId)) :
    none ∉ answers Ideal.serve token calls := by
  induction calls generalizing token with
  | nil => exact List.not_mem_nil
  | cons c rest ih =>
    rw [answers, List.mem_cons, not_or]
    refine ⟨?_, ih _⟩
    unfold Ideal.serve
    cases token.response c <;> simp

/-! ## The contract as a service -/

/-- The answer to a call and the state after it.  A call that traps is not answered. -/
def serve (x : Exec AccountId) (c : Call AccountId) :
    Option (Except Error Unit) × Exec AccountId :=
  match dispatch c x with
  | some (r, y) => (some r, y)
  | none => (none, x)

/-- The token that a state of the contract stands for. -/
def ideal (x : Exec AccountId) : Ideal AccountId where
  supply := x.token.totalSupply.toNat
  holdings a := (x.token.balanceOf a).toNat
  approved o s := (x.token.allowance o s).toNat
  log := x.events

section Serve

variable {x y : Exec AccountId} {c : Call AccountId}

theorem serve_of_dispatch {r : Except Error Unit} (h : dispatch c x = some (r, y)) :
    serve x c = (some r, y) := by
  rw [serve, h]

theorem finalState_serve (x : Exec AccountId) (calls : List (Call AccountId)) :
    finalState serve x calls = commitAll attempt x calls := by
  have hstep : (fun (x : Exec AccountId) c => (serve x c).2) = commit attempt := by
    funext x c
    rw [commit_attempt, serve]
    cases dispatch c x <;> rfl
  rw [finalState, hstep, commitAll]

/-- With balances that add up to the supply a call is answered as the ideal token
answers it. -/
theorem serve_response (hx : Conserved x.token) (c : Call AccountId) :
    ((ideal x).response c = .ok () ∧ ∃ y, serve x c = (some (.ok ()), y) ∧ Performs c x y) ∨
      ∃ e, (ideal x).response c = .error e ∧ serve x c = (some (.error e), x) := by
  obtain ⟨caller, message⟩ := c
  cases message with
  | transfer target value =>
    rcases transferFromTo_outcome hx caller target value with ⟨hlt, hy⟩ | ⟨hle, y, hy, hmoves⟩
    · right
      exact ⟨_, if_pos hlt, serve_of_dispatch hy⟩
    · left
      exact ⟨if_neg (Nat.not_lt_of_le hle), y, serve_of_dispatch hy, hmoves.performs_transfer⟩
  | approve spender value => exact Or.inl ⟨rfl, _, serve_of_dispatch rfl, performs_approve⟩
  | transferFrom source target value =>
    rcases transferFrom_outcome hx caller source target value with
      ⟨hlt, hy⟩ | ⟨hle, hlt, hy⟩ | ⟨hle, hfunded, y, hy, hperforms⟩
    · right
      exact ⟨_, if_pos hlt, serve_of_dispatch hy⟩
    · right
      refine ⟨.insufficientBalance, ?_, serve_of_dispatch hy⟩
      exact (if_neg (Nat.not_lt_of_le hle)).trans (if_pos hlt)
    · left
      refine ⟨?_, y, serve_of_dispatch hy, hperforms⟩
      exact (if_neg (Nat.not_lt_of_le hle)).trans (if_neg (Nat.not_lt_of_le hfunded))

theorem Performs.ideal_approved (h : Performs c x y) :
    (ideal y).approved = ((ideal x).perform c).approved := by
  funext o s
  have hallowance := h.allowances o s
  obtain ⟨caller, message⟩ := c
  cases message with
  | transfer target value => exact hallowance
  | approve spender value =>
    show (y.token.allowance o s).toNat = if o = caller ∧ s = spender then value.toNat else _
    simp only [Call.withdraws, Call.approves, Nat.add_zero] at hallowance
    rw [hallowance]
    by_cases hos : o = caller ∧ s = spender
    · rw [if_pos hos, if_pos ⟨hos.1.symm, hos.2.symm⟩]
      rfl
    · rw [if_neg hos, if_neg fun heq => hos ⟨heq.1.symm, heq.2.symm⟩]
      rfl
  | transferFrom source target value =>
    show (y.token.allowance o s).toNat = if o = source ∧ s = caller then _ - value.toNat else _
    simp only [Call.withdraws, Call.approves, Option.getD_none] at hallowance
    by_cases hos : o = source ∧ s = caller
    · rw [if_pos ⟨hos.1.symm, hos.2.symm⟩] at hallowance
      rw [if_pos hos]
      exact Nat.eq_sub_of_add_eq hallowance
    · rw [if_neg fun heq => hos ⟨heq.1.symm, heq.2.symm⟩] at hallowance
      rw [if_neg hos]
      exact hallowance

/-- A call that succeeds does to the ideal token what it does to the contract. -/
theorem Performs.ideal_perform (h : Performs c x y) (hallowed : Allowed c x.token) :
    ideal y = (ideal x).perform c := by
  have happroved := h.ideal_approved
  have hsupply : (ideal y).supply = (ideal x).supply := congrArg BitVec.toNat h.totalSupply
  obtain ⟨caller, message⟩ := c
  cases message with
  | transfer target value =>
    have hmoved := h.transferred rfl hallowed
    exact Ideal.ext hsupply hmoved.balances happroved h.events
  | approve spender value =>
    refine Ideal.ext hsupply ?_ happroved h.events
    funext a
    have hsame := h.balances a
    simp only [Call.event, postings_approval, Posting.net_nil, Finsupp.coe_zero, Pi.zero_apply,
      add_zero, Nat.cast_inj] at hsame
    exact hsame
  | transferFrom source target value =>
    have hmoved := h.transferred rfl hallowed.2
    exact Ideal.ext hsupply hmoved.balances happroved h.events

theorem ideal_new (caller : AccountId) (initialSupply : Balance) :
    ideal (new caller initialSupply) = Ideal.new caller initialSupply := by
  refine Ideal.ext rfl ?_ ?_ rfl
  · funext a
    by_cases ha : a = caller <;>
      simp [ideal, Ideal.new, new, newInit, Exec.insertBalance, balanceOf, ha]
  · funext o s
    rfl

/-- One call of the contract is one call of the ideal token. -/
theorem serve_ideal (hx : Conserved x.token) (c : Call AccountId) :
    (serve x c).1 = ((ideal x).serve c).1 ∧ Conserved (serve x c).2.token ∧
      ideal (serve x c).2 = ((ideal x).serve c).2 := by
  rcases serve_response hx c with ⟨hresponse, y, hy, hperforms⟩ | ⟨e, hresponse, hy⟩
  · rw [hy, Ideal.serve, hresponse]
    exact ⟨rfl, hperforms.conserved hx, hperforms.ideal_perform hperforms.allowed⟩
  · rw [hy, Ideal.serve, hresponse]
    exact ⟨rfl, hx, rfl⟩

end Serve

/-- From its construction on the contract answers every call, as the ideal token does, and
its balances, allowances and log are those of the ideal token. -/
theorem contract_refines_ideal (caller : AccountId) (initialSupply : Balance)
    (calls : List (Call AccountId)) :
    answers serve (new caller initialSupply) calls =
        answers Ideal.serve (Ideal.new caller initialSupply) calls ∧
      ideal (ledgerAfter caller initialSupply calls) =
        finalState Ideal.serve (Ideal.new caller initialSupply) calls ∧
      none ∉ answers serve (new caller initialSupply) calls := by
  have hstep : ∀ (x : Exec AccountId) (s : Ideal AccountId) c,
      Conserved x.token ∧ ideal x = s → (serve x c).1 = (s.serve c).1 ∧
        (Conserved (serve x c).2.token ∧ ideal (serve x c).2 = (s.serve c).2) := by
    intro x s c h
    rw [← h.2]
    exact serve_ideal h.1 c
  have hrun := answers_simulate (R := fun x s => Conserved x.token ∧ ideal x = s) hstep
    ⟨conserved_new caller initialSupply, ideal_new caller initialSupply⟩ calls
  rw [finalState_serve] at hrun
  refine ⟨hrun.1, hrun.2.2, ?_⟩
  rw [hrun.1]
  exact Ideal.none_notMem_answers _ calls

end Erc20
end Crain
