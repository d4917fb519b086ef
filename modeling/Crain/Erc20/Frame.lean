/-
What a message touches.

Every message returns, and which way it returns is decided by the allowance first and
the balance second (`transferFrom_outcome`).  An error leaves the storage and the log
as they were.  A success subtracts the value at the source, adds it at the target,
lowers the one allowance it draws on, and changes nothing else.
-/
import Crain.Erc20.Ledger

namespace Crain
namespace Erc20

open Machine

variable {AccountId : Type} [DecidableEq AccountId]

/-- Holdings after a value is taken at the source and then put at the target. -/
def moved (holdings : AccountId → Nat) (source target : AccountId) (value : Nat) :
    AccountId → Nat :=
  let rest := Function.update holdings source (holdings source - value)
  Function.update rest target (rest target + value)

theorem moved_self (holdings : AccountId → Nat) {account : AccountId} {value : Nat}
    (h : value ≤ holdings account) : moved holdings account account value = holdings := by
  simp [moved, Nat.sub_add_cancel h]

/-- The effect of a message that moved a value, on everything but the allowances. -/
structure Transferred (source target : AccountId) (value : Balance) (x y : Exec AccountId) :
    Prop where
  totalSupply : y.token.totalSupply = x.token.totalSupply
  balances : (fun a => (y.token.balanceOf a).toNat) =
    moved (fun a => (x.token.balanceOf a).toNat) source target value.toNat
  events : y.events = x.events ++ [.transfer (some source) (some target) value]

section Effect

variable {x y : Exec AccountId} {c : Call AccountId} {source target : AccountId} {value : Balance}

theorem Performs.transferred (h : Performs c x y)
    (hevent : c.event = .transfer (some source) (some target) value)
    (hfunded : value ≤ x.token.balanceOf source) : Transferred source target value x y where
  totalSupply := h.totalSupply
  balances := by
    have hle : value.toNat ≤ (x.token.balanceOf source).toNat := hfunded
    funext a
    have hflow := h.balances a
    rw [hevent, postings_transfer, Posting.net_singleton, Posting.flow_apply] at hflow
    simp only [Option.some.injEq] at hflow
    show (y.token.balanceOf a).toNat = _
    by_cases hat : a = target
    · by_cases has : a = source
      · rw [if_pos hat.symm, if_pos has.symm] at hflow
        rw [← hat, ← has, moved_self]
        · omega
        · rw [has]
          exact hle
      · rw [if_pos hat.symm, if_neg (Ne.symm has)] at hflow
        simp only [moved, ← hat, Function.update_self, Function.update_of_ne has]
        omega
    · by_cases has : a = source
      · rw [if_neg (Ne.symm hat), if_pos has.symm] at hflow
        simp only [moved, Function.update_of_ne hat, ← has, Function.update_self]
        rw [← has] at hle
        omega
      · rw [if_neg (Ne.symm hat), if_neg (Ne.symm has)] at hflow
        simp only [moved, Function.update_of_ne hat, Function.update_of_ne has]
        omega
  events := by
    rw [h.events, hevent]

theorem Transferred.balanceOf_eq (h : Transferred source target value x y)
    (hfunded : value ≤ x.token.balanceOf source) (hsame : source = target) (a : AccountId) :
    y.token.balanceOf a = x.token.balanceOf a := by
  have hbalances := h.balances
  rw [← hsame, moved_self] at hbalances
  · exact BitVec.eq_of_toNat_eq (congrFun hbalances a)
  · exact hfunded

/-! ## Allowances -/

theorem Performs.allowance_transfer {caller : AccountId}
    (h : Performs ⟨caller, .transfer target value⟩ x y) (owner spender : AccountId) :
    y.token.allowance owner spender = x.token.allowance owner spender := by
  apply BitVec.eq_of_toNat_eq
  exact h.allowances owner spender

theorem Performs.allowance_drawn {caller : AccountId}
    (h : Performs ⟨caller, .transferFrom source target value⟩ x y) :
    (y.token.allowance source caller).toNat + value.toNat =
      (x.token.allowance source caller).toNat := by
  have hdraw := h.allowances source caller
  simp only [Call.withdraws, Call.approves, and_self, if_true, Option.getD_none] at hdraw
  exact hdraw

theorem Performs.allowance_of_ne {caller : AccountId}
    (h : Performs ⟨caller, .transferFrom source target value⟩ x y) {owner spender : AccountId}
    (hne : (owner, spender) ≠ (source, caller)) :
    y.token.allowance owner spender = x.token.allowance owner spender := by
  have hother : ¬ (source = owner ∧ caller = spender) := by
    intro heq
    rw [heq.1, heq.2] at hne
    exact hne rfl
  have hdraw := h.allowances owner spender
  simp only [Call.withdraws, Call.approves, hother, if_false, Option.getD_none,
    Nat.add_zero] at hdraw
  exact BitVec.eq_of_toNat_eq hdraw

end Effect

/-- What the messages of a caller do in a state. -/
structure Atomic (x : Exec AccountId) (caller : AccountId) : Prop where
  transfer_fails_iff : ∀ target value,
    (∃ y, transfer caller target value x = some (.error .insufficientBalance, y)) ↔
      x.token.balanceOf caller < value
  transfer_succeeds : ∀ target value, value ≤ x.token.balanceOf caller →
    ∃ y, transfer caller target value x = some (.ok (), y) ∧
      Transferred caller target value x y ∧
      (caller = target → ∀ a, y.token.balanceOf a = x.token.balanceOf a) ∧
      ∀ owner spender, y.token.allowance owner spender = x.token.allowance owner spender
  transferFrom_allowance_fails_iff : ∀ source target value,
    (∃ y, transferFrom caller source target value x =
        some (.error .insufficientAllowance, y)) ↔
      x.token.allowance source caller < value
  transferFrom_balance_fails_iff : ∀ source target value,
    (∃ y, transferFrom caller source target value x = some (.error .insufficientBalance, y)) ↔
      value ≤ x.token.allowance source caller ∧ x.token.balanceOf source < value
  transferFrom_succeeds : ∀ source target value, value ≤ x.token.allowance source caller →
    value ≤ x.token.balanceOf source →
    ∃ y, transferFrom caller source target value x = some (.ok (), y) ∧
      Transferred source target value x y ∧
      (source = target → ∀ a, y.token.balanceOf a = x.token.balanceOf a) ∧
      (y.token.allowance source caller).toNat + value.toNat =
        (x.token.allowance source caller).toNat ∧
      ∀ owner spender, (owner, spender) ≠ (source, caller) →
        y.token.allowance owner spender = x.token.allowance owner spender
  failed_unchanged : ∀ message e y, dispatch ⟨caller, message⟩ x = some (.error e, y) → y = x

section Atomic

variable {x : Exec AccountId} {caller : AccountId}

theorem transfer_fails_iff (hx : Conserved x.token) (target : AccountId) (value : Balance) :
    (∃ y, transfer caller target value x = some (.error .insufficientBalance, y)) ↔
      x.token.balanceOf caller < value := by
  rw [transfer]
  rcases transferFromTo_outcome hx caller target value with herr | hok
  · exact iff_of_true ⟨x, herr.2⟩ herr.1
  · obtain ⟨hfunded, y, hy, _⟩ := hok
    rw [hy]
    exact iff_of_false (by simp) fun hlt => Nat.not_lt_of_le hfunded hlt

theorem transferFrom_fails_iff (hx : Conserved x.token) (source target : AccountId)
    (value : Balance) :
    ((∃ y, transferFrom caller source target value x =
        some (.error .insufficientAllowance, y)) ↔ x.token.allowance source caller < value) ∧
      ((∃ y, transferFrom caller source target value x =
        some (.error .insufficientBalance, y)) ↔
        value ≤ x.token.allowance source caller ∧ x.token.balanceOf source < value) := by
  rcases transferFrom_outcome hx caller source target value with hallowance | hbalance | hok
  · rw [hallowance.2]
    have hnot : ¬ value ≤ x.token.allowance source caller := fun hle =>
      Nat.not_le_of_lt hallowance.1 hle
    exact ⟨iff_of_true ⟨x, rfl⟩ hallowance.1, iff_of_false (by simp) fun h => hnot h.1⟩
  · obtain ⟨hallowed, hlt, hy⟩ := hbalance
    rw [hy]
    exact ⟨iff_of_false (by simp) fun h => Nat.not_lt_of_le hallowed h,
      iff_of_true ⟨x, rfl⟩ ⟨hallowed, hlt⟩⟩
  · obtain ⟨hallowed, hfunded, y, hy, _⟩ := hok
    rw [hy]
    exact ⟨iff_of_false (by simp) fun h => Nat.not_lt_of_le hallowed h,
      iff_of_false (by simp) fun h => Nat.not_lt_of_le hfunded h.2⟩

theorem transfer_succeeds (hx : Conserved x.token) {target : AccountId} {value : Balance}
    (hfunded : value ≤ x.token.balanceOf caller) :
    ∃ y, transfer caller target value x = some (.ok (), y) ∧
      Performs ⟨caller, .transfer target value⟩ x y := by
  rcases transferFromTo_outcome hx caller target value with herr | hok
  · exact absurd herr.1 fun hlt => Nat.not_lt_of_le hfunded hlt
  · obtain ⟨_, y, hy, hmoves⟩ := hok
    exact ⟨y, hy, hmoves.performs_transfer⟩

theorem transferFrom_succeeds (hx : Conserved x.token) {source target : AccountId}
    {value : Balance} (hallowed : value ≤ x.token.allowance source caller)
    (hfunded : value ≤ x.token.balanceOf source) :
    ∃ y, transferFrom caller source target value x = some (.ok (), y) ∧
      Performs ⟨caller, .transferFrom source target value⟩ x y := by
  rcases transferFrom_outcome hx caller source target value with hallowance | hbalance | hok
  · exact absurd hallowance.1 fun hlt => Nat.not_lt_of_le hallowed hlt
  · exact absurd hbalance.2.1 fun hlt => Nat.not_lt_of_le hfunded hlt
  · exact hok.2.2

end Atomic

/-- Messages are atomic, fail exactly when they should, and touch only what they
name. -/
theorem messages_atomic (x : Exec AccountId) (hx : Conserved x.token) (caller : AccountId) :
    Atomic x caller where
  transfer_fails_iff := transfer_fails_iff hx
  transfer_succeeds target value hfunded := by
    obtain ⟨y, hy, h⟩ := transfer_succeeds hx hfunded
    have htransferred := h.transferred rfl hfunded
    exact ⟨y, hy, htransferred, htransferred.balanceOf_eq hfunded, h.allowance_transfer⟩
  transferFrom_allowance_fails_iff source target value :=
    (transferFrom_fails_iff hx source target value).1
  transferFrom_balance_fails_iff source target value :=
    (transferFrom_fails_iff hx source target value).2
  transferFrom_succeeds source target value hallowed hfunded := by
    obtain ⟨y, hy, h⟩ := transferFrom_succeeds hx hallowed hfunded
    have htransferred := h.transferred rfl hfunded
    exact ⟨y, hy, htransferred, htransferred.balanceOf_eq hfunded, h.allowance_drawn,
      fun owner spender hne => h.allowance_of_ne hne⟩
  failed_unchanged message e y h := dispatch_error h

/-- An account that another one with 100 has approved for 40 can move 30. -/
theorem messages_atomic_approved :
    let x : Exec Nat := ledgerAfter 0 100 [⟨0, .approve 1 40⟩]
    Atomic x 1 ∧ ∃ y, transferFrom 1 0 2 30 x = some (.ok (), y) ∧ Transferred 0 2 30 x y := by
  intro x
  have hatomic : Atomic x 1 :=
    messages_atomic x (supplied_ledgerAfter 0 100 [⟨0, .approve 1 40⟩]).1 1
  obtain ⟨y, hy, htransferred, _⟩ := hatomic.transferFrom_succeeds 0 2 30 (by decide) (by decide)
  exact ⟨hatomic, y, hy, htransferred⟩

end Erc20
end Crain
