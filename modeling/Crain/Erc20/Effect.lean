/-
What a call of the ERC-20 contract does.

A call that succeeds appends one event to the log and adds to every balance what
that event posts to the account, as integers; the allowance it approves replaces
the old one, and the one it withdraws from falls by the value (`Performs`).  A
call that returns an error has done nothing (`dispatch_error`).
-/
import Crain.Machine.Posting
import Crain.Erc20.Contract

namespace Crain
namespace Erc20

open Machine Machine.Word

variable {AccountId : Type}

/-! ## Events as postings -/

def Event.posting : Event AccountId → Option (Posting AccountId)
  | .transfer source target value => some ⟨source, target, value.toNat⟩
  | .approval _ _ _ => none

/-- The postings a log stands for. -/
def postings (events : List (Event AccountId)) : List (Posting AccountId) :=
  events.filterMap Event.posting

@[simp] theorem postings_append (first second : List (Event AccountId)) :
    postings (first ++ second) = postings first ++ postings second :=
  List.filterMap_append

@[simp] theorem postings_transfer (source target : Option AccountId) (value : Balance) :
    postings [.transfer source target value] = [⟨source, target, value.toNat⟩] := rfl

@[simp] theorem postings_approval (owner spender : AccountId) (value : Balance) :
    postings [.approval owner spender value] = [] := rfl

@[simp] theorem emit_token (x : Exec AccountId) (e : Event AccountId) :
    (x.emit e).token = x.token := rfl

/-- The event a call logs when it succeeds. -/
def Call.event (c : Call AccountId) : Event AccountId :=
  match c.message with
  | .transfer target value => .transfer (some c.caller) (some target) value
  | .approve spender value => .approval c.caller spender value
  | .transferFrom source target value => .transfer (some source) (some target) value

/-- What `transferFromTo` does when it succeeds. -/
structure Moves (source target : AccountId) (value : Balance) (x y : Exec AccountId) :
    Prop where
  funded : value ≤ x.token.balanceOf source
  totalSupply : y.token.totalSupply = x.token.totalSupply
  balances : ∀ a, ((y.token.balanceOf a).toNat : ℤ) = (x.token.balanceOf a).toNat +
    (⟨some source, some target, value.toNat⟩ : Posting AccountId).flow a
  allowances : y.token.allowances = x.token.allowances
  events : y.events = x.events ++ [.transfer (some source) (some target) value]

theorem Moves.allowance_eq {source target : AccountId} {value : Balance} {x y : Exec AccountId}
    (h : Moves source target value x y) (owner spender : AccountId) :
    y.token.allowance owner spender = x.token.allowance owner spender := by
  rw [allowance, h.allowances]
  rfl

section Effects

variable [DecidableEq AccountId]

/-- The allowance from `owner` to `spender` that a call sets, if it sets one. -/
def Call.approves (c : Call AccountId) (owner spender : AccountId) : Option Nat :=
  match c.message with
  | .approve spender' value =>
    if c.caller = owner ∧ spender' = spender then some value.toNat else none
  | _ => none

/-- The value a call withdraws from the allowance from `owner` to `spender`. -/
def Call.withdraws (c : Call AccountId) (owner spender : AccountId) : Nat :=
  match c.message with
  | .transferFrom source _ value =>
    if source = owner ∧ c.caller = spender then value.toNat else 0
  | _ => 0

/-- The checks of a call. -/
def Allowed (c : Call AccountId) (token : Erc20 AccountId) : Prop :=
  match c.message with
  | .transfer _ value => value ≤ token.balanceOf c.caller
  | .approve _ _ => True
  | .transferFrom source _ value =>
    value ≤ token.allowance source c.caller ∧ value ≤ token.balanceOf source

/-- What a successful call does. -/
structure Performs (c : Call AccountId) (x y : Exec AccountId) : Prop where
  allowed : Allowed c x.token
  totalSupply : y.token.totalSupply = x.token.totalSupply
  balances : ∀ a, ((y.token.balanceOf a).toNat : ℤ) =
    (x.token.balanceOf a).toNat + Posting.net (postings [c.event]) a
  allowances : ∀ owner spender, (y.token.allowance owner spender).toNat +
    c.withdraws owner spender =
      (c.approves owner spender).getD (x.token.allowance owner spender).toNat
  events : y.events = x.events ++ [c.event]

/-! ## The writes -/

section Writes

variable {x : Exec AccountId} {owner spender a : AccountId} {value : Balance}

theorem balanceOf_insertBalance :
    (x.insertBalance owner value).token.balanceOf a =
      if a = owner then value else x.token.balanceOf a := by
  by_cases h : a = owner
  · simp [balanceOf, Exec.insertBalance, h]
  · simp [balanceOf, Exec.insertBalance, h]

@[simp] theorem balanceOf_insertAllowance :
    (x.insertAllowance owner spender value).token.balanceOf a = x.token.balanceOf a := rfl

theorem allowance_insertAllowance {o s : AccountId} :
    (x.insertAllowance owner spender value).token.allowance o s =
      if o = owner ∧ s = spender then value else x.token.allowance o s := by
  by_cases h : o = owner ∧ s = spender
  · simp [allowance, Exec.insertAllowance, h]
  · have hne : (o, s) ≠ (owner, spender) := fun heq => h (Prod.mk.inj heq)
    rw [if_neg h, allowance, Exec.insertAllowance]
    simp [hne, allowance]

end Writes

/-! ## Moving a value -/

section Moving

variable {x y : Exec AccountId} {source target : AccountId} {value : Balance}

theorem transferFromTo_error (h : x.token.balanceOf source < value) :
    transferFromTo source target value x = some (.error .insufficientBalance, x) :=
  if_pos h

/-- The storage after the source is debited. -/
def debited (source : AccountId) (value : Balance) (x : Exec AccountId) : Exec AccountId :=
  x.insertBalance source (x.token.balanceOf source - value)

/-- A funded move is the debit, one addition that may trap, and the credit. -/
theorem transferFromTo_eq (h : value ≤ x.token.balanceOf source) :
    transferFromTo source target value x =
      (add? ((debited source value x).token.balanceOf target) value).map fun sum =>
        (.ok (), ((debited source value x).insertBalance target sum).emit
          (.transfer (some source) (some target) value)) := by
  have hlt : ¬ x.token.balanceOf source < value := fun hlt => Nat.not_lt_of_le h hlt
  simp only [transferFromTo, if_neg hlt, sub?, Option.bind_eq_bind, Option.bind_some,
    Option.pure_def]
  exact Option.map_eq_bind.symm

theorem toNat_debited (h : value ≤ x.token.balanceOf source) (a : AccountId) :
    ((debited source value x).token.balanceOf a).toNat =
      (x.token.balanceOf a).toNat - if a = source then value.toNat else 0 := by
  have hlt : ¬ x.token.balanceOf source < value := fun hlt => Nat.not_lt_of_le h hlt
  rw [debited, balanceOf_insertBalance]
  by_cases ha : a = source
  · rw [if_pos ha, if_pos ha, toNat_sub_of_not_lt hlt, ha]
  · rw [if_neg ha, if_neg ha, Nat.sub_zero]

theorem moves_of_sum (h : value ≤ x.token.balanceOf source) {sum : Balance}
    (hsum : sum.toNat = ((debited source value x).token.balanceOf target).toNat + value.toNat) :
    Moves source target value x (((debited source value x).insertBalance target sum).emit
      (.transfer (some source) (some target) value)) where
  funded := h
  totalSupply := rfl
  balances a := by
    have hle : value.toNat ≤ (x.token.balanceOf source).toNat := h
    rw [emit_token, balanceOf_insertBalance, Posting.flow_apply]
    by_cases hat : a = target
    · rw [if_pos hat, hsum, ← hat, toNat_debited h]
      by_cases has : a = source
      · subst has
        simp
        omega
      · simp [has, Ne.symm has]
    · rw [if_neg hat, toNat_debited h]
      by_cases has : a = source
      · subst has
        simp [Ne.symm hat]
        omega
      · simp [Ne.symm hat, has, Ne.symm has]
  allowances := rfl
  events := rfl

theorem transferFromTo_cases {r : Except Error Unit}
    (h : transferFromTo source target value x = some (r, y)) :
    (r = .error .insufficientBalance ∧ y = x) ∨ (r = .ok () ∧ Moves source target value x y) := by
  by_cases hlt : x.token.balanceOf source < value
  · rw [transferFromTo_error hlt, Option.some.injEq, Prod.mk.injEq] at h
    exact Or.inl ⟨h.1.symm, h.2.symm⟩
  · have hle : value ≤ x.token.balanceOf source := Nat.le_of_not_lt hlt
    rw [transferFromTo_eq hle, Option.map_eq_some_iff] at h
    obtain ⟨sum, hsum, hy⟩ := h
    obtain ⟨hr, hy⟩ := Prod.mk.inj hy
    rw [← hr, ← hy]
    exact Or.inr ⟨rfl, moves_of_sum hle (add?_eq_some_iff.mp hsum)⟩

/-- A funded move succeeds when the target has room for the value. -/
theorem exists_transferFromTo (h : value ≤ x.token.balanceOf source)
    (hroom : source ≠ target → (x.token.balanceOf target).toNat + value.toNat < 2 ^ 128) :
    ∃ y, transferFromTo source target value x = some (.ok (), y) := by
  have hfit : ((debited source value x).token.balanceOf target).toNat + value.toNat < 2 ^ 128 := by
    have hle : value.toNat ≤ (x.token.balanceOf source).toNat := h
    have hlt := (x.token.balanceOf source).isLt
    rw [toNat_debited h]
    by_cases hst : target = source
    · rw [if_pos hst, hst]
      omega
    · rw [if_neg hst]
      exact hroom (Ne.symm hst)
  obtain ⟨sum, hsum, _⟩ := exists_add? hfit
  rw [transferFromTo_eq h, hsum]
  exact ⟨_, rfl⟩

end Moving

/-! ## The messages -/

section Messages

variable {x y : Exec AccountId} {caller source target spender : AccountId} {value : Balance}

theorem transferFrom_error (h : x.token.allowance source caller < value) :
    transferFrom caller source target value x = some (.error .insufficientAllowance, x) :=
  if_pos h

/-- What is left of the allowance after a move that went through. -/
def withdrawn (caller source : AccountId) (value : Balance) (x y : Exec AccountId) :
    Exec AccountId :=
  y.insertAllowance source caller (x.token.allowance source caller - value)

theorem transferFrom_eq (h : value ≤ x.token.allowance source caller) :
    transferFrom caller source target value x =
      (transferFromTo source target value x).map fun p => match p with
        | (.error e, y) => (.error e, y)
        | (.ok (), y) => (.ok (), withdrawn caller source value x y) := by
  have hlt : ¬ x.token.allowance source caller < value := fun hlt => Nat.not_lt_of_le h hlt
  simp only [transferFrom, if_neg hlt, sub?, withdrawn]
  cases transferFromTo source target value x with
  | none => rfl
  | some p =>
    obtain ⟨r, y⟩ := p
    cases r <;> rfl

theorem Moves.performs_transfer (h : Moves caller target value x y) :
    Performs ⟨caller, .transfer target value⟩ x y where
  allowed := h.funded
  totalSupply := h.totalSupply
  balances a := by
    rw [h.balances a]
    simp [Call.event]
  allowances owner spender := by
    rw [h.allowance_eq]
    simp [Call.withdraws, Call.approves]
  events := h.events

theorem performs_approve : Performs ⟨caller, .approve spender value⟩ x
    ((x.insertAllowance caller spender value).emit (.approval caller spender value)) where
  allowed := trivial
  totalSupply := rfl
  balances a := by simp [Call.event]
  allowances owner s := by
    rw [emit_token, allowance_insertAllowance]
    by_cases h : owner = caller ∧ s = spender
    · simp [Call.withdraws, Call.approves, h]
    · rw [if_neg h]
      simp only [Call.withdraws, Call.approves, Nat.add_zero]
      rw [if_neg fun hc => h ⟨hc.1.symm, hc.2.symm⟩]
      rfl
  events := rfl

theorem Moves.performs_transferFrom (h : Moves source target value x y)
    (hle : value ≤ x.token.allowance source caller) :
    Performs ⟨caller, .transferFrom source target value⟩ x (withdrawn caller source value x y) where
  allowed := ⟨hle, h.funded⟩
  totalSupply := h.totalSupply
  balances a := by
    rw [withdrawn, balanceOf_insertAllowance, h.balances a]
    simp [Call.event]
  allowances owner spender := by
    have hlt : ¬ x.token.allowance source caller < value := fun hlt => Nat.not_lt_of_le hle hlt
    have hval : value.toNat ≤ (x.token.allowance source caller).toNat := hle
    rw [withdrawn, allowance_insertAllowance, h.allowance_eq]
    simp only [Call.withdraws, Call.approves, Option.getD_none]
    by_cases ho : owner = source ∧ spender = caller
    · rw [if_pos ho, if_pos ⟨ho.1.symm, ho.2.symm⟩, toNat_sub_of_not_lt hlt, ho.1, ho.2]
      omega
    · rw [if_neg ho, if_neg fun hc => ho ⟨hc.1.symm, hc.2.symm⟩, Nat.add_zero]
  events := h.events

end Messages

section Dispatch

variable {c : Call AccountId} {x y : Exec AccountId}

/-- A call that returns either failed and did nothing, or performed its effect. -/
theorem dispatch_cases {r : Except Error Unit} (h : dispatch c x = some (r, y)) :
    ((∃ e, r = .error e) ∧ y = x) ∨ (r = .ok () ∧ Performs c x y) := by
  obtain ⟨caller, message⟩ := c
  cases message with
  | transfer target value =>
    rcases transferFromTo_cases h with herr | hok
    · exact Or.inl ⟨⟨_, herr.1⟩, herr.2⟩
    · exact Or.inr ⟨hok.1, hok.2.performs_transfer⟩
  | approve spender value =>
    obtain ⟨hr, hy⟩ := Prod.mk.inj (Option.some.inj h)
    rw [← hr, ← hy]
    exact Or.inr ⟨rfl, performs_approve⟩
  | transferFrom source target value =>
    have h : transferFrom caller source target value x = some (r, y) := h
    by_cases hlt : x.token.allowance source caller < value
    · rw [transferFrom_error hlt] at h
      obtain ⟨hr, hy⟩ := Prod.mk.inj (Option.some.inj h)
      exact Or.inl ⟨⟨_, hr.symm⟩, hy.symm⟩
    · have hle : value ≤ x.token.allowance source caller := Nat.le_of_not_lt hlt
      rw [transferFrom_eq hle, Option.map_eq_some_iff] at h
      obtain ⟨⟨r', y'⟩, hmove, hy⟩ := h
      rcases transferFromTo_cases hmove with herr | hok
      · rw [herr.1, herr.2] at hy
        obtain ⟨hr, hy⟩ := Prod.mk.inj hy
        exact Or.inl ⟨⟨_, hr.symm⟩, hy.symm⟩
      · rw [hok.1] at hy
        obtain ⟨hr, hy⟩ := Prod.mk.inj hy
        rw [← hr, ← hy]
        exact Or.inr ⟨rfl, hok.2.performs_transferFrom hle⟩

theorem dispatch_error {e : Error} (h : dispatch c x = some (.error e, y)) : y = x := by
  rcases dispatch_cases h with herr | hok
  · exact herr.2
  · cases hok.1

theorem dispatch_performs (h : dispatch c x = some (.ok (), y)) : Performs c x y := by
  rcases dispatch_cases h with herr | hok
  · obtain ⟨e, he⟩ := herr.1
    cases he
  · exact hok.2

end Dispatch

end Effects

end Erc20
end Crain
