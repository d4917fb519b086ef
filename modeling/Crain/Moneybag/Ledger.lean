/-
The contract on the chain.

A `Ledger` is the contract's storage together with the native value its callers
attached and the transfers it made.  The constructor takes no value.  A call that traps or
returns an error is rolled back with its value, so a ledger only changes by the calls that
return successfully.  `exists_attempt_iff` says what such a call needs of the storage it
starts from, and `attempt_advances` what it does.  When each call decides by itself
whether it keeps a fact, `ledgerAfter_forall_iff` says when the fact holds all along.
-/
import Mathlib.Data.List.Nodup
import Crain.Machine.Transaction
import Crain.Moneybag.Contract

namespace Crain
namespace Moneybag

open Machine Machine.Word

variable {AccountId : Type}

/-! ## The representation invariant -/

structure WellFormed (bag : Moneybag AccountId) : Prop where
  size_eq : bag.size = 5
  bidsMade_eq : bag.bidsMade.toNat = bag.members.length
  length_pos : 1 ≤ bag.members.length
  length_le : bag.members.length ≤ 5
  nodup : bag.members.Nodup
  domain : ∀ a, (bag.bids a).isSome ↔ a ∈ bag.members

theorem bidsMade_eq_iff {bag : Moneybag AccountId} (h : WellFormed bag) (n : U32) :
    bag.bidsMade = n ↔ bag.members.length = n.toNat := by
  rw [← BitVec.toNat_inj, h.bidsMade_eq]

theorem bidsMade_eq_size_iff {bag : Moneybag AccountId} (h : WellFormed bag) :
    bag.bidsMade = bag.size ↔ bag.members.length = 5 := by
  rw [h.size_eq]
  exact bidsMade_eq_iff h 5

/-- The checks of `addBid`. -/
def Passes (env : Env AccountId) (amount : Balance) (bag : Moneybag AccountId) : Prop :=
  bag.bidsMade < bag.size ∧ bag.maxBid / 2 ≤ amount ∧ env.caller ∉ bag.members

theorem Passes.length_lt {env : Env AccountId} {amount : Balance} {bag : Moneybag AccountId}
    (hpass : Passes env amount bag) (h : WellFormed bag) : bag.members.length < 5 := by
  have hopen : bag.bidsMade.toNat < bag.size.toNat := hpass.1
  rw [h.size_eq, h.bidsMade_eq] at hopen
  exact hopen

theorem toNat_half (a : Balance) : (a / 2).toNat = a.toNat / 2 := BitVec.toNat_udiv

theorem length_lt_of_open {bag : Moneybag AccountId} (h : WellFormed bag)
    (hopen : bag.bidsMade ≠ 5) : bag.members.length < 5 :=
  Nat.lt_of_le_of_ne h.length_le fun hlen => hopen ((bidsMade_eq_iff h 5).mpr hlen)

theorem passes_of_open {bag : Moneybag AccountId} (h : WellFormed bag)
    (hopen : bag.members.length < 5) {env : Env AccountId} (hnew : env.caller ∉ bag.members)
    {amount : Balance} (hamount : bag.maxBid.toNat / 2 ≤ amount.toNat) :
    Passes env amount bag := by
  refine ⟨?_, ?_, hnew⟩
  · show bag.bidsMade.toNat < bag.size.toNat
    rw [h.bidsMade_eq, h.size_eq]
    exact hopen
  · show (bag.maxBid / 2).toNat ≤ amount.toNat
    rw [toNat_half]
    exact hamount

theorem toNat_bidsMade_succ {env : Env AccountId} {amount : Balance} {bag : Moneybag AccountId}
    (h : WellFormed bag) (hpass : Passes env amount bag) :
    (bag.bidsMade + 1).toNat = bag.members.length + 1 := by
  have hlt := hpass.length_lt h
  have hone : (1 : U32).toNat = 1 := rfl
  rw [BitVec.toNat_add, h.bidsMade_eq, hone]
  exact Nat.mod_eq_of_lt (by omega)

/-- The prize of a full bag can be drawn and paid. -/
def PaysOut (env : Env AccountId) (bag : Moneybag AccountId) (prize : AccountId × Balance) : Prop :=
  getTotalSum bag = some prize.2 ∧ findWinner env bag = some prize.1 ∧
    env.transfer prize.1 prize.2 = true

/-- The winner is a member. -/
theorem findWinner_mem {env : Env AccountId} {bag : Moneybag AccountId} {winner : AccountId}
    (h : findWinner env bag = some winner) : winner ∈ bag.members := by
  obtain ⟨pos, _, hpos⟩ := Option.bind_eq_some_iff.mp h
  exact List.mem_of_getElem? hpos

theorem givePrize_eq_some_iff {env : Env AccountId} {x y : Exec AccountId} :
    givePrize env x = some y ↔ ∃ prize, PaysOut env x.bag prize ∧
      y = { x with transfers := x.transfers ++ [prize] }.emit .prizeTransfered := by
  constructor
  · intro h
    obtain ⟨total, htotal, h⟩ := Option.bind_eq_some_iff.mp h
    obtain ⟨winner, hwinner, h⟩ := Option.bind_eq_some_iff.mp h
    split at h
    · rename_i hpaid
      exact ⟨(winner, total), ⟨htotal, hwinner, hpaid⟩, (Option.some.inj h).symm⟩
    · cases h
  · intro h
    obtain ⟨⟨winner, total⟩, ⟨htotal, hwinner, hpaid⟩, hy⟩ := h
    simp only at htotal hwinner hpaid
    simp [givePrize, htotal, hwinner, hpaid, hy]

/-! ## The chain -/

structure Ledger (AccountId : Type) where
  bag : Moneybag AccountId
  /-- Native value attached to the calls that took effect. -/
  attached : Nat
  transfers : List (AccountId × Balance)

structure Call (AccountId : Type) where
  env : Env AccountId
  amount : Balance

section Chain

variable [DecidableEq AccountId]

/-- The ledger of a contract that has been deployed. -/
def deployed (env : Env AccountId) (firstBid : Balance) : Ledger AccountId where
  bag := new env firstBid
  attached := 0
  transfers := []

/-- The constructor is not payable, so a deployment that attaches value is refused. -/
def deploy (env : Env AccountId) (firstBid : Balance) : Option (Ledger AccountId) :=
  if env.transferredValue = 0 then some (deployed env firstBid) else none

def attempt (l : Ledger AccountId) (c : Call AccountId) : Option (Ledger AccountId) :=
  match addBid c.env c.amount l.bag.start with
  | some (.ok (), x) => some
    { bag := x.bag
      attached := l.attached + c.env.transferredValue.toNat
      transfers := l.transfers ++ x.transfers }
  | _ => none

def ledgerAfter (env : Env AccountId) (firstBid : Balance) (calls : List (Call AccountId)) :
    Ledger AccountId :=
  commitAll attempt (deployed env firstBid) calls

/-! ## Writing a bid -/

/-- The storage once a bid that passed the checks is written. -/
def recorded (bag : Moneybag AccountId) (caller : AccountId) (amount : Balance) :
    Moneybag AccountId :=
  { bag with
    bids := Function.update bag.bids caller (some amount)
    members := bag.members ++ [caller]
    bidsMade := bag.bidsMade + 1
    maxBid := if bag.maxBid < amount then amount else bag.maxBid }

theorem wellFormed_new (env : Env AccountId) (firstBid : Balance) :
    WellFormed (new env firstBid) where
  size_eq := rfl
  bidsMade_eq := rfl
  length_pos := Nat.le_refl 1
  length_le := by
    show 1 ≤ 5
    omega
  nodup := List.nodup_singleton _
  domain a := by
    by_cases h : a = env.caller <;> simp [new, h]

section Recorded

variable {bag : Moneybag AccountId} {env : Env AccountId} {caller : AccountId} {amount : Balance}

@[simp] theorem recorded_members :
    (recorded bag caller amount).members = bag.members ++ [caller] := rfl

@[simp] theorem recorded_length :
    (recorded bag caller amount).members.length = bag.members.length + 1 := by
  simp

theorem recorded_bids_of_ne {a : AccountId} (h : a ≠ caller) :
    (recorded bag caller amount).bids a = bag.bids a :=
  Function.update_of_ne h _ _

@[simp] theorem recorded_bids_self : (recorded bag caller amount).bids caller = some amount :=
  Function.update_self _ _ _

theorem WellFormed.recorded (h : WellFormed bag) (hpass : Passes env amount bag) :
    WellFormed (recorded bag env.caller amount) where
  size_eq := h.size_eq
  bidsMade_eq := by
    rw [recorded_length]
    exact toNat_bidsMade_succ h hpass
  length_pos := by simp
  length_le := by
    rw [recorded_length]
    exact hpass.length_lt h
  nodup := by
    rw [recorded_members, ← List.concat_eq_append]
    exact h.nodup.concat hpass.2.2
  domain a := by
    by_cases ha : a = env.caller
    · rw [ha]
      simp
    · rw [recorded_bids_of_ne ha, h.domain a]
      simp [ha]

/-! ## What an accepted call does -/

theorem recordBid_eq (h : WellFormed bag) (hpass : Passes env amount bag) :
    recordBid bag env.caller amount = some (Moneybag.recorded bag env.caller amount) := by
  have hadd : add? bag.bidsMade 1 = some (bag.bidsMade + 1) := by
    rw [add?_eq_some_iff, toNat_bidsMade_succ h hpass, h.bidsMade_eq]
    rfl
  rw [recordBid, hadd]
  rfl

end Recorded

def Call.written (c : Call AccountId) (bag : Moneybag AccountId) : Exec AccountId :=
  (recorded bag c.env.caller c.amount).start

theorem addBid_of_passes {bag : Moneybag AccountId} (h : WellFormed bag) {c : Call AccountId}
    (hpass : Passes c.env c.amount bag) :
    addBid c.env c.amount bag.start =
      (if (recorded bag c.env.caller c.amount).members.length = 5
        then givePrize c.env ((c.written bag).emit .maxBidsReached)
        else some (c.written bag)).map
          fun x => (.ok (), x.emit (.bidMade (some c.env.caller) c.amount)) := by
  have hfull := bidsMade_eq_size_iff (h.recorded hpass)
  have hopen : ¬ bag.size ≤ bag.bidsMade := fun hle => Nat.not_le_of_lt hpass.1 hle
  have hamount : ¬ c.amount < bag.maxBid / 2 := fun hlt => Nat.not_lt_of_le hpass.2.1 hlt
  simp only [addBid, start, hopen, hamount, hpass.2.2, if_false, recordBid_eq h hpass,
    Option.bind_eq_bind, Option.bind_some, hfull, Option.pure_def]
  exact Option.map_eq_bind.symm

theorem addBid_not_ok {bag : Moneybag AccountId} {c : Call AccountId}
    (hpass : ¬ Passes c.env c.amount bag) (x : Exec AccountId) :
    addBid c.env c.amount bag.start ≠ some (.ok (), x) := by
  unfold addBid
  intro h
  split at h
  · cases h
  · split at h
    · cases h
    · split at h
      · cases h
      · rename_i hopen hamount hnew
        exact hpass ⟨Nat.lt_of_not_le hopen, Nat.le_of_not_lt hamount, hnew⟩

/-- What a call needs to take effect: the checks pass, and a fifth bid can pay the
prize. -/
def Admits (c : Call AccountId) (bag : Moneybag AccountId) : Prop :=
  Passes c.env c.amount bag ∧
    ((recorded bag c.env.caller c.amount).members.length = 5 →
      ∃ prize, PaysOut c.env (recorded bag c.env.caller c.amount) prize)

/-- What a call that took effect did. -/
structure Advances (l l' : Ledger AccountId) (c : Call AccountId) : Prop where
  passes : Passes c.env c.amount l.bag
  bag : l'.bag = recorded l.bag c.env.caller c.amount
  attached : l'.attached = l.attached + c.env.transferredValue.toNat
  transfers : (l'.bag.members.length ≠ 5 ∧ l'.transfers = l.transfers) ∨
    (l'.bag.members.length = 5 ∧
      ∃ prize, PaysOut c.env l'.bag prize ∧ l'.transfers = l.transfers ++ [prize])

theorem attempt_of_addBid {l : Ledger AccountId} {c : Call AccountId} {x : Exec AccountId}
    (h : addBid c.env c.amount l.bag.start = some (.ok (), x)) :
    attempt l c = some
      { bag := x.bag
        attached := l.attached + c.env.transferredValue.toNat
        transfers := l.transfers ++ x.transfers } := by
  rw [attempt, h]

theorem addBid_of_attempt {l l' : Ledger AccountId} {c : Call AccountId}
    (h : attempt l c = some l') :
    ∃ x, addBid c.env c.amount l.bag.start = some (.ok (), x) ∧ l' =
      { bag := x.bag
        attached := l.attached + c.env.transferredValue.toNat
        transfers := l.transfers ++ x.transfers } := by
  unfold attempt at h
  split at h
  · rename_i x hx
    exact ⟨x, hx, (Option.some.inj h).symm⟩
  · cases h

theorem attempt_passes {l l' : Ledger AccountId} {c : Call AccountId}
    (h : attempt l c = some l') : Passes c.env c.amount l.bag := by
  obtain ⟨x, hx, _⟩ := addBid_of_attempt h
  by_contra hpass
  exact addBid_not_ok hpass x hx

theorem attempt_advances {l l' : Ledger AccountId} {c : Call AccountId} (hwf : WellFormed l.bag)
    (h : attempt l c = some l') : Advances l l' c := by
  have hpass := attempt_passes h
  obtain ⟨x, hx, hl⟩ := addBid_of_attempt h
  rw [addBid_of_passes hwf hpass, Option.map_eq_some_iff] at hx
  obtain ⟨y, hy, hxy⟩ := hx
  obtain ⟨_, hxy⟩ := Prod.mk.inj hxy
  subst hxy
  subst hl
  by_cases hfull : (recorded l.bag c.env.caller c.amount).members.length = 5
  · rw [if_pos hfull, givePrize_eq_some_iff] at hy
    obtain ⟨prize, hprize, hy⟩ := hy
    subst hy
    exact ⟨hpass, rfl, rfl, Or.inr ⟨hfull, prize, hprize, rfl⟩⟩
  · rw [if_neg hfull] at hy
    rw [← Option.some.inj hy]
    exact ⟨hpass, rfl, rfl, Or.inl ⟨hfull, List.append_nil _⟩⟩

/-- A call takes effect exactly when it is admitted. -/
theorem exists_attempt_iff {l : Ledger AccountId} {c : Call AccountId} (hwf : WellFormed l.bag) :
    (∃ l', attempt l c = some l') ↔ Admits c l.bag := by
  constructor
  · intro h
    obtain ⟨l', hl⟩ := h
    have hadv := attempt_advances hwf hl
    refine ⟨hadv.passes, fun hfull => ?_⟩
    rw [← hadv.bag] at hfull ⊢
    rcases hadv.transfers with hopen | hpaid
    · exact absurd hfull hopen.1
    · obtain ⟨prize, hprize, _⟩ := hpaid.2
      exact ⟨prize, hprize⟩
  · intro h
    obtain ⟨hpass, hprize⟩ := h
    have hadd := addBid_of_passes hwf hpass
    by_cases hfull : (recorded l.bag c.env.caller c.amount).members.length = 5
    · obtain ⟨prize, hprize⟩ := hprize hfull
      have hgive := givePrize_eq_some_iff.mpr
        ⟨prize, (show PaysOut c.env ((c.written l.bag).emit .maxBidsReached).bag prize from hprize),
          rfl⟩
      rw [if_pos hfull, hgive] at hadd
      exact ⟨_, attempt_of_addBid hadd⟩
    · rw [if_neg hfull] at hadd
      exact ⟨_, attempt_of_addBid hadd⟩

/-! ## Reachable ledgers -/

theorem wellFormed_ledgerAfter (env : Env AccountId) (firstBid : Balance)
    (calls : List (Call AccountId)) : WellFormed (ledgerAfter env firstBid calls).bag := by
  refine commitAll_stable (I := fun l : Ledger AccountId => WellFormed l.bag)
    (fun l c l' hl h => ?_) (wellFormed_new env firstBid) calls
  have hadv := attempt_advances hl h
  rw [hadv.bag]
  exact hl.recorded hadv.passes

section Run

variable {env : Env AccountId} {firstBid : Balance} {calls : List (Call AccountId)}

/-- A fact that holds after deployment and is carried by every admitted call
holds after every prefix of the run. -/
theorem ledgerAfter_invariant {P : Ledger AccountId → Prop} (h0 : P (deployed env firstBid))
    (hcall : ∀ k (hk : k < calls.length) l',
      Admits calls[k] (ledgerAfter env firstBid (calls.take k)).bag →
      Advances (ledgerAfter env firstBid (calls.take k)) l' calls[k] →
      P (ledgerAfter env firstBid (calls.take k)) → P l') (k : Nat) (hk : k ≤ calls.length) :
    P (ledgerAfter env firstBid (calls.take k)) := by
  refine commitAll_invariant h0 (fun i hi l' hprev hl => ?_) k hk
  have hwf := wellFormed_ledgerAfter env firstBid (calls.take i)
  exact hcall i hi l' ((exists_attempt_iff hwf).mp ⟨l', hl⟩) (attempt_advances hwf hl) hprev

theorem ledgerAfter_append (more : List (Call AccountId)) :
    ledgerAfter env firstBid (calls ++ more) =
      commitAll attempt (ledgerAfter env firstBid calls) more := by
  rw [ledgerAfter, commitAll, List.foldl_append]
  rfl

theorem ledgerAfter_take_succ {k : Nat} (hk : k < calls.length) {l' : Ledger AccountId}
    (hl : attempt (ledgerAfter env firstBid (calls.take k)) calls[k] = some l') :
    ledgerAfter env firstBid (calls.take (k + 1)) = l' := by
  rw [ledgerAfter, commitAll_take_succ _ hk]
  exact commit_of_some hl

theorem ledgerAfter_advances {k : Nat} (hk : k < calls.length)
    (hadmits : Admits calls[k] (ledgerAfter env firstBid (calls.take k)).bag) :
    Advances (ledgerAfter env firstBid (calls.take k))
      (ledgerAfter env firstBid (calls.take (k + 1))) calls[k] := by
  have hwf := wellFormed_ledgerAfter env firstBid (calls.take k)
  obtain ⟨l', hl⟩ := (exists_attempt_iff hwf).mpr hadmits
  rw [ledgerAfter_take_succ hk hl]
  exact attempt_advances hwf hl

/-- A fact whose next instance each admitted call decides by a condition of its own
holds after every prefix exactly when the conditions all hold. -/
theorem ledgerAfter_forall_iff {P : Ledger AccountId → Prop}
    {Q : Call AccountId → Ledger AccountId → Prop} (h0 : P (deployed env firstBid))
    (hcall : ∀ k (hk : k < calls.length) l',
      Advances (ledgerAfter env firstBid (calls.take k)) l' calls[k] →
      P (ledgerAfter env firstBid (calls.take k)) →
      (P l' ↔ Q calls[k] (ledgerAfter env firstBid (calls.take k)))) :
    (∀ k, k ≤ calls.length → P (ledgerAfter env firstBid (calls.take k))) ↔
      ∀ k (hk : k < calls.length), Admits calls[k] (ledgerAfter env firstBid (calls.take k)).bag →
        Q calls[k] (ledgerAfter env firstBid (calls.take k)) := by
  constructor
  · intro h k hk hadmits
    have hadv := ledgerAfter_advances hk hadmits
    exact (hcall k hk _ hadv (h k (Nat.le_of_lt hk))).mp (h (k + 1) hk)
  · intro h
    exact ledgerAfter_invariant h0 fun k hk l' hadmits hadv hprev =>
      (hcall k hk l' hadv hprev).mpr (h k hk hadmits)

end Run

end Chain

end Moneybag
end Crain
