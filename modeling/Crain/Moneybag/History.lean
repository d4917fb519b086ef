/-
The storage against the bids that were accepted.

The contract keeps a counter, a vector, a mapping and a running maximum.  All four
are determined by one list, the accepted bids in their order, with the first bid in
front (`Records`).  The list grows by exactly the calls that take effect, because
every other call is rolled back, and a call that returns an error has left the
storage alone even before that (`addBid_error`).
-/
import Crain.Moneybag.Backing

namespace Crain
namespace Moneybag

open Machine

variable {AccountId : Type}

/-- The storage of a bag that accepted the given bids. -/
structure Records (bids : List (AccountId × Balance)) (bag : Moneybag AccountId) : Prop where
  members : bag.members = bids.map Prod.fst
  amounts : ∀ p ∈ bids, bag.bids p.1 = some p.2
  maxBid_mem : bag.maxBid ∈ bids.map Prod.snd
  le_maxBid : ∀ p ∈ bids, p.2 ≤ bag.maxBid

def bidTotal (bids : List (AccountId × Balance)) : Nat := (bids.map fun p => p.2.toNat).sum

theorem Records.recordedSum_eq {bids : List (AccountId × Balance)} {bag : Moneybag AccountId}
    (h : Records bids bag) : recordedSum bag = bidTotal bids := by
  rw [recordedSum, h.members, List.map_map, bidTotal]
  congr 1
  refine List.map_congr_left fun p hp => ?_
  show ((bag.bids p.1).getD 0).toNat = p.2.toNat
  rw [h.amounts p hp, Option.getD_some]

section Runs

variable [DecidableEq AccountId]

def Call.bid (c : Call AccountId) : AccountId × Balance := (c.env.caller, c.amount)

/-- The first bid and the bids of the calls that took effect. -/
def acceptedBids (env : Env AccountId) (firstBid : Balance) (calls : List (Call AccountId)) :
    List (AccountId × Balance) :=
  (env.caller, firstBid) :: (committed attempt (deployed env firstBid) calls).map Call.bid

theorem records_new (env : Env AccountId) (firstBid : Balance) :
    Records [(env.caller, firstBid)] (new env firstBid) where
  members := rfl
  amounts p hp := by
    rw [List.mem_singleton] at hp
    simp [new, hp]
  maxBid_mem := by simp [new]
  le_maxBid p hp := by
    rw [List.mem_singleton] at hp
    simp [new, hp]

/-- The new maximum is the larger of the old one and the new bid. -/
theorem recorded_maxBid (bag : Moneybag AccountId) (caller : AccountId) (amount : Balance) :
    (amount ≤ bag.maxBid ∧ (recorded bag caller amount).maxBid = bag.maxBid) ∨
      (bag.maxBid ≤ amount ∧ (recorded bag caller amount).maxBid = amount) := by
  by_cases hlt : bag.maxBid < amount
  · exact Or.inr ⟨BitVec.le_of_lt hlt, if_pos hlt⟩
  · exact Or.inl ⟨BitVec.not_lt.mp hlt, if_neg hlt⟩

theorem Records.recorded {bids : List (AccountId × Balance)} {bag : Moneybag AccountId}
    (h : Records bids bag) {caller : AccountId} {amount : Balance} (hnew : caller ∉ bag.members) :
    Records (bids ++ [(caller, amount)]) (recorded bag caller amount) where
  members := by
    rw [recorded_members, h.members, List.map_append]
    rfl
  amounts p hp := by
    rw [List.mem_append, List.mem_singleton] at hp
    cases hp with
    | inl hold =>
      have hmem : p.1 ∈ bag.members := by
        rw [h.members]
        exact List.mem_map_of_mem hold
      have hne : p.1 ≠ caller := fun heq => hnew (heq ▸ hmem)
      rw [recorded_bids_of_ne hne]
      exact h.amounts p hold
    | inr hlast =>
      rw [hlast]
      exact recorded_bids_self
  maxBid_mem := by
    rw [List.map_append, List.mem_append]
    rcases recorded_maxBid bag caller amount with hold | hnew
    · rw [hold.2]
      exact Or.inl h.maxBid_mem
    · rw [hnew.2]
      exact Or.inr (List.mem_singleton_self amount)
  le_maxBid p hp := by
    rw [List.mem_append, List.mem_singleton] at hp
    rcases recorded_maxBid bag caller amount with hold | hnew
    · rw [hold.2]
      cases hp with
      | inl hp => exact h.le_maxBid p hp
      | inr hp => rw [hp]; exact hold.1
    · rw [hnew.2]
      cases hp with
      | inl hp => exact BitVec.le_trans (h.le_maxBid p hp) hnew.1
      | inr hp => rw [hp]; exact BitVec.le_refl _

theorem records_ledgerAfter (env : Env AccountId) (firstBid : Balance)
    (calls : List (Call AccountId)) :
    Records (acceptedBids env firstBid calls) (ledgerAfter env firstBid calls).bag := by
  have h := commitAll_history
    (P := fun past (l : Ledger AccountId) => WellFormed l.bag ∧
      Records ((env.caller, firstBid) :: past.map Call.bid) l.bag)
    (fun past l c l' hl (hll : attempt l c = some l') => by
      have hadv := attempt_advances hl.1 hll
      rw [hadv.bag, List.map_append, ← List.cons_append]
      exact ⟨hl.1.recorded hadv.passes, hl.2.recorded hadv.passes.2.2⟩)
    (s := deployed env firstBid) ⟨wellFormed_new env firstBid, records_new env firstBid⟩ calls
  exact h.2

theorem length_members_ledgerAfter (env : Env AccountId) (firstBid : Balance)
    (calls : List (Call AccountId)) :
    (ledgerAfter env firstBid calls).bag.members.length =
      (committed attempt (deployed env firstBid) calls).length + 1 := by
  rw [(records_ledgerAfter env firstBid calls).members, List.length_map, acceptedBids,
    List.length_cons, List.length_map]

/-- The sum of the bids is the first bid and all accepted amounts, when it fits. -/
theorem getTotalSum_ledgerAfter_iff (env : Env AccountId) (firstBid : Balance)
    (calls : List (Call AccountId)) {total : Balance} :
    getTotalSum (ledgerAfter env firstBid calls).bag = some total ↔
      total.toNat = firstBid.toNat +
        ((committed attempt (deployed env firstBid) calls).map
          fun c : Call AccountId => c.amount.toNat).sum := by
  rw [getTotalSum_eq_some_iff (wellFormed_ledgerAfter env firstBid calls),
    (records_ledgerAfter env firstBid calls).recordedSum_eq, bidTotal, acceptedBids, List.map_cons,
    List.sum_cons, List.map_map]
  rfl

/-! ## Calls that are refused -/

/-- A call that returns an error has written nothing. -/
theorem addBid_error {env : Env AccountId} {amount : Balance} {x y : Exec AccountId} {e : Error}
    (h : addBid env amount x = some (.error e, y)) : y.bag = x.bag := by
  unfold addBid at h
  split at h
  · rw [← (Prod.mk.inj (Option.some.inj h)).2]
    rfl
  · split at h
    · rw [← (Prod.mk.inj (Option.some.inj h)).2]
    · split at h
      · rw [← (Prod.mk.inj (Option.some.inj h)).2]
      · obtain ⟨bag, _, h⟩ := Option.bind_eq_some_iff.mp h
        obtain ⟨z, _, h⟩ := Option.bind_eq_some_iff.mp h
        cases h

theorem addBid_full {bag : Moneybag AccountId} (h : WellFormed bag) (hfull : bag.bidsMade = 5)
    (env : Env AccountId) (amount : Balance) :
    addBid env amount bag.start = some (.error .maxBids, bag.start.emit .maxBidsReached) := by
  have hle : bag.start.bag.size ≤ bag.start.bag.bidsMade := by
    show bag.size ≤ bag.bidsMade
    rw [h.size_eq, hfull]
    exact BitVec.le_refl _
  exact if_pos hle

/-- The representation invariant of every reachable state, against the history of
accepted bids, and what a refused call leaves behind. -/
theorem bag_represents_bids (env : Env AccountId) (firstBid : Balance)
    (calls : List (Call AccountId)) :
    WellFormed (ledgerAfter env firstBid calls).bag ∧
      Records (acceptedBids env firstBid calls) (ledgerAfter env firstBid calls).bag ∧
      (∀ p ∈ acceptedBids env firstBid calls, ∀ env' : Env AccountId, env'.caller = p.1 →
        getMyBid env' (ledgerAfter env firstBid calls).bag = some p.2) ∧
      (∀ total, getTotalSum (ledgerAfter env firstBid calls).bag = some total ↔
        total.toNat = firstBid.toNat +
          ((committed attempt (deployed env firstBid) calls).map
            fun c : Call AccountId => c.amount.toNat).sum) ∧
      (∀ (c : Call AccountId) e x,
        addBid c.env c.amount (ledgerAfter env firstBid calls).bag.start = some (.error e, x) →
          x.bag = (ledgerAfter env firstBid calls).bag) ∧
      ((ledgerAfter env firstBid calls).bag.bidsMade = 5 → ∀ c : Call AccountId, ∃ x,
        addBid c.env c.amount (ledgerAfter env firstBid calls).bag.start =
          some (.error .maxBids, x)) := by
  have hwf := wellFormed_ledgerAfter env firstBid calls
  have hrec := records_ledgerAfter env firstBid calls
  refine ⟨hwf, hrec, fun p hp env' hcaller => ?_,
    fun total => getTotalSum_ledgerAfter_iff env firstBid calls,
    fun c e x h => addBid_error h, fun hfull c => ⟨_, addBid_full hwf hfull _ _⟩⟩
  rw [getMyBid, hcaller]
  exact hrec.amounts p hp

end Runs

end Moneybag
end Crain
