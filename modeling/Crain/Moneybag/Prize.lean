/-
The prize is paid once.

A transfer is made by the call that writes the fifth bid and by no other, in the
same transaction, so a fifth bid whose draw, sum or transfer fails leaves the bag
with four bids and the next caller tries again.  A bag with five bids refuses every
call (`attempt_full`), so the ledger does not change after the payment.
-/
import Crain.Moneybag.History

namespace Crain
namespace Moneybag

open Machine

variable {AccountId : Type} [DecidableEq AccountId]

theorem attempt_full {l : Ledger AccountId} (hwf : WellFormed l.bag)
    (hfull : l.bag.members.length = 5) (c : Call AccountId) : attempt l c = none := by
  cases hl : attempt l c with
  | none => rfl
  | some l' => exact absurd hfull (Nat.ne_of_lt ((attempt_passes hl).length_lt hwf))

/-- Call `k` of the run writes the fifth bid and pays the prize. -/
structure PaidBy (env : Env AccountId) (firstBid : Balance) (calls : List (Call AccountId))
    (k : Nat) (prize : AccountId × Balance) : Prop where
  lt : k < calls.length
  fourth : (ledgerAfter env firstBid (calls.take k)).bag.bidsMade = 4
  unpaid : (ledgerAfter env firstBid (calls.take k)).transfers = []
  taken : attempt (ledgerAfter env firstBid (calls.take k)) calls[k] =
    some (ledgerAfter env firstBid (calls.take (k + 1)))
  fifth : (ledgerAfter env firstBid (calls.take (k + 1))).bag.bidsMade = 5
  paysOut : PaysOut calls[k].env (ledgerAfter env firstBid (calls.take (k + 1))).bag prize
  paid : (ledgerAfter env firstBid (calls.take (k + 1))).transfers = [prize]

section Run

variable {env : Env AccountId} {firstBid : Balance} {calls : List (Call AccountId)}

/-- The call that fills the bag pays. -/
theorem paidBy_of_attempt {k : Nat} (hk : k < calls.length) {l' : Ledger AccountId}
    (hl : attempt (ledgerAfter env firstBid (calls.take k)) calls[k] = some l')
    (hfull : l'.bag.members.length = 5) : ∃ prize, PaidBy env firstBid calls k prize := by
  have hwf := wellFormed_ledgerAfter env firstBid (calls.take k)
  have hadv := attempt_advances hwf hl
  have hnext := ledgerAfter_take_succ hk hl
  have hlen : (ledgerAfter env firstBid (calls.take k)).bag.members.length = 4 := by
    rw [hadv.bag, recorded_length] at hfull
    exact Nat.succ.inj hfull
  have hunpaid : (ledgerAfter env firstBid (calls.take k)).transfers = [] :=
    (paysRecorded_ledgerAfter env firstBid (calls.take k)).1 (by omega)
  cases hadv.transfers with
  | inl hopen => exact absurd hfull hopen.1
  | inr hpaid =>
    obtain ⟨_, prize, hprize, htransfers⟩ := hpaid
    have hwf' := wellFormed_ledgerAfter env firstBid (calls.take (k + 1))
    refine ⟨prize, hk, (bidsMade_eq_iff hwf 4).mpr hlen, hunpaid, ?_,
      (bidsMade_eq_iff hwf' 5).mpr ?_, ?_, ?_⟩
    · rw [hnext]
      exact hl
    · rw [hnext]
      exact hfull
    · rw [hnext]
      exact hprize
    · rw [hnext, htransfers, hunpaid, List.nil_append]

/-- Induction on the prefix: a full bag was filled by one of the calls before. -/
theorem exists_paidBy : ∀ k, k ≤ calls.length →
    (ledgerAfter env firstBid (calls.take k)).bag.members.length = 5 →
      ∃ i, i < k ∧ ∃ prize, PaidBy env firstBid calls i prize := by
  intro k
  induction k with
  | zero => exact fun _ h => absurd h (show 1 ≠ 5 by omega)
  | succ k ih =>
    intro hk hfull
    have hstep : ledgerAfter env firstBid (calls.take (k + 1)) =
        commit attempt (ledgerAfter env firstBid (calls.take k)) calls[k] :=
      commitAll_take_succ _ hk
    cases hl : attempt (ledgerAfter env firstBid (calls.take k)) calls[k] with
    | none =>
      rw [hstep, commit_of_none hl] at hfull
      obtain ⟨i, hi, hpaid⟩ := ih (Nat.le_of_succ_le hk) hfull
      exact ⟨i, Nat.lt_succ_of_lt hi, hpaid⟩
    | some l' =>
      rw [hstep, commit_of_some hl] at hfull
      exact ⟨k, Nat.lt_succ_self k, paidBy_of_attempt hk hl hfull⟩

/-- Nothing moves after the payment. -/
theorem PaidBy.final {k : Nat} {prize : AccountId × Balance}
    (h : PaidBy env firstBid calls k prize) {j : Nat} (hj : k < j) :
    ledgerAfter env firstBid (calls.take j) = ledgerAfter env firstBid (calls.take (k + 1)) := by
  have hwf := wellFormed_ledgerAfter env firstBid (calls.take (k + 1))
  refine commitAll_take_of_refused hj fun c => ?_
  exact attempt_full hwf ((bidsMade_eq_iff hwf 5).mp h.fifth) c

theorem PaidBy.ledgerAfter_eq {k : Nat} {prize : AccountId × Balance}
    (h : PaidBy env firstBid calls k prize) :
    ledgerAfter env firstBid calls = ledgerAfter env firstBid (calls.take (k + 1)) := by
  have hfinal := h.final h.lt
  rw [List.take_length] at hfinal
  exact hfinal

theorem exists_paidBy_of_full (hfull : (ledgerAfter env firstBid calls).bag.bidsMade = 5) :
    ∃ k prize, PaidBy env firstBid calls k prize := by
  have hlen : (ledgerAfter env firstBid (calls.take calls.length)).bag.members.length = 5 := by
    rw [List.take_length]
    exact (bidsMade_eq_iff (wellFormed_ledgerAfter env firstBid calls) 5).mp hfull
  obtain ⟨k, _, h⟩ := exists_paidBy calls.length (Nat.le_refl _) hlen
  exact ⟨k, h⟩

theorem length_transfers (env : Env AccountId) (firstBid : Balance)
    (calls : List (Call AccountId)) :
    (ledgerAfter env firstBid calls).transfers.length =
      if (ledgerAfter env firstBid calls).bag.bidsMade = 5 then 1 else 0 := by
  by_cases hfull : (ledgerAfter env firstBid calls).bag.bidsMade = 5
  · obtain ⟨k, prize, h⟩ := exists_paidBy_of_full hfull
    rw [if_pos hfull, h.ledgerAfter_eq, h.paid]
    rfl
  · have hwf := wellFormed_ledgerAfter env firstBid calls
    have hempty := (paysRecorded_ledgerAfter env firstBid calls).1
      fun hlen => hfull ((bidsMade_eq_iff hwf 5).mpr hlen)
    rw [if_neg hfull, hempty]
    rfl

end Run

/-- One prize is paid, by the call that writes the fifth bid, to one of the members,
of all the bids, and nothing happens after it. -/
theorem one_prize (env : Env AccountId) (firstBid : Balance) (calls : List (Call AccountId)) :
    (ledgerAfter env firstBid calls).transfers.length =
        (if (ledgerAfter env firstBid calls).bag.bidsMade = 5 then 1 else 0) ∧
      ((ledgerAfter env firstBid calls).bag.bidsMade = 5 → ∃ k prize,
        PaidBy env firstBid calls k prize ∧
        (ledgerAfter env firstBid calls).transfers = [prize] ∧
        (ledgerAfter env firstBid calls).bag.members.Nodup ∧
        (ledgerAfter env firstBid calls).bag.members.length = 5 ∧
        prize.1 ∈ (ledgerAfter env firstBid calls).bag.members ∧
        (committed attempt (deployed env firstBid) calls).length = 4 ∧
        prize.2.toNat = firstBid.toNat +
          ((committed attempt (deployed env firstBid) calls).map
            fun c : Call AccountId => c.amount.toNat).sum ∧
        ∀ j, k < j → ledgerAfter env firstBid (calls.take j) =
          ledgerAfter env firstBid (calls.take (k + 1))) := by
  refine ⟨length_transfers env firstBid calls, fun hfull => ?_⟩
  obtain ⟨k, prize, h⟩ := exists_paidBy_of_full hfull
  have hwf := wellFormed_ledgerAfter env firstBid calls
  have hlen := (bidsMade_eq_iff hwf 5).mp hfull
  have hprize := h.paysOut
  rw [← h.ledgerAfter_eq] at hprize
  refine ⟨k, prize, h, ?_, hwf.nodup, hlen, findWinner_mem hprize.2.1, ?_, ?_,
    fun j hj => h.final hj⟩
  · rw [h.ledgerAfter_eq]
    exact h.paid
  · rw [length_members_ledgerAfter] at hlen
    exact Nat.succ.inj hlen
  · exact (getTotalSum_ledgerAfter_iff env firstBid calls).mp hprize.1

end Moneybag
end Crain
