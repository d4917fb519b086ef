/-
The rule that no bid is less than a half of the maximum.

The rule is checked against the running maximum by a truncating division.  Every
earlier bid is at most the maximum and one of them is the maximum, so the check
against it decides the rule for all pairs at once (`Advances.halfRule_iff`), and it
decides wrongly exactly when an odd maximum is met by its truncated half.
-/
import Crain.Moneybag.History
import Crain.Moneybag.Draw

namespace Crain
namespace Moneybag

open Machine

variable {AccountId : Type}

/-- No member got in with less than half of the bid of a member before it. -/
def HalfRule (bag : Moneybag AccountId) : Prop :=
  bag.members.Pairwise fun i j => ∀ a b, bag.bids i = some a → bag.bids j = some b →
    a.toNat ≤ 2 * b.toNat

theorem halfRule_iff_pairwise {bids : List (AccountId × Balance)} {bag : Moneybag AccountId}
    (h : Records bids bag) :
    HalfRule bag ↔ bids.Pairwise fun p q => p.2.toNat ≤ 2 * q.2.toNat := by
  rw [HalfRule, h.members, List.pairwise_map]
  refine List.Pairwise.iff_of_mem fun {p q} hp hq => ?_
  rw [h.amounts p hp, h.amounts q hq]
  constructor
  · exact fun hpq => hpq p.2 q.2 rfl rfl
  · intro hpq a b ha hb
    rw [← Option.some.inj ha, ← Option.some.inj hb]
    exact hpq

/-- Being at most twice an amount is decided by the maximum. -/
theorem Records.forall_le_iff {bids : List (AccountId × Balance)} {bag : Moneybag AccountId}
    (h : Records bids bag) (n : Nat) :
    (∀ p ∈ bids, p.2.toNat ≤ n) ↔ bag.maxBid.toNat ≤ n := by
  constructor
  · intro hall
    obtain ⟨p, hp, hmax⟩ := List.mem_map.mp h.maxBid_mem
    rw [← hmax]
    exact hall p hp
  · intro hmax p hp
    exact Nat.le_trans (h.le_maxBid p hp) hmax

section Runs

variable [DecidableEq AccountId]

/-- An accepted bid keeps the rule when it is at least half of the maximum. -/
theorem Advances.halfRule_iff {l l' : Ledger AccountId} {c : Call AccountId}
    (h : Advances l l' c) {bids : List (AccountId × Balance)} (hrec : Records bids l.bag) :
    HalfRule l'.bag ↔ HalfRule l.bag ∧ l.bag.maxBid.toNat ≤ 2 * c.amount.toNat := by
  have hrec' : Records (bids ++ [c.bid]) (recorded l.bag c.env.caller c.amount) :=
    hrec.recorded h.passes.2.2
  rw [h.bag, halfRule_iff_pairwise hrec', halfRule_iff_pairwise hrec,
    ← hrec.forall_le_iff (2 * c.amount.toNat), List.pairwise_append]
  simp [Call.bid]

/-- Twice a truncated half falls short by one when the maximum is odd. -/
theorem le_double_iff {m a : Nat} (h : m / 2 ≤ a) : m ≤ 2 * a ↔ ¬ (m % 2 = 1 ∧ a = m / 2) := by
  omega

theorem half_rule_iff (env : Env AccountId) (firstBid : Balance)
    (calls : List (Call AccountId)) :
    (∀ k, k ≤ calls.length → HalfRule (ledgerAfter env firstBid (calls.take k)).bag) ↔
      ∀ k (hk : k < calls.length), Admits calls[k] (ledgerAfter env firstBid (calls.take k)).bag →
        ¬ ((ledgerAfter env firstBid (calls.take k)).bag.maxBid.toNat % 2 = 1 ∧
          calls[k].amount.toNat =
            (ledgerAfter env firstBid (calls.take k)).bag.maxBid.toNat / 2) := by
  refine ledgerAfter_forall_iff (P := fun l => HalfRule l.bag)
    (Q := fun c l => ¬ (l.bag.maxBid.toNat % 2 = 1 ∧ c.amount.toNat = l.bag.maxBid.toNat / 2))
    (List.pairwise_singleton _ _) fun k hk l' hadv hprev => ?_
  have hrec := records_ledgerAfter env firstBid (calls.take k)
  have hhalf : (ledgerAfter env firstBid (calls.take k)).bag.maxBid.toNat / 2 ≤
      calls[k].amount.toNat := hadv.passes.2.1
  rw [hadv.halfRule_iff hrec, le_double_iff hhalf]
  exact and_iff_right hprev

end Runs

/-- A bid of 50 gets in after a bid of 101. -/
theorem truncated_half_gets_in :
    let calls : List (Call Nat) := [⟨drawing 1 0, 50⟩]
    let bag := (ledgerAfter founding 101 calls).bag
    bag.members = [0, 1] ∧ bag.bids 0 = some 101 ∧ bag.bids 1 = some 50 ∧ ¬ HalfRule bag := by
  intro calls bag
  have hfirst : bag.bids 0 = some 101 := by decide
  have hsecond : bag.bids 1 = some 50 := by decide
  refine ⟨by decide, hfirst, hsecond, fun h => ?_⟩
  have hpair := List.rel_of_pairwise_cons h (List.mem_singleton_self 1) 101 50 hfirst hsecond
  exact absurd hpair (by decide)

end Moneybag
end Crain
