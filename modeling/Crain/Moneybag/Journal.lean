/-
The events that stay on the chain.

A call that is rolled back takes its events with it, so of the three places that emit
`MaxBidsReached` or `BidMade` only those of accepted calls reach the log.  The log then
holds one `BidMade` for every bid but the first, which the constructor takes without an
event, and a bag that is full has closed the log with one `MaxBidsReached` and one
`PrizeTransfered` just before its last bid.  Who was told the constructor's arguments can
rebuild the storage from the log (`log_rebuilds_bag`).
-/
import Crain.Moneybag.History

namespace Crain
namespace Moneybag

open Machine

variable {AccountId : Type}

/-- The bid an event reports. -/
def Event.bid? : Event AccountId → Option (AccountId × Balance)
  | .bidMade (some source) value => some (source, value)
  | _ => none

/-- The event is not about one bid. -/
def Event.closes : Event AccountId → Bool
  | .bidMade _ _ => false
  | _ => true

/-- The events of a call that led to a bag. -/
def Call.events (c : Call AccountId) (bag : Moneybag AccountId) : List (Event AccountId) :=
  (if bag.members.length = 5 then [.maxBidsReached, .prizeTransfered] else []) ++
    [.bidMade (some c.env.caller) c.amount]

theorem filterMap_bid?_events (c : Call AccountId) (bag : Moneybag AccountId) :
    (c.events bag).filterMap Event.bid? = [c.bid] := by
  unfold Call.events
  split <;> rfl

theorem filter_closes_events (c : Call AccountId) (bag : Moneybag AccountId) :
    (c.events bag).filter Event.closes =
      if bag.members.length = 5 then [.maxBidsReached, .prizeTransfered] else [] := by
  unfold Call.events
  split <;> rfl

variable [DecidableEq AccountId]

/-- The storage that a log tells of. -/
def rebuild (env : Env AccountId) (firstBid : Balance) (log : List (Event AccountId)) :
    Moneybag AccountId :=
  (log.filterMap Event.bid?).foldl (fun bag bid => recorded bag bid.1 bid.2) (new env firstBid)

/-- A call on the ledger and the log of the contract. -/
def attemptLogged (s : Ledger AccountId × List (Event AccountId)) (c : Call AccountId) :
    Option (Ledger AccountId × List (Event AccountId)) :=
  match addBid c.env c.amount s.1.bag.start with
  | some (.ok (), x) => some
    ({ bag := x.bag
       attached := s.1.attached + c.env.transferredValue.toNat
       transfers := s.1.transfers ++ x.transfers }, s.2 ++ x.events)
  | _ => none

def loggedAfter (env : Env AccountId) (firstBid : Balance) (calls : List (Call AccountId)) :
    Ledger AccountId × List (Event AccountId) :=
  commitAll attemptLogged (deployed env firstBid, []) calls

theorem attemptLogged_fst (s : Ledger AccountId × List (Event AccountId)) (c : Call AccountId) :
    (attemptLogged s c).map Prod.fst = attempt s.1 c := by
  unfold attemptLogged attempt
  cases addBid c.env c.amount s.1.bag.start with
  | none => rfl
  | some out =>
    obtain ⟨result, x⟩ := out
    cases result <;> rfl

theorem addBid_events {bag : Moneybag AccountId} (h : WellFormed bag) {c : Call AccountId}
    {x : Exec AccountId} (hx : addBid c.env c.amount bag.start = some (.ok (), x)) :
    x.bag = recorded bag c.env.caller c.amount ∧ x.events = c.events x.bag := by
  have hpass : Passes c.env c.amount bag := by
    by_contra hnot
    exact addBid_not_ok hnot x hx
  rw [addBid_of_passes h hpass, Option.map_eq_some_iff] at hx
  obtain ⟨y, hy, hxy⟩ := hx
  rw [← (Prod.mk.inj hxy).2]
  by_cases hfull : (recorded bag c.env.caller c.amount).members.length = 5
  · rw [if_pos hfull, givePrize_eq_some_iff] at hy
    obtain ⟨prize, _, hy⟩ := hy
    subst hy
    refine ⟨rfl, ?_⟩
    show _ = (if (recorded bag c.env.caller c.amount).members.length = 5 then _ else _) ++ _
    rw [if_pos hfull]
    rfl
  · rw [if_neg hfull] at hy
    rw [← Option.some.inj hy]
    refine ⟨rfl, ?_⟩
    show _ = (if (recorded bag c.env.caller c.amount).members.length = 5 then _ else _) ++ _
    rw [if_neg hfull]
    rfl

theorem attemptLogged_events {s t : Ledger AccountId × List (Event AccountId)}
    {c : Call AccountId} (h : WellFormed s.1.bag) (ht : attemptLogged s c = some t) :
    Advances s.1 t.1 c ∧ t.2 = s.2 ++ c.events t.1.bag := by
  have hfst := attemptLogged_fst s c
  rw [ht, Option.map_some] at hfst
  unfold attemptLogged at ht
  split at ht
  · rename_i x hx
    refine ⟨attempt_advances h hfst.symm, ?_⟩
    rw [← Option.some.inj ht]
    exact congrArg (s.2 ++ ·) (addBid_events h hx).2
  · cases ht

/-- What the log says about the calls that took effect and the storage they left. -/
structure Told (env : Env AccountId) (firstBid : Balance) (past : List (Call AccountId))
    (s : Ledger AccountId × List (Event AccountId)) : Prop where
  wellFormed : WellFormed s.1.bag
  bids : s.2.filterMap Event.bid? = past.map Call.bid
  closing : s.2.filter Event.closes =
    if s.1.bag.members.length = 5 then [.maxBidsReached, .prizeTransfered] else []
  bag : rebuild env firstBid s.2 = s.1.bag

theorem told_deployed (env : Env AccountId) (firstBid : Balance) :
    Told env firstBid [] (deployed env firstBid, []) :=
  ⟨wellFormed_new env firstBid, rfl, rfl, rfl⟩

theorem Told.step {env : Env AccountId} {firstBid : Balance} {past : List (Call AccountId)}
    {s t : Ledger AccountId × List (Event AccountId)} {c : Call AccountId}
    (h : Told env firstBid past s) (ht : attemptLogged s c = some t) :
    Told env firstBid (past ++ [c]) t := by
  obtain ⟨hadv, hlog⟩ := attemptLogged_events h.wellFormed ht
  have hopen : s.1.bag.members.length ≠ 5 := Nat.ne_of_lt (hadv.passes.length_lt h.wellFormed)
  refine ⟨?_, ?_, ?_, ?_⟩
  · rw [hadv.bag]
    exact h.wellFormed.recorded hadv.passes
  · rw [hlog, List.filterMap_append, h.bids, filterMap_bid?_events, List.map_append]
    rfl
  · rw [hlog, List.filter_append, h.closing, if_neg hopen, filter_closes_events, List.nil_append]
  · have hbag : (s.2.filterMap Event.bid?).foldl (fun bag bid => recorded bag bid.1 bid.2)
        (new env firstBid) = s.1.bag := h.bag
    rw [hlog, rebuild, List.filterMap_append, List.foldl_append, filterMap_bid?_events, hbag,
      hadv.bag]
    rfl

/-- The log tells the bids that were accepted after the first, in order, whether the
bag was closed, and with the constructor's arguments the whole storage. -/
theorem log_rebuilds_bag (env : Env AccountId) (firstBid : Balance)
    (calls : List (Call AccountId)) :
    (loggedAfter env firstBid calls).1 = ledgerAfter env firstBid calls ∧
      (env.caller, firstBid) :: (loggedAfter env firstBid calls).2.filterMap Event.bid? =
        acceptedBids env firstBid calls ∧
      (loggedAfter env firstBid calls).2.filter Event.closes =
        (if (ledgerAfter env firstBid calls).bag.bidsMade = 5
          then [.maxBidsReached, .prizeTransfered] else []) ∧
      rebuild env firstBid (loggedAfter env firstBid calls).2 =
        (ledgerAfter env firstBid calls).bag := by
  have htold := commitAll_history (P := Told env firstBid) (fun _ _ _ _ h ht => h.step ht)
    (told_deployed env firstBid) calls
  obtain ⟨hledger, hcommitted⟩ := commitAll_map attemptLogged_fst (deployed env firstBid, []) calls
  have hfst : (loggedAfter env firstBid calls).1 = ledgerAfter env firstBid calls := hledger
  refine ⟨hfst, ?_, ?_, ?_⟩
  · show _ :: (commitAll attemptLogged _ calls).2.filterMap Event.bid? = _
    rw [htold.bids, hcommitted]
    rfl
  · show (commitAll attemptLogged _ calls).2.filter Event.closes = _
    rw [htold.closing, hledger]
    exact if_congr (bidsMade_eq_iff (wellFormed_ledgerAfter env firstBid calls) 5).symm rfl rfl
  · show rebuild env firstBid (commitAll attemptLogged _ calls).2 = _
    rw [htold.bag, hledger]
    rfl

end Moneybag
end Crain
