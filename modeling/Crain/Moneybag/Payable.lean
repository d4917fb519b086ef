/-
The prizes that can still be paid.

Each bid to come is at least half of the running maximum, and bids of exactly that
amount do not move the maximum.  The cheapest way to fill the bag therefore adds the
truncated half once for every free place (`leastPot`), and no accepted bid lowers this
total.  What is paid in the end is at least that total, and short of the width of a
balance nothing else bounds it (`prizes_left`): a bag whose least pot does not fit a
balance keeps the money of its members for ever.
-/
import Crain.Moneybag.Prize
import Crain.Moneybag.Pot

namespace Crain
namespace Moneybag

open Machine Machine.Word

variable {AccountId : Type}

/-- The pot if every free place is taken by the least bid that passes the checks. -/
def leastPot (bag : Moneybag AccountId) : Nat :=
  recordedSum bag + (5 - bag.members.length) * (bag.maxBid.toNat / 2)

theorem leastPot_of_full {bag : Moneybag AccountId} (h : bag.members.length = 5) :
    leastPot bag = recordedSum bag := by
  rw [leastPot, h]
  simp

theorem leastPot_of_open {bag : Moneybag AccountId} (h : bag.members.length < 5) :
    leastPot bag = recordedSum bag + bag.maxBid.toNat / 2 +
      (4 - bag.members.length) * (bag.maxBid.toNat / 2) := by
  have hplaces : 5 - bag.members.length = (4 - bag.members.length) + 1 := by omega
  rw [leastPot, hplaces, Nat.succ_mul]
  omega

/-- The draw that is the position of a member finds it. -/
theorem exists_draw {bag : Moneybag AccountId} (h : WellFormed bag) {winner : AccountId}
    (hwinner : winner ∈ bag.members) :
    ∃ draw, ∀ env : Env AccountId, env.nextU64 env.caller = draw →
      findWinner env bag = some winner := by
  obtain ⟨i, hi, hwin⟩ := List.getElem_of_mem hwinner
  have hlen := h.length_le
  refine ⟨BitVec.ofNat 64 i, fun env hdraw => ?_⟩
  have hpos : (BitVec.ofNat 64 i).toNat % 6 = i := by
    rw [BitVec.toNat_ofNat]
    omega
  rw [findWinner_eq h, hdraw, hpos, List.getElem?_eq_getElem hi, hwin]

variable [DecidableEq AccountId]

/-! ## The least pot does not shrink -/

theorem leastPot_recorded {bag : Moneybag AccountId} {caller : AccountId} (amount : Balance)
    (hnew : caller ∉ bag.members) :
    leastPot (recorded bag caller amount) = recordedSum bag + amount.toNat +
      (4 - bag.members.length) * ((recorded bag caller amount).maxBid.toNat / 2) := by
  have hplaces : 5 - (bag.members.length + 1) = 4 - bag.members.length := by omega
  rw [leastPot, recorded_length, hplaces, recordedSum_recorded hnew]

theorem le_recorded_maxBid (bag : Moneybag AccountId) (caller : AccountId) (amount : Balance) :
    bag.maxBid.toNat ≤ (recorded bag caller amount).maxBid.toNat := by
  rcases recorded_maxBid bag caller amount with hold | hnew
  · rw [hold.2]
  · rw [hnew.2]
    exact hnew.1

theorem Passes.leastPot_le {env : Env AccountId} {amount : Balance} {bag : Moneybag AccountId}
    (hpass : Passes env amount bag) (h : WellFormed bag) :
    leastPot bag ≤ leastPot (recorded bag env.caller amount) := by
  have hamount : bag.maxBid.toNat / 2 ≤ amount.toNat := by
    rw [← toNat_half]
    exact hpass.2.1
  have hmax := Nat.div_le_div_right (c := 2) (le_recorded_maxBid bag env.caller amount)
  rw [leastPot_of_open (hpass.length_lt h), leastPot_recorded amount hpass.2.2]
  exact Nat.add_le_add (Nat.add_le_add_left hamount _) (Nat.mul_le_mul_left _ hmax)

theorem leastPot_le_commitAll {l : Ledger AccountId} (h : WellFormed l.bag)
    (calls : List (Call AccountId)) : leastPot l.bag ≤ leastPot (commitAll attempt l calls).bag := by
  have hstable : WellFormed (commitAll attempt l calls).bag ∧
      leastPot l.bag ≤ leastPot (commitAll attempt l calls).bag := commitAll_stable
    (I := fun l' : Ledger AccountId => WellFormed l'.bag ∧ leastPot l.bag ≤ leastPot l'.bag)
    (fun l₁ c l₂ hl hstep => by
      have hadv := attempt_advances hl.1 hstep
      rw [hadv.bag]
      exact ⟨hl.1.recorded hadv.passes, Nat.le_trans hl.2 (hadv.passes.leastPot_le hl.1)⟩)
    ⟨h, Nat.le_refl _⟩ calls
  exact hstable.2

/-! ## Filling the bag -/

/-- How a chain decides on the transfers of a call, from the ledger before it and the value
attached to it. -/
abbrev Policy (AccountId : Type) := Ledger AccountId → Balance → AccountId → Balance → Bool

/-- A call that attaches what it bids, on a chain with a policy. -/
def Obeys (policy : Policy AccountId) (l : Ledger AccountId) (c : Call AccountId) : Prop :=
  c.env.transferredValue = c.amount ∧ c.env.transfer = policy l c.env.transferredValue

/-- The call of a caller who attaches the bid. -/
def funded (policy : Policy AccountId) (l : Ledger AccountId) (caller : AccountId) (draw : U64)
    (amount : Balance) : Call AccountId where
  env :=
    { caller := caller
      transferredValue := amount
      nextU64 := fun _ => draw
      transfer := policy l amount }
  amount := amount

/-- A bid of the truncated half moves nothing but the sum. -/
theorem recorded_half_maxBid (bag : Moneybag AccountId) (caller : AccountId) :
    (recorded bag caller (bag.maxBid / 2)).maxBid = bag.maxBid := by
  refine if_neg fun hlt => ?_
  have hlt' : bag.maxBid.toNat < (bag.maxBid / 2).toNat := hlt
  rw [toNat_half] at hlt'
  omega

/-- What a bid that leaves a place free adds to the ledger. -/
structure Adds (l l' : Ledger AccountId) (caller : AccountId) (amount : Balance) : Prop where
  wellFormed : WellFormed l'.bag
  bag : l'.bag = recorded l.bag caller amount
  attached : l'.attached = l.attached + amount.toNat
  transfers : l'.transfers = l.transfers

section Fill

variable {policy : Policy AccountId} {l : Ledger AccountId} {a : AccountId}

/-- While a place stays free, a new member can bid the truncated half. -/
theorem exists_half_bid (policy : Policy AccountId) (h : WellFormed l.bag)
    (hopen : l.bag.members.length < 4) (hnew : a ∉ l.bag.members) :
    ∃ l', attempt l (funded policy l a 0 (l.bag.maxBid / 2)) = some l' ∧
      Adds l l' a (l.bag.maxBid / 2) ∧ leastPot l'.bag = leastPot l.bag := by
  have hpass : Passes (funded policy l a 0 (l.bag.maxBid / 2)).env (l.bag.maxBid / 2) l.bag :=
    passes_of_open h (by omega) hnew (Nat.le_of_eq (toNat_half l.bag.maxBid).symm)
  have hnot : (recorded l.bag a (l.bag.maxBid / 2)).members.length ≠ 5 := by
    rw [recorded_length]
    omega
  obtain ⟨l', hl⟩ := (exists_attempt_iff (c := funded policy l a 0 (l.bag.maxBid / 2)) h).mpr
    ⟨hpass, fun hfull => absurd hfull hnot⟩
  have hadv := attempt_advances h hl
  have hbag : l'.bag = recorded l.bag a (l.bag.maxBid / 2) := hadv.bag
  refine ⟨l', hl, ⟨?_, hbag, hadv.attached, ?_⟩, ?_⟩
  · rw [hbag]
    exact h.recorded hpass
  · cases hadv.transfers with
    | inl hopen => exact hopen.2
    | inr hpaid =>
      rw [hbag] at hpaid
      exact absurd hpaid.1 hnot
  · rw [hbag, leastPot_recorded _ hnew, recorded_half_maxBid, toNat_half,
      leastPot_of_open (by omega)]

/-- The last bid can bring the pot to any prize it does not exceed already, for any of
the five to win, if the chain lets the transfer through. -/
theorem exists_last_bid (h : WellFormed l.bag) (hfour : l.bag.members.length = 4)
    (hnew : a ∉ l.bag.members) {winner : AccountId} (hwinner : winner ∈ l.bag.members ++ [a])
    {prize : Balance} (hpot : leastPot l.bag ≤ prize.toNat)
    (hpolicy : ∀ amount : Balance, recordedSum l.bag + amount.toNat = prize.toNat →
      policy l amount winner prize = true) :
    ∃ draw amount l', attempt l (funded policy l a draw amount) = some l' ∧
      l'.transfers = l.transfers ++ [(winner, prize)] := by
  obtain ⟨amount, hamount⟩ : ∃ amount : Balance,
      amount.toNat = prize.toNat - recordedSum l.bag :=
    ⟨BitVec.ofNat 128 (prize.toNat - recordedSum l.bag), by
      rw [BitVec.toNat_ofNat]
      exact Nat.mod_eq_of_lt (Nat.lt_of_le_of_lt (Nat.sub_le _ _) prize.isLt)⟩
  rw [leastPot_of_open (by omega), hfour] at hpot
  have hpasses : ∀ draw, Passes (funded policy l a draw amount).env amount l.bag := fun draw =>
    passes_of_open h (by omega) hnew (by omega)
  have hwf : WellFormed (recorded l.bag a amount) := h.recorded (hpasses 0)
  obtain ⟨draw, hdraw⟩ := exists_draw hwf hwinner
  have hfind := hdraw (funded policy l a draw amount).env rfl
  have htotal : getTotalSum (recorded l.bag a amount) = some prize := by
    rw [getTotalSum_eq_some_iff hwf, recordedSum_recorded hnew, hamount]
    omega
  have hpays : PaysOut (funded policy l a draw amount).env (recorded l.bag a amount)
      (winner, prize) := ⟨htotal, hfind, hpolicy amount (by omega)⟩
  obtain ⟨l', hl⟩ := (exists_attempt_iff (c := funded policy l a draw amount) h).mpr
    ⟨hpasses draw, fun _ => ⟨_, hpays⟩⟩
  have hadv := attempt_advances h hl
  have hbag : l'.bag = recorded l.bag a amount := hadv.bag
  refine ⟨draw, amount, l', hl, ?_⟩
  cases hadv.transfers with
  | inl hopen =>
    refine absurd ?_ hopen.1
    rw [hbag, recorded_length, hfour]
  | inr hpaid =>
    obtain ⟨_, paidOut, hpaidOut, htransfers⟩ := hpaid
    rw [hbag] at hpaidOut
    have hsum : paidOut.2 = prize := Option.some.inj (hpaidOut.1.symm.trans htotal)
    have hwon : paidOut.1 = winner := Option.some.inj (hpaidOut.2.1.symm.trans hfind)
    rw [htransfers, ← hsum, ← hwon]

end Fill

/-- Induction on the accounts that take the free places: all but the last bid the least
amount.  What the attached value exceeds the bids by stays the same. -/
theorem exists_calls_pay (policy : Policy AccountId) {winner : AccountId} {prize : Balance}
    {excess : Int}
    (hpolicy : ∀ (l : Ledger AccountId) (amount : Balance), l.transfers = [] →
      l.attached - recordedSum l.bag = excess →
      recordedSum l.bag + amount.toNat = prize.toNat → policy l amount winner prize = true) :
    ∀ (fresh : List AccountId) {l : Ledger AccountId}, WellFormed l.bag → fresh ≠ [] →
      l.bag.members.length + fresh.length = 5 → (l.bag.members ++ fresh).Nodup →
      winner ∈ l.bag.members ++ fresh → leastPot l.bag ≤ prize.toNat → l.transfers = [] →
      (l.attached - recordedSum l.bag : Int) = excess →
      ∃ calls, Follows attempt (Obeys policy) l calls ∧
        (commitAll attempt l calls).transfers = [(winner, prize)]
  | [], _, _, hne, _, _, _, _, _, _ => absurd rfl hne
  | [a], l, h, _, hlen, hnodup, hwinner, hpot, hunpaid, hexcess => by
    have hnew : a ∉ l.bag.members := fun ha =>
      (List.nodup_append.mp hnodup).2.2 a ha a List.mem_cons_self rfl
    obtain ⟨draw, amount, l', hl, htransfers⟩ := exists_last_bid h (Nat.succ.inj hlen) hnew hwinner
      hpot fun amount => hpolicy l amount hunpaid hexcess
    refine ⟨[funded policy l a draw amount], ⟨⟨rfl, rfl⟩, trivial⟩, ?_⟩
    rw [commitAll, List.foldl_cons, List.foldl_nil, commit_of_some hl, htransfers, hunpaid,
      List.nil_append]
  | a :: b :: rest, l, h, _, hlen, hnodup, hwinner, hpot, hunpaid, hexcess => by
    have hnew : a ∉ l.bag.members := fun ha =>
      (List.nodup_append.mp hnodup).2.2 a ha a List.mem_cons_self rfl
    simp only [List.length_cons] at hlen
    obtain ⟨l', hl, hadds, hsame⟩ := exists_half_bid policy h (by omega) hnew
    have hall : l'.bag.members ++ b :: rest = l.bag.members ++ a :: b :: rest := by
      rw [hadds.bag, recorded_members, List.append_assoc]
      rfl
    have hlen' : l'.bag.members.length + (b :: rest).length = 5 := by
      rw [hadds.bag, recorded_length, List.length_cons]
      omega
    have hexcess' : (l'.attached - recordedSum l'.bag : Int) = excess := by
      rw [hadds.bag, recordedSum_recorded hnew, hadds.attached]
      omega
    rw [← hall] at hnodup hwinner
    rw [← hsame] at hpot
    obtain ⟨calls, hobeys, hcalls⟩ := exists_calls_pay policy hpolicy (b :: rest) hadds.wellFormed
      (List.cons_ne_nil _ _) hlen' hnodup hwinner hpot (hadds.transfers.trans hunpaid) hexcess'
    refine ⟨funded policy l a 0 (l.bag.maxBid / 2) :: calls, ⟨⟨rfl, rfl⟩, ?_⟩, ?_⟩
    · rw [commit_of_some hl]
      exact hobeys
    · rw [commitAll, List.foldl_cons, commit_of_some hl]
      exact hcalls

/-- The free places can be taken so that a given account is among the five. -/
theorem exists_places {bag : Moneybag AccountId} (h : WellFormed bag)
    (hopen : bag.members.length < 5) {accounts : Finset AccountId} (haccounts : 5 ≤ accounts.card)
    (winner : AccountId) :
    ∃ fresh : List AccountId, fresh ≠ [] ∧ bag.members.length + fresh.length = 5 ∧
      (bag.members ++ fresh).Nodup ∧ winner ∈ bag.members ++ fresh := by
  by_cases hmem : winner ∈ bag.members
  · obtain ⟨fresh, hlen, hnodup⟩ := exists_fresh h.nodup accounts
      (k := 5 - bag.members.length) (by omega)
    refine ⟨fresh, fun hnil => ?_, by omega, hnodup, List.mem_append_left _ hmem⟩
    rw [hnil, List.length_nil] at hlen
    omega
  · have hused : (bag.members ++ [winner]).Nodup := by
      rw [← List.concat_eq_append]
      exact h.nodup.concat hmem
    have hlast : (bag.members ++ [winner]).length = bag.members.length + 1 := by simp
    obtain ⟨fresh, hlen, hnodup⟩ := exists_fresh hused accounts
      (k := 4 - bag.members.length) (by omega)
    rw [List.append_assoc] at hnodup
    refine ⟨winner :: fresh, List.cons_ne_nil _ _, ?_, hnodup,
      List.mem_append_right _ List.mem_cons_self⟩
    rw [List.length_cons]
    omega

/-! ## The prizes -/

section Run

variable {env : Env AccountId} {firstBid : Balance} {calls : List (Call AccountId)}

/-- What has been paid is the least pot of the bag it was paid from. -/
theorem leastPot_of_paid {prize : AccountId × Balance}
    (h : (ledgerAfter env firstBid calls).transfers = [prize]) :
    leastPot (ledgerAfter env firstBid calls).bag = prize.2.toNat := by
  have hpays := paysRecorded_ledgerAfter env firstBid calls
  have hfull : (ledgerAfter env firstBid calls).bag.members.length = 5 := by
    by_contra hne
    have hnone := hpays.1 hne
    rw [h] at hnone
    cases hnone
  have hpaid := hpays.2 hfull
  rw [leastPot_of_full hfull, ← hpaid, h]
  simp [paid]

/-- Every prize there is was at least the least pot of every bag before it. -/
theorem leastPot_le_prize {more : List (Call AccountId)} {prize : AccountId × Balance}
    (h : (ledgerAfter env firstBid (calls ++ more)).transfers = [prize]) :
    leastPot (ledgerAfter env firstBid calls).bag ≤ prize.2.toNat := by
  rw [← leastPot_of_paid h, ledgerAfter_append]
  exact leastPot_le_commitAll (wellFormed_ledgerAfter env firstBid calls) more

end Run

/-- From a bag with a free place, the prizes that a run can still end with are those
from the least pot on, for any account to win, and there are none when the least pot
does not fit a balance. -/
theorem prizes_left (env : Env AccountId) (firstBid : Balance) (calls : List (Call AccountId))
    (accounts : Finset AccountId) (haccounts : 5 ≤ accounts.card)
    (hopen : (ledgerAfter env firstBid calls).bag.bidsMade ≠ 5) :
    (∀ winner (prize : Balance),
      (∃ more, (ledgerAfter env firstBid (calls ++ more)).transfers = [(winner, prize)]) ↔
        leastPot (ledgerAfter env firstBid calls).bag ≤ prize.toNat) ∧
      (2 ^ 128 ≤ leastPot (ledgerAfter env firstBid calls).bag → ∀ more,
        (ledgerAfter env firstBid (calls ++ more)).transfers = [] ∧
          (ledgerAfter env firstBid (calls ++ more)).bag.bidsMade ≠ 5) := by
  have hwf := wellFormed_ledgerAfter env firstBid calls
  have hlt := length_lt_of_open hwf hopen
  constructor
  · intro winner prize
    constructor
    · intro h
      obtain ⟨more, hmore⟩ := h
      exact leastPot_le_prize hmore
    · intro hpot
      obtain ⟨fresh, hne, hlen, hnodup, hwinner⟩ := exists_places hwf hlt haccounts winner
      -- On a chain where every transfer goes through nothing need be backed.
      have hunpaid := (paysRecorded_ledgerAfter env firstBid calls).1 (Nat.ne_of_lt hlt)
      obtain ⟨more, _, hmore⟩ := exists_calls_pay (fun _ _ _ _ => true) (fun _ _ _ _ _ => rfl) fresh
        hwf hne hlen hnodup hwinner hpot hunpaid rfl
      refine ⟨more, ?_⟩
      rw [ledgerAfter_append]
      exact hmore
  · intro hpot more
    have hopen' : (ledgerAfter env firstBid (calls ++ more)).bag.bidsMade ≠ 5 := by
      intro hfull
      obtain ⟨k, prize, h⟩ := exists_paidBy_of_full hfull
      have hpaid : (ledgerAfter env firstBid (calls ++ more)).transfers = [prize] := by
        rw [h.ledgerAfter_eq]
        exact h.paid
      exact Nat.not_lt_of_le (Nat.le_trans hpot (leastPot_le_prize hpaid)) prize.2.isLt
    have hlt' := length_lt_of_open (wellFormed_ledgerAfter env firstBid (calls ++ more)) hopen'
    exact ⟨(paysRecorded_ledgerAfter env firstBid _).1 (Nat.ne_of_lt hlt'), hopen'⟩

/-- From a first bid of 100 account 7 can still win 300.  A first bid of `2 ^ 127` makes
the least pot one and a half times the width, and no prize is ever paid. -/
theorem prizes_left_first_bid :
    (∃ more, (ledgerAfter founding 100 ([] ++ more)).transfers = [(7, 300)]) ∧
      ∀ more, (ledgerAfter founding (BitVec.twoPow 128 127) ([] ++ more)).transfers = [] := by
  constructor
  · exact ((prizes_left founding 100 [] (Finset.range 5) (by decide) (by decide)).1 7 300).mpr
      (by decide)
  · exact fun more => ((prizes_left founding (BitVec.twoPow 128 127) [] (Finset.range 5)
      (by decide) (by decide)).2 (by decide) more).1

end Moneybag
end Crain
