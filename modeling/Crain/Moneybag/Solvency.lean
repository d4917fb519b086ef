/-
Whether the pot can be paid from the money the callers brought.

The pot is the sum of the recorded bids, and the contract pays it with what was attached
to the calls.  Nothing is attached to the first bid, as the constructor takes no value.  Let
the chain make a transfer exactly when the funds of the contract cover it and a reserve, and
let no caller attach more than the bid (`Fair`).  Bids that exceed the attached value are
then never made good: the fifth bid traps for every caller, the bag stays open and the
contract keeps all it was given.  Otherwise callers who attach their bids can still pay every
prize that `prizes_left` leaves (`solvent_prizes`).
-/
import Crain.Moneybag.Payable

namespace Crain
namespace Moneybag

open Machine

variable {AccountId : Type}

/-- Whether the funds cover a transfer and the reserve, when a call has attached a value. -/
def Covers (reserve : Nat) (l : Ledger AccountId) (value prize : Balance) : Prop :=
  paid l.transfers + prize.toNat + reserve ≤ l.attached + value.toNat

instance (reserve : Nat) (l : Ledger AccountId) (value prize : Balance) :
    Decidable (Covers reserve l value prize) := inferInstanceAs (Decidable (_ ≤ _))

/-- The bids and the reserve exceed what the callers attached. -/
def Short (reserve : Nat) (l : Ledger AccountId) : Prop :=
  l.attached < recordedSum l.bag + reserve

/-- A call that attaches at most its bid, on a chain that looks at the funds. -/
structure Fair (reserve : Nat) (l : Ledger AccountId) (c : Call AccountId) : Prop where
  attaches : c.env.transferredValue.toNat ≤ c.amount.toNat
  transfer : ∀ receiver prize, c.env.transfer receiver prize = true ↔
    Covers reserve l c.env.transferredValue prize

/-- An open bag that is short. -/
structure Stuck (reserve : Nat) (l : Ledger AccountId) : Prop where
  wellFormed : WellFormed l.bag
  open_lt : l.bag.members.length < 5
  unpaid : l.transfers = []
  short : Short reserve l

variable {reserve : Nat}

/-! ## Paying with money -/

/-- The chain that looks at the funds. -/
def fromFunds (reserve : Nat) : Policy AccountId :=
  fun l value _ prize => decide (Covers reserve l value prize)

theorem Obeys.fair {l : Ledger AccountId} {c : Call AccountId}
    (h : Obeys (fromFunds reserve) l c) : Fair reserve l c where
  attaches := by rw [h.1]
  transfer receiver prize := by
    rw [h.2]
    exact decide_eq_true_iff

/-- What is not short covers its pot when the last bid is attached. -/
theorem covers_of_not_short {l l' : Ledger AccountId} (h : ¬ Short reserve l)
    (hunpaid : l'.transfers = [])
    (hexcess : (l'.attached - recordedSum l'.bag : Int) = l.attached - recordedSum l.bag)
    {amount prize : Balance} (hpot : recordedSum l'.bag + amount.toNat = prize.toNat) :
    Covers reserve l' amount prize := by
  have hle : recordedSum l.bag + reserve ≤ l.attached := Nat.le_of_not_lt h
  show paid l'.transfers + prize.toNat + reserve ≤ l'.attached + amount.toNat
  rw [hunpaid]
  show 0 + prize.toNat + reserve ≤ l'.attached + amount.toNat
  omega

/-! ## A shortfall stays -/

variable [DecidableEq AccountId]

theorem Advances.short {l l' : Ledger AccountId} {c : Call AccountId} (h : Advances l l' c)
    (hattaches : c.env.transferredValue.toNat ≤ c.amount.toNat) (hshort : Short reserve l) :
    Short reserve l' := by
  show l'.attached < recordedSum l'.bag + reserve
  have hlt : l.attached < recordedSum l.bag + reserve := hshort
  rw [h.attached, h.bag, recordedSum_recorded h.passes.2.2]
  omega

/-- A short contract accepts no fifth bid. -/
theorem Stuck.attempt {l l' : Ledger AccountId} {c : Call AccountId} (h : Stuck reserve l)
    (hfair : Fair reserve l c) (hl : attempt l c = some l') : Stuck reserve l' := by
  have hadv := attempt_advances h.wellFormed hl
  have hshort := hadv.short hfair.attaches h.short
  have hwf : WellFormed l'.bag := by
    rw [hadv.bag]
    exact h.wellFormed.recorded hadv.passes
  cases hadv.transfers with
  | inl hopen =>
    exact ⟨hwf, Nat.lt_of_le_of_ne hwf.length_le hopen.1, hopen.2.trans h.unpaid, hshort⟩
  | inr hpaid =>
    obtain ⟨_, prize, hprize, _⟩ := hpaid
    have hpot := (getTotalSum_eq_some_iff hwf).mp hprize.1
    have hcovers := (hfair.transfer prize.1 prize.2).mp hprize.2.2
    have hle : recordedSum l'.bag + reserve ≤ l'.attached := by
      rw [hadv.attached, ← hpot]
      rw [Covers, h.unpaid] at hcovers
      exact Nat.le_trans (Nat.add_le_add_right (Nat.le_add_left _ _) _) hcovers
    exact absurd hshort (Nat.not_lt_of_le hle)

theorem Stuck.commitAll {l : Ledger AccountId} (h : Stuck reserve l) {more : List (Call AccountId)}
    (hmore : Follows Moneybag.attempt (Fair reserve) l more) :
    Stuck reserve (commitAll Moneybag.attempt l more) :=
  commitAll_of_follows (fun _ _ _ hl hfair hstep => hl.attempt hfair hstep) h hmore

/-! ## The prizes -/

/-- From any reachable ledger with a free place, fair calls can still pay a prize exactly
when the contract is not short and the prize is at least the least pot.  A short contract
never pays and never fills its bag. -/
theorem solvent_prizes (env : Env AccountId) (firstBid : Balance) (calls : List (Call AccountId))
    (reserve : Nat) (accounts : Finset AccountId) (haccounts : 5 ≤ accounts.card)
    (hopen : (ledgerAfter env firstBid calls).bag.bidsMade ≠ 5) :
    (∀ winner (prize : Balance),
      (∃ more, Follows attempt (Fair reserve) (ledgerAfter env firstBid calls) more ∧
        (ledgerAfter env firstBid (calls ++ more)).transfers = [(winner, prize)]) ↔
          ¬ Short reserve (ledgerAfter env firstBid calls) ∧
            leastPot (ledgerAfter env firstBid calls).bag ≤ prize.toNat) ∧
      (Short reserve (ledgerAfter env firstBid calls) → ∀ more,
        Follows attempt (Fair reserve) (ledgerAfter env firstBid calls) more →
          (ledgerAfter env firstBid (calls ++ more)).transfers = [] ∧
            (ledgerAfter env firstBid (calls ++ more)).bag.bidsMade ≠ 5) := by
  have hwf := wellFormed_ledgerAfter env firstBid calls
  have hlt := length_lt_of_open hwf hopen
  have hunpaid := (paysRecorded_ledgerAfter env firstBid calls).1 (Nat.ne_of_lt hlt)
  have hstuck : Short reserve (ledgerAfter env firstBid calls) → ∀ more,
      Follows attempt (Fair reserve) (ledgerAfter env firstBid calls) more →
        Stuck reserve (ledgerAfter env firstBid (calls ++ more)) := fun hshort more hmore => by
    rw [ledgerAfter_append]
    exact Stuck.commitAll ⟨hwf, hlt, hunpaid, hshort⟩ hmore
  constructor
  · intro winner prize
    constructor
    · intro h
      obtain ⟨more, hmore, hpaid⟩ := h
      refine ⟨fun hshort => ?_, leastPot_le_prize hpaid⟩
      rw [(hstuck hshort more hmore).unpaid] at hpaid
      cases hpaid
    · intro h
      obtain ⟨hsolvent, hpot⟩ := h
      obtain ⟨fresh, hne, hlen, hnodup, hwinner⟩ := exists_places hwf hlt haccounts winner
      obtain ⟨more, hobeys, hmore⟩ := exists_calls_pay (fromFunds reserve)
        (fun l amount hnone hexcess hsum => decide_eq_true
          (covers_of_not_short hsolvent hnone hexcess hsum))
        fresh hwf hne hlen hnodup hwinner hpot hunpaid rfl
      refine ⟨more, hobeys.mono fun _ _ => Obeys.fair, ?_⟩
      rw [ledgerAfter_append]
      exact hmore
  · intro hshort more hmore
    have h := hstuck hshort more hmore
    refine ⟨h.unpaid, fun hfull => ?_⟩
    exact Nat.ne_of_lt h.open_lt ((bidsMade_eq_iff h.wellFormed 5).mp hfull)

/-- After `new(0)` and a bid of 100 with its money the prize of 250 can still be paid.  After
`new(100)` no prize is ever paid, since nothing was attached to the first bid. -/
theorem solvent_prizes_first_bid :
    (∃ more, Follows attempt (Fair 0) (ledgerAfter founding 0 [⟨drawing 1 0, 100⟩]) more ∧
      (ledgerAfter founding 0 ([⟨drawing 1 0, 100⟩] ++ more)).transfers = [(7, 250)]) ∧
      ∀ more, Follows attempt (Fair 0) (ledgerAfter founding 100 []) more →
        (ledgerAfter founding 100 ([] ++ more)).transfers = [] := by
  constructor
  · refine ((solvent_prizes founding 0 [⟨drawing 1 0, 100⟩] 0 (Finset.range 5) (by decide)
      (by decide)).1 7 250).mpr ⟨?_, by decide⟩
    show ¬ _ < _
    decide
  · intro more hmore
    refine ((solvent_prizes founding 100 [] 0 (Finset.range 5) (by decide) (by decide)).2 ?_ more
      hmore).1
    show _ < _
    decide

end Moneybag
end Crain
