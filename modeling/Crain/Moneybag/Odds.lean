/-
Who wins how often.

The draw takes a 64-bit word modulo six to choose among five members.  Over all words the
call that fills the bag has six outcomes, and they are not equally frequent: `2 ^ 64`
leaves remainder four modulo six, so the four members of the bag win by one word more
than the caller, and as many words as the caller wins by trap the call
(`draw_odds`).
-/
import Crain.Machine.Count
import Crain.Moneybag.Prize
import Crain.Moneybag.Draw

namespace Crain
namespace Moneybag

open Machine Machine.Word

variable {AccountId : Type}

/-- A call whose draw is a given word. -/
def Call.drawn (c : Call AccountId) (draw : U64) : Call AccountId :=
  { c with env := { c.env with nextU64 := fun _ => draw } }

/-- The number of words that leave a given remainder modulo six. -/
theorem draws_of_position (i : Nat) :
    (2 ^ 64 / 6 + if i < 2 ^ 64 % 6 then 1 else 0) =
      if i < 4 then 3074457345618258603 else 3074457345618258602 := by
  have hquotient : 2 ^ 64 / 6 = 3074457345618258602 := by decide
  have hremainder : 2 ^ 64 % 6 = 4 := by decide
  rw [hquotient, hremainder]
  split <;> rfl

variable [DecidableEq AccountId]

/-- A call fills the bag with a pot that can be paid to anyone. -/
structure Fills (l : Ledger AccountId) (c : Call AccountId) (total : Balance) : Prop where
  fourth : l.bag.bidsMade = 4
  passes : Passes c.env c.amount l.bag
  sum : getTotalSum (recorded l.bag c.env.caller c.amount) = some total
  transfer : ∀ a, c.env.transfer a total = true

section Fills

variable {l : Ledger AccountId} {c : Call AccountId} {total : Balance}

theorem Fills.length_recorded (h : Fills l c total) (hwf : WellFormed l.bag) :
    (recorded l.bag c.env.caller c.amount).members.length = 5 := by
  rw [recorded_length, (bidsMade_eq_iff hwf 4).mp h.fourth]
  rfl

/-- The call pays the member that is drawn, and traps when none is. -/
theorem Fills.attempt_eq (h : Fills l c total) (hwf : WellFormed l.bag) :
    (attempt l c).map Ledger.transfers =
      (findWinner c.env (recorded l.bag c.env.caller c.amount)).map
        fun winner => l.transfers ++ [(winner, total)] := by
  have hfull := h.length_recorded hwf
  cases hwinner : findWinner c.env (recorded l.bag c.env.caller c.amount) with
  | none =>
    have hnone : attempt l c = none := by
      rw [Option.eq_none_iff_forall_ne_some]
      intro l' hl
      obtain ⟨prize, hprize⟩ := ((exists_attempt_iff hwf).mp ⟨l', hl⟩).2 hfull
      have hnothing : none = some prize.1 := hwinner.symm.trans hprize.2.1
      cases hnothing
    rw [hnone]
    rfl
  | some winner =>
    have hpays : PaysOut c.env (recorded l.bag c.env.caller c.amount) (winner, total) :=
      ⟨h.sum, hwinner, h.transfer winner⟩
    obtain ⟨l', hl⟩ := (exists_attempt_iff hwf).mpr ⟨h.passes, fun _ => ⟨_, hpays⟩⟩
    have hadv := attempt_advances hwf hl
    rw [hl, Option.map_some, Option.map_some, Option.some.injEq]
    cases hadv.transfers with
    | inl hopen =>
      rw [hadv.bag] at hopen
      exact absurd hfull hopen.1
    | inr hpaid =>
      obtain ⟨_, prize, hprize, htransfers⟩ := hpaid
      rw [hadv.bag] at hprize
      have hsum : prize.2 = total := Option.some.inj (hprize.1.symm.trans h.sum)
      have hwon : prize.1 = winner := Option.some.inj (hprize.2.1.symm.trans hwinner)
      rw [htransfers, ← hsum, ← hwon]

/-- Over the draws, the call is a list looked up modulo six. -/
theorem Fills.attempt_drawn (h : Fills l c total) (hwf : WellFormed l.bag)
    (hunpaid : l.transfers = []) (draw : U64) :
    (attempt l (c.drawn draw)).map Ledger.transfers =
      ((recorded l.bag c.env.caller c.amount).members[draw.toNat % 6]?).map
        fun winner => [(winner, total)] := by
  have hdrawn : Fills l (c.drawn draw) total := ⟨h.fourth, h.passes, h.sum, h.transfer⟩
  have hfind : findWinner (c.drawn draw).env (recorded l.bag c.env.caller c.amount) =
      (recorded l.bag c.env.caller c.amount).members[draw.toNat % 6]? :=
    findWinner_eq (hwf.recorded h.passes) _
  rw [hdrawn.attempt_eq hwf, hunpaid, ← hfind]
  rfl

theorem Fills.card_won (h : Fills l c total) (hwf : WellFormed l.bag) (hunpaid : l.transfers = [])
    (member : AccountId) :
    Nat.card {draw : U64 //
        (attempt l (c.drawn draw)).map Ledger.transfers = some [(member, total)]} =
      Nat.card {draw : U64 //
        (recorded l.bag c.env.caller c.amount).members[draw.toNat % 6]? = some member} := by
  refine Nat.card_congr (Equiv.subtypeEquivRight fun draw => ?_)
  rw [h.attempt_drawn hwf hunpaid draw, Option.map_eq_some_iff]
  simp

theorem Fills.card_trapped (h : Fills l c total) (hwf : WellFormed l.bag)
    (hunpaid : l.transfers = []) :
    Nat.card {draw : U64 // attempt l (c.drawn draw) = none} =
      Nat.card {draw : U64 //
        (recorded l.bag c.env.caller c.amount).members[draw.toNat % 6]? = none} := by
  refine Nat.card_congr (Equiv.subtypeEquivRight fun draw => ?_)
  have hdraw := h.attempt_drawn hwf hunpaid draw
  rw [← Option.map_eq_none_iff (f := Ledger.transfers), hdraw, Option.map_eq_none_iff]

end Fills

/-- How many of the `2 ^ 64` words make an account win when the bag is filled, and how
many trap the call. -/
theorem draw_odds (env : Env AccountId) (firstBid : Balance) (calls : List (Call AccountId))
    (c : Call AccountId) (total : Balance) (h : Fills (ledgerAfter env firstBid calls) c total) :
    (∀ member, Nat.card {draw : U64 //
        (attempt (ledgerAfter env firstBid calls) (c.drawn draw)).map Ledger.transfers =
          some [(member, total)]} =
        if member ∈ (ledgerAfter env firstBid calls).bag.members then 3074457345618258603
        else if member = c.env.caller then 3074457345618258602 else 0) ∧
      Nat.card {draw : U64 // attempt (ledgerAfter env firstBid calls) (c.drawn draw) = none} =
        3074457345618258602 := by
  have hwf := wellFormed_ledgerAfter env firstBid calls
  have hlen : (ledgerAfter env firstBid calls).bag.members.length = 4 :=
    (bidsMade_eq_iff hwf 4).mp h.fourth
  have hunpaid := (paysRecorded_ledgerAfter env firstBid calls).1 (by omega)
  have hfive := h.length_recorded hwf
  have hnodup := (hwf.recorded h.passes).nodup
  constructor
  · intro member
    rw [h.card_won hwf hunpaid]
    by_cases hmem : member ∈ (ledgerAfter env firstBid calls).bag.members
    · obtain ⟨i, hi, hentry⟩ := List.getElem_of_mem hmem
      have hdraws := card_draws (w := 64) hnodup (k := 6) (i := i) (by omega) (by omega)
      rw [draws_of_position, if_pos (by omega)] at hdraws
      rw [if_pos hmem, ← hdraws, ← hentry]
      simp only [recorded_members, List.getElem_append_left hi]
    · rw [if_neg hmem]
      by_cases hcaller : member = c.env.caller
      · have hdraws := card_draws (w := 64) hnodup (k := 6) (i := 4) (by omega) (by omega)
        rw [draws_of_position, if_neg (by omega)] at hdraws
        rw [if_pos hcaller, ← hdraws, hcaller]
        simp [hlen]
      · rw [if_neg hcaller]
        refine Nat.card_eq_zero.mpr (Or.inl ⟨fun draw => ?_⟩)
        have hdrawn := List.mem_of_getElem? draw.2
        simp [hmem, hcaller] at hdrawn
  · rw [h.card_trapped hwf hunpaid]
    have hnone := card_draws_none (w := 64)
      (recorded (ledgerAfter env firstBid calls).bag c.env.caller c.amount).members
    rw [hfive, draws_of_position, if_neg (by omega)] at hnone
    exact hnone

/-- The first of five bids of 100 wins by one word more than the last. -/
theorem draw_odds_three :
    let before := ledgerAfter founding 100 threeBids
    let fifth : Call Nat := ⟨drawing 4 0, 100⟩
    Fills before fifth 500 ∧
      Nat.card {draw : U64 // (attempt before (fifth.drawn draw)).map Ledger.transfers =
        some [(0, 500)]} = 3074457345618258603 ∧
      Nat.card {draw : U64 // (attempt before (fifth.drawn draw)).map Ledger.transfers =
        some [(4, 500)]} = 3074457345618258602 := by
  intro before fifth
  have hfills : Fills before fifth 500 :=
    ⟨by decide, ⟨by decide, by decide, by decide⟩, by decide, fun _ => rfl⟩
  have hodds := (draw_odds founding 100 threeBids fifth 500 hfills).1
  have hfirst : (0 : Nat) ∈ (ledgerAfter founding 100 threeBids).bag.members := by decide
  have hlast : (4 : Nat) ∉ (ledgerAfter founding 100 threeBids).bag.members := by decide
  have hcaller : (4 : Nat) = fifth.env.caller := rfl
  refine ⟨hfills, ?_, ?_⟩
  · have h := hodds 0
    rw [if_pos hfirst] at h
    exact h
  · have h := hodds 4
    rw [if_neg hlast, if_pos hcaller] at h
    exact h

end Moneybag
end Crain
