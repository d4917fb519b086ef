/-
The draw of the winner.

`genRange min max` includes both ends.  Called with the size of the bag as its
upper end it has one outcome more than there are members, and the outcome that
equals the size is no position of a member.  When the fifth bid is written this
is every draw that leaves remainder five modulo six (`draw_succeeds_iff`).
-/
import Crain.Moneybag.Ledger

namespace Crain
namespace Moneybag

open Machine Machine.Word

variable {AccountId : Type}

/-- The generator's output is reduced to the closed interval from `min` to
`max`. -/
theorem genRange_eq (env : Env AccountId) (min max : U64) (user : AccountId)
    (hle : min.toNat ≤ max.toNat) (hfit : max.toNat - min.toNat + 1 < 2 ^ 64) :
    ∃ pos, genRange env min max user = some pos ∧
      pos.toNat = (env.nextU64 user).toNat % (max.toNat - min.toNat + 1) + min.toNat := by
  have hone : (1 : U64).toNat = 1 := rfl
  obtain ⟨width, hw, hwv⟩ := exists_sub? hle
  obtain ⟨count, hc, hcv⟩ := exists_add? (a := width) (b := 1) (by omega)
  have hcount : count.toNat = max.toNat - min.toNat + 1 := by omega
  obtain ⟨offset, ho, hov⟩ := exists_rem? (a := env.nextU64 user) (b := count) (by omega)
  have hmod := Nat.mod_lt (env.nextU64 user).toNat (show 0 < count.toNat by omega)
  have hmax := max.isLt
  obtain ⟨pos, hp, hpv⟩ := exists_add? (a := offset) (b := min) (by omega)
  refine ⟨pos, ?_, ?_⟩
  · simp only [genRange, hw, hc, ho, Option.bind_eq_bind, Option.bind_some]
    exact hp
  · rw [hpv, hov, hcount]

theorem drawn_position {bag : Moneybag AccountId} (h : WellFormed bag) (env : Env AccountId) :
    ∃ pos, genRange env 0 (bag.size.setWidth 64) env.caller = some pos ∧
      pos.toNat = (env.nextU64 env.caller).toNat % 6 := by
  rw [h.size_eq]
  exact genRange_eq env 0 5 env.caller (by decide) (by decide)

theorem findWinner_eq {bag : Moneybag AccountId} (h : WellFormed bag) (env : Env AccountId) :
    findWinner env bag = bag.members[(env.nextU64 env.caller).toNat % 6]? := by
  obtain ⟨pos, hp, hpv⟩ := drawn_position h env
  have hnarrow : (pos.setWidth 32).toNat = (env.nextU64 env.caller).toNat % 6 := by
    rw [BitVec.toNat_setWidth, hpv]
    omega
  rw [findWinner, hp]
  exact congrArg (fun i => bag.members[i]?) hnarrow

variable [DecidableEq AccountId]

/-- When the fifth bid is written, the draw finds a member unless it leaves
remainder five modulo six. -/
theorem draw_succeeds_iff (env₀ : Env AccountId) (firstBid : Balance)
    (calls : List (Call AccountId)) (hfour : (ledgerAfter env₀ firstBid calls).bag.bidsMade = 4)
    (env : Env AccountId) (amount : Balance)
    (hpass : Passes env amount (ledgerAfter env₀ firstBid calls).bag) :
    ∃ bag, recordBid (ledgerAfter env₀ firstBid calls).bag env.caller amount = some bag ∧
      bag.members.length = 5 ∧
      (((∃ pos, genRange env 0 (bag.size.setWidth 64) env.caller = some pos ∧
          pos.toNat < bag.members.length) ∧
        ∃ winner ∈ bag.members, findWinner env bag = some winner) ↔
      (env.nextU64 env.caller).toNat % 6 ≠ 5) := by
  have hwf := wellFormed_ledgerAfter env₀ firstBid calls
  have hwf' := hwf.recorded hpass
  have hlen : (recorded (ledgerAfter env₀ firstBid calls).bag env.caller amount).members.length =
      5 := by
    have hmade := hwf.bidsMade_eq
    rw [hfour] at hmade
    rw [recorded_length, ← hmade]
    rfl
  refine ⟨_, recordBid_eq hwf hpass, hlen, ?_⟩
  obtain ⟨pos, hp, hpv⟩ := drawn_position hwf' env
  rw [findWinner_eq hwf' env, hlen]
  constructor
  · intro h
    obtain ⟨⟨pos', hp', hlt⟩, _⟩ := h
    rw [hp, Option.some.injEq] at hp'
    rw [← hp', hpv] at hlt
    omega
  · intro h
    have hlt : (env.nextU64 env.caller).toNat % 6 < 5 := by omega
    refine ⟨⟨pos, hp, by omega⟩, ?_⟩
    exact ⟨_, List.getElem_mem (by rw [hlen]; exact hlt), List.getElem?_eq_getElem _⟩

/-! ## The fifth of five members -/

/-- A caller on a chain where every transfer goes through. -/
def drawing (caller : Nat) (draw : U64) : Env Nat where
  caller := caller
  transferredValue := 100
  nextU64 := fun _ => draw
  transfer := fun _ _ => true

/-- The constructor's caller, who attaches nothing. -/
def founding : Env Nat := { drawing 0 0 with transferredValue := 0 }

def threeBids : List (Call Nat) := [⟨drawing 1 0, 100⟩, ⟨drawing 2 0, 100⟩, ⟨drawing 3 0, 100⟩]

theorem draw_succeeds_iff_three :
    ∃ bag, recordBid (ledgerAfter founding 100 threeBids).bag 4 100 = some bag ∧
      bag.members.length = 5 ∧
      (((∃ pos, genRange (drawing 4 2) 0 (bag.size.setWidth 64) 4 = some pos ∧
          pos.toNat < bag.members.length) ∧
        ∃ winner ∈ bag.members, findWinner (drawing 4 2) bag = some winner) ↔
      (2 : U64).toNat % 6 ≠ 5) :=
  draw_succeeds_iff founding 100 threeBids (by decide) (drawing 4 2) 100
    ⟨by decide, by decide, by decide⟩

/-- The fifth bid passes the checks, draws position 5 and traps. -/
theorem fifth_bid_traps :
    (ledgerAfter founding 100 threeBids).bag.bidsMade = 4 ∧
      Passes (drawing 4 5) 100 (ledgerAfter founding 100 threeBids).bag ∧
      ∃ bag, recordBid (ledgerAfter founding 100 threeBids).bag 4 100 = some bag ∧
        bag.members = [0, 1, 2, 3, 4] ∧
        genRange (drawing 4 5) 0 (bag.size.setWidth 64) 4 = some 5 ∧
        findWinner (drawing 4 5) bag = none ∧
        (addBid (drawing 4 5) 100 (ledgerAfter founding 100 threeBids).bag.start).isNone := by
  refine ⟨by decide, ⟨by decide, by decide, by decide⟩, _, rfl, ?_⟩
  decide

end Moneybag
end Crain
