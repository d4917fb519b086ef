/-
The log of events against the storage.

The contract writes balances and events separately.  Read as postings, the log
determines the balances: every account holds what was posted to it less what was
posted from it (`log_determines_balances`).  The constructor's event is the only
one without a source, and every prefix of the log was the whole log once, so no
prefix leaves an account in debt.
-/
import Crain.Erc20.Ledger

namespace Crain
namespace Erc20

open Machine

variable {AccountId : Type}

/-- The event creates tokens: its `from` is `None`. -/
def Event.mints : Event AccountId → Bool
  | .transfer none _ _ => true
  | _ => false

/-- What the log says about the storage. -/
structure Accounted (caller : AccountId) (x : Exec AccountId) : Prop where
  balances : ∀ a, ((x.token.balanceOf a).toNat : ℤ) = Posting.net (postings x.events) a
  solvent : ∀ k a, 0 ≤ Posting.net (postings (x.events.take k)) a
  minted : x.events.filter Event.mints = [.transfer none (some caller) x.token.totalSupply]

/-- A prefix of a log with one more event is a prefix of the old log or all of the
new one. -/
theorem take_concat (events : List (Event AccountId)) (e : Event AccountId) (k : Nat) :
    (events ++ [e]).take k = events.take k ∨ (events ++ [e]).take k = events ++ [e] := by
  by_cases hk : k ≤ events.length
  · exact Or.inl (List.take_append_of_le_length hk)
  · exact Or.inr (List.take_of_length_le (by rw [List.length_append, List.length_singleton]; omega))

@[simp] theorem event_mints (c : Call AccountId) : c.event.mints = false := by
  obtain ⟨caller, message⟩ := c
  cases message <;> rfl

section Chain

variable [DecidableEq AccountId]

theorem accounted_new (caller : AccountId) (initialSupply : Balance) :
    Accounted caller (new caller initialSupply) := by
  have hevents : (new caller initialSupply).events = [.transfer none (some caller) initialSupply] :=
    rfl
  refine ⟨fun a => ?_, fun k a => ?_, rfl⟩
  · rw [hevents, postings_transfer, Posting.net_singleton, Posting.flow_apply]
    by_cases ha : a = caller
    · simp [new, newInit, Exec.insertBalance, balanceOf, ha]
    · simp [new, newInit, Exec.insertBalance, balanceOf, ha, Ne.symm ha]
  · rw [hevents]
    rcases take_concat [] (.transfer none (some caller) initialSupply) k with hk | hk
    · rw [← List.nil_append [_], hk]
      simp [postings]
    · rw [← List.nil_append [_], hk, List.nil_append, postings_transfer, Posting.net_singleton,
        Posting.flow_apply]
      by_cases ha : some caller = some a <;> simp [ha]

theorem Performs.accounted {c : Call AccountId} {x y : Exec AccountId} {caller : AccountId}
    (h : Performs c x y) (hx : Accounted caller x) : Accounted caller y := by
  have hbalances : ∀ a, ((y.token.balanceOf a).toNat : ℤ) = Posting.net (postings y.events) a := by
    intro a
    rw [h.balances, hx.balances, h.events, postings_append, Posting.net_append, Finsupp.add_apply]
  refine ⟨hbalances, fun k a => ?_, ?_⟩
  · rw [h.events]
    rcases take_concat x.events c.event k with hk | hk
    · rw [hk]
      exact hx.solvent k a
    · rw [hk, ← h.events, ← hbalances]
      exact Int.natCast_nonneg _
  · rw [h.events, List.filter_append, hx.minted, h.totalSupply]
    simp

theorem accounted_ledgerAfter (caller : AccountId) (initialSupply : Balance)
    (calls : List (Call AccountId)) : Accounted caller (ledgerAfter caller initialSupply calls) :=
  commitAll_stable (I := Accounted caller) (fun _ _ _ hx h => (attempt_performs h).accounted hx)
    (accounted_new caller initialSupply) calls

/-- The log of transfers determines the balances. -/
theorem log_determines_balances (caller : AccountId) (initialSupply : Balance)
    (calls : List (Call AccountId)) :
    (∀ a, (((ledgerAfter caller initialSupply calls).token.balanceOf a).toNat : ℤ) =
        (Posting.received (postings (ledgerAfter caller initialSupply calls).events) a : ℤ) -
          Posting.spent (postings (ledgerAfter caller initialSupply calls).events) a) ∧
      (ledgerAfter caller initialSupply calls).events.filter Event.mints =
        [.transfer none (some caller) (ledgerAfter caller initialSupply calls).token.totalSupply] ∧
      ∀ k a, Posting.spent
          (postings ((ledgerAfter caller initialSupply calls).events.take k)) a ≤
        Posting.received (postings ((ledgerAfter caller initialSupply calls).events.take k)) a := by
  have hx := accounted_ledgerAfter caller initialSupply calls
  refine ⟨fun a => ?_, hx.minted, fun k a => ?_⟩
  · rw [hx.balances, Posting.net_apply]
  · have hsolvent := hx.solvent k a
    rw [Posting.net_apply] at hsolvent
    omega

end Chain

end Erc20
end Crain
