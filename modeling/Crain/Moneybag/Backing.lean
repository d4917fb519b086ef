/-
Whether the recorded bids are backed by money.

The contract records the `amount` argument of a bid and never looks at the native
value attached to the call, and its constructor takes no value at all.  The sum of the
recorded bids and the money the callers brought are therefore two independent totals.
They agree in every state of a run exactly when the first bid is zero and each call that
takes effect attaches its amount (`bids_backed_iff`).
-/
import Mathlib.Algebra.BigOperators.Group.List.Basic
import Crain.Moneybag.Ledger

namespace Crain
namespace Moneybag

open Machine Machine.Word

variable {AccountId : Type}

def recordedSum (bag : Moneybag AccountId) : Nat :=
  (bag.members.map fun member => ((bag.bids member).getD 0).toNat).sum

def paid (transfers : List (AccountId × Balance)) : Nat :=
  (transfers.map fun prize => prize.2.toNat).sum

/-- The recorded bids are backed by the attached value, and a prize pays out all
of it. -/
def Backed (l : Ledger AccountId) : Prop :=
  l.attached = recordedSum l.bag ∧
    (∀ total, getTotalSum l.bag = some total → total.toNat = l.attached) ∧
    (l.transfers ≠ [] → paid l.transfers = l.attached)

/-! ## The sum of the bids -/

/-- A loop that looks up a bid for every member adds up the bids it finds. -/
theorem foldlM_bids_eq {bids : AccountId → Option Balance} :
    ∀ (members : List AccountId) (total : Balance), (∀ a ∈ members, (bids a).isSome) →
      members.foldlM (fun total member => do
        let bid ← bids member
        add? total bid) total =
      members.foldlM (fun total member => add? total ((bids member).getD 0)) total
  | [], _, _ => rfl
  | a :: rest, total, h => by
    obtain ⟨bid, hbid⟩ := Option.isSome_iff_exists.mp (h a (List.mem_cons_self ..))
    rw [List.foldlM_cons, List.foldlM_cons]
    simp only [hbid, Option.bind_eq_bind, Option.bind_some, Option.getD_some]
    congr 1
    funext next
    exact foldlM_bids_eq rest next fun b hb => h b (List.mem_cons_of_mem a hb)

theorem getTotalSum_eq_some_iff {bag : Moneybag AccountId} (h : WellFormed bag) {total : Balance} :
    getTotalSum bag = some total ↔ total.toNat = recordedSum bag := by
  rw [getTotalSum, foldlM_bids_eq bag.members 0 fun a ha => (h.domain a).mpr ha,
    foldlM_add?_zero_eq_some_iff]
  rfl

/-- Before the last bid nothing is paid, and then the prize is the recorded
sum. -/
def PaysRecorded (l : Ledger AccountId) : Prop :=
  (l.bag.members.length ≠ 5 → l.transfers = []) ∧
    (l.bag.members.length = 5 → paid l.transfers = recordedSum l.bag)

theorem backed_of_attached {l : Ledger AccountId} (hwf : WellFormed l.bag)
    (hpays : PaysRecorded l) (h : l.attached = recordedSum l.bag) : Backed l := by
  refine ⟨h, fun total htotal => ?_, fun hne => ?_⟩
  · rw [h]
    exact (getTotalSum_eq_some_iff hwf).mp htotal
  · rw [h]
    apply hpays.2
    by_contra hlen
    exact hne (hpays.1 hlen)

/-! ## Runs -/

section Runs

variable [DecidableEq AccountId]

@[simp] theorem recordedSum_new (env : Env AccountId) (firstBid : Balance) :
    recordedSum (new env firstBid) = firstBid.toNat := by
  simp [recordedSum, new]

theorem recordedSum_recorded {bag : Moneybag AccountId} {caller : AccountId} {amount : Balance}
    (hnew : caller ∉ bag.members) :
    recordedSum (recorded bag caller amount) = recordedSum bag + amount.toNat := by
  have hold : ∀ a ∈ bag.members, (((recorded bag caller amount).bids a).getD 0).toNat =
      ((bag.bids a).getD 0).toNat := by
    intro a ha
    have hne : a ≠ caller := fun heq => hnew (heq ▸ ha)
    rw [recorded_bids_of_ne hne]
  rw [recordedSum, recorded_members, List.map_append, List.sum_append, List.map_congr_left hold]
  simp [recordedSum]

theorem Advances.paysRecorded {l l' : Ledger AccountId} {c : Call AccountId}
    (h : Advances l l' c) (hwf : WellFormed l.bag) (hpays : PaysRecorded l) :
    PaysRecorded l' := by
  have hempty : l.transfers = [] := by
    apply hpays.1
    exact Nat.ne_of_lt (h.passes.length_lt hwf)
  rcases h.transfers with hopen | hfull
  · refine ⟨fun _ => ?_, fun hlen => absurd hlen hopen.1⟩
    rw [hopen.2, hempty]
  · obtain ⟨hlen, prize, hprize, htransfers⟩ := hfull
    refine ⟨fun hne => absurd hlen hne, fun _ => ?_⟩
    have hwf' : WellFormed l'.bag := by
      rw [h.bag]
      exact hwf.recorded h.passes
    rw [htransfers, hempty, ← (getTotalSum_eq_some_iff hwf').mp hprize.1]
    simp [paid]

theorem paysRecorded_ledgerAfter (env : Env AccountId) (firstBid : Balance)
    (calls : List (Call AccountId)) : PaysRecorded (ledgerAfter env firstBid calls) := by
  have h0 : PaysRecorded (deployed env firstBid) :=
    ⟨fun _ => rfl, fun h => absurd h (show 1 ≠ 5 by omega)⟩
  have h := ledgerAfter_invariant h0
    (fun k (_ : k < calls.length) l' _ hadv hprev =>
      hadv.paysRecorded (wellFormed_ledgerAfter _ _ _) hprev)
    calls.length (Nat.le_refl _)
  rw [List.take_length] at h
  exact h

/-- From an unpaid deployment the recorded bids are backed after every prefix of the calls
exactly when the first bid is zero and every admitted call attaches its amount. -/
theorem backed_ledgerAfter_iff (env : Env AccountId) (firstBid : Balance)
    (calls : List (Call AccountId)) :
    (∀ k, k ≤ calls.length → Backed (ledgerAfter env firstBid (calls.take k))) ↔
      firstBid = 0 ∧ ∀ k (hk : k < calls.length),
        Admits calls[k] (ledgerAfter env firstBid (calls.take k)).bag →
          calls[k].env.transferredValue = calls[k].amount := by
  have hfirst : (deployed env firstBid).attached = recordedSum (deployed env firstBid).bag ↔
      firstBid = 0 := by
    show 0 = recordedSum (new env firstBid) ↔ _
    rw [recordedSum_new, eq_comm, ← BitVec.toNat_inj]
    rfl
  have hcalls := fun h0 : (deployed env firstBid).attached =
      recordedSum (deployed env firstBid).bag =>
    ledgerAfter_forall_iff (P := fun l => l.attached = recordedSum l.bag)
      (Q := fun c _ => c.env.transferredValue = c.amount) h0
      fun k (hk : k < calls.length) l' hadv hprev => by
        rw [hadv.attached, hadv.bag, recordedSum_recorded hadv.passes.2.2, hprev,
          Nat.add_left_cancel_iff, BitVec.toNat_inj]
  constructor
  · intro h
    have h0 := (h 0 (Nat.zero_le _)).1
    exact ⟨hfirst.mp h0, (hcalls h0).mp fun k hk => (h k hk).1⟩
  · intro h k hk
    have hattached := (hcalls (hfirst.mpr h.1)).mpr h.2 k hk
    exact backed_of_attached (wellFormed_ledgerAfter env firstBid _)
      (paysRecorded_ledgerAfter env firstBid _) hattached

/-- The recorded bids of a contract are backed in every state of a run exactly when its
deployment was refused, or the first bid is zero and every admitted call attaches its
amount. -/
theorem bids_backed_iff (env : Env AccountId) (firstBid : Balance)
    (calls : List (Call AccountId)) :
    (∀ l, deploy env firstBid = some l →
      ∀ k, k ≤ calls.length → Backed (commitAll attempt l (calls.take k))) ↔
      (env.transferredValue = 0 → firstBid = 0 ∧ ∀ k (hk : k < calls.length),
        Admits calls[k] (ledgerAfter env firstBid (calls.take k)).bag →
          calls[k].env.transferredValue = calls[k].amount) := by
  rw [← backed_ledgerAfter_iff]
  constructor
  · intro h hunpaid
    exact h _ (if_pos hunpaid)
  · intro h l hdeploy
    unfold deploy at hdeploy
    split at hdeploy
    · rename_i hunpaid
      rw [← Option.some.inj hdeploy]
      exact h hunpaid
    · cases hdeploy

end Runs

/-- A first bid of 100 is recorded although an endowment to back it is refused. -/
theorem first_bid_unfunded :
    let env : Env Nat := ⟨0, 0, fun _ => 0, fun _ _ => true⟩
    deploy { env with transferredValue := 100 } 100 = none ∧
      ∃ l, deploy env 100 = some l ∧ l.attached = 0 ∧ getTotalSum l.bag = some 100 ∧
        ¬ Backed l := by
  intro env
  have hattached : (deployed env 100).attached = 0 := rfl
  have hsum : recordedSum (deployed env 100).bag = 100 := by decide
  refine ⟨rfl, deployed env 100, rfl, hattached, by decide, fun h => ?_⟩
  have heq := h.1
  rw [hattached, hsum] at heq
  omega

end Moneybag
end Crain
