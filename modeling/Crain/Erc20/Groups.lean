/-
Calls of separate groups of accounts.

Suppose no call names accounts on both sides of a line between the accounts.  The calls on one
side then go as if those on the other had never been made: each is answered alike, and the
balances, the allowances and the events of its side are the same at the end
(`groups_independent`).  That holds however the two sides are interleaved, and whether or not
calls fail.  The rule behind it is `answersTo_unwind`.
-/
import Crain.Erc20.Ideal

namespace Crain
namespace Erc20

open Machine

variable {AccountId : Type}

/-- The accounts a call names, its caller included. -/
def Call.accounts (c : Call AccountId) : List AccountId :=
  match c.message with
  | .transfer target _ => [c.caller, target]
  | .approve spender _ => [c.caller, spender]
  | .transferFrom source target _ => [c.caller, source, target]

def Event.accounts : Event AccountId → List AccountId
  | .transfer source target _ => source.toList ++ target.toList
  | .approval owner spender _ => [owner, spender]

section Sides

variable (side : AccountId → Bool)

/-- Everything a call names is on the given side. -/
def Call.within (c : Call AccountId) : Bool := c.accounts.all side

def Event.within (e : Event AccountId) : Bool := e.accounts.all side

/-- A call names accounts on one side only. -/
def Call.OneSided (c : Call AccountId) : Prop :=
  (∀ a ∈ c.accounts, side a = true) ∨ ∀ a ∈ c.accounts, side a = false

/-- Two states look alike from the given side. -/
structure Agree (x y : Exec AccountId) : Prop where
  conserved : Conserved x.token ∧ Conserved y.token
  balances : ∀ a, side a = true → x.token.balanceOf a = y.token.balanceOf a
  allowances : ∀ o s, side o = true → side s = true →
    x.token.allowance o s = y.token.allowance o s
  events : x.events.filter (Event.within side) = y.events.filter (Event.within side)

end Sides

variable {side : AccountId → Bool} {x y x' y' : Exec AccountId} {c : Call AccountId}

theorem Call.within_iff : c.within side = true ↔ ∀ a ∈ c.accounts, side a = true := by
  rw [Call.within, List.all_eq_true]

theorem Call.outside (h : c.OneSided side) (hwithin : c.within side = false) :
    ∀ a ∈ c.accounts, side a = false := by
  rcases h with hin | hout
  · rw [Call.within_iff.mpr hin] at hwithin
    cases hwithin
  · exact hout

/-- The caller is always named. -/
theorem Call.caller_mem (c : Call AccountId) : c.caller ∈ c.accounts := by
  obtain ⟨caller, message⟩ := c
  cases message <;> exact List.mem_cons_self

theorem ne_of_sides {a b : AccountId} (ha : side a = true) (hb : side b = false) : b ≠ a := by
  intro heq
  rw [heq, ha] at hb
  cases hb

theorem event_outside (hc : ∀ a ∈ c.accounts, side a = false) : c.event.within side = false := by
  have hcaller := hc _ c.caller_mem
  obtain ⟨caller, message⟩ := c
  cases message with
  | transfer target value => simp [Call.event, Event.within, Event.accounts, hcaller]
  | approve spender value => simp [Call.event, Event.within, Event.accounts, hcaller]
  | transferFrom source target value =>
    have hsource := hc source (by simp [Call.accounts])
    simp [Call.event, Event.within, Event.accounts, hsource]

theorem response_congr (h : Agree side x y) (hc : ∀ a ∈ c.accounts, side a = true) :
    (ideal x).response c = (ideal y).response c := by
  have hcaller := hc _ c.caller_mem
  obtain ⟨caller, message⟩ := c
  cases message with
  | transfer target value =>
    have hbalance := h.balances caller hcaller
    show (if (x.token.balanceOf caller).toNat < value.toNat then _ else _) = _
    rw [hbalance]
    rfl
  | approve spender value => rfl
  | transferFrom source target value =>
    have hsource : side source = true := hc source (by simp [Call.accounts])
    have hbalance := h.balances source hsource
    have hallowance := h.allowances source caller hsource hcaller
    show (if (x.token.allowance source caller).toNat < value.toNat then _
      else if (x.token.balanceOf source).toNat < value.toNat then _ else _) = _
    rw [hbalance, hallowance]
    rfl

section Calls

variable [DecidableEq AccountId]

/-! ## Within the side -/

theorem Performs.agree (h : Agree side x y) (hx : Performs c x x') (hy : Performs c y y') :
    Agree side x' y' where
  conserved := ⟨hx.conserved h.conserved.1, hy.conserved h.conserved.2⟩
  balances a ha := by
    have hbalance := h.balances a ha
    have hxa := hx.balances a
    have hya := hy.balances a
    rw [hbalance] at hxa
    apply BitVec.eq_of_toNat_eq
    omega
  allowances o s ho hs := by
    have hxs := hx.allowances o s
    have hys := hy.allowances o s
    rw [h.allowances o s ho hs] at hxs
    apply BitVec.eq_of_toNat_eq
    omega
  events := by
    rw [hx.events, hy.events, List.filter_append, List.filter_append, h.events]

/-- A call within the side is answered alike in states that look alike. -/
theorem serve_within (hc : ∀ a ∈ c.accounts, side a = true) (h : Agree side x y) :
    (serve x c).1 = (serve y c).1 ∧ Agree side (serve x c).2 (serve y c).2 := by
  have hsame := response_congr h hc
  rcases serve_response h.conserved.1 c with ⟨hrx, x', hx, hxperforms⟩ | ⟨e, hrx, hx⟩
  · rcases serve_response h.conserved.2 c with ⟨_, y', hy, hyperforms⟩ | ⟨e, hry, _⟩
    · rw [hx, hy]
      exact ⟨rfl, hxperforms.agree h hyperforms⟩
    · rw [hsame, hry] at hrx
      cases hrx
  · rcases serve_response h.conserved.2 c with ⟨hry, _⟩ | ⟨e', hry, hy⟩
    · rw [hsame, hry] at hrx
      cases hrx
    · rw [hsame, hry, Except.error.injEq] at hrx
      rw [hx, hy, hrx]
      exact ⟨rfl, h⟩

/-! ## Beyond it -/

theorem flow_eq_zero {source target a : AccountId} {value : Nat} (hsource : source ≠ a)
    (htarget : target ≠ a) :
    (⟨some source, some target, value⟩ : Posting AccountId).flow a = 0 := by
  rw [Posting.flow_apply, if_neg fun h => htarget (Option.some.inj h),
    if_neg fun h => hsource (Option.some.inj h), sub_zero]

/-- A call beyond the side posts nothing to its accounts. -/
theorem net_outside (hc : ∀ a ∈ c.accounts, side a = false) {a : AccountId}
    (ha : side a = true) : Posting.net (postings [c.event]) a = 0 := by
  obtain ⟨caller, message⟩ := c
  cases message with
  | transfer target value =>
    have hcaller := ne_of_sides ha (hc caller (by simp [Call.accounts]))
    have htarget := ne_of_sides ha (hc target (by simp [Call.accounts]))
    rw [Call.event, postings_transfer, Posting.net_singleton]
    exact flow_eq_zero hcaller htarget
  | approve spender value => rfl
  | transferFrom source target value =>
    have hsource := ne_of_sides ha (hc source (by simp [Call.accounts]))
    have htarget := ne_of_sides ha (hc target (by simp [Call.accounts]))
    rw [Call.event, postings_transfer, Posting.net_singleton]
    exact flow_eq_zero hsource htarget

/-- It neither sets nor draws on their allowances. -/
theorem allowance_outside (hc : ∀ a ∈ c.accounts, side a = false) {o : AccountId}
    (ho : side o = true) (s : AccountId) :
    c.approves o s = none ∧ c.withdraws o s = 0 := by
  obtain ⟨caller, message⟩ := c
  cases message with
  | transfer target value => exact ⟨rfl, rfl⟩
  | approve spender value =>
    have hcaller := ne_of_sides ho (hc caller (by simp [Call.accounts]))
    exact ⟨if_neg fun h => hcaller h.1, rfl⟩
  | transferFrom source target value =>
    have hsource := ne_of_sides ho (hc source (by simp [Call.accounts]))
    exact ⟨rfl, if_neg fun h => hsource h.1⟩

/-- A call beyond the side changes nothing that can be seen from it. -/
theorem serve_outside (hc : ∀ a ∈ c.accounts, side a = false) (h : Agree side x y) :
    Agree side (serve x c).2 y := by
  rcases serve_response h.conserved.1 c with ⟨_, x', hx, hperforms⟩ | ⟨e, _, hx⟩
  · rw [hx]
    refine ⟨⟨hperforms.conserved h.conserved.1, h.conserved.2⟩, ?_, ?_, ?_⟩
    · intro a ha
      have hbalance := hperforms.balances a
      rw [net_outside hc ha, add_zero, Nat.cast_inj] at hbalance
      exact (BitVec.eq_of_toNat_eq hbalance).trans (h.balances a ha)
    · intro o s ho hs
      have hallowance := hperforms.allowances o s
      obtain ⟨happroves, hwithdraws⟩ := allowance_outside hc ho s
      rw [happroves, hwithdraws, Nat.add_zero, Option.getD_none] at hallowance
      exact (BitVec.eq_of_toNat_eq hallowance).trans (h.allowances o s ho hs)
    · show x'.events.filter (Event.within side) = _
      rw [hperforms.events, List.filter_append, h.events]
      simp [event_outside hc]
  · rw [hx]
    exact h

end Calls

/-- The calls on one side are answered, and leave their side, as if the calls on the other
had never been made. -/
theorem groups_independent [DecidableEq AccountId] (side : AccountId → Bool) (x : Exec AccountId)
    (hx : Conserved x.token) (calls : List (Call AccountId))
    (hcalls : ∀ c ∈ calls, c.OneSided side) :
    answersTo serve (Call.within side) x calls =
        answers serve x (calls.filter (Call.within side)) ∧
      Agree side (commitAll attempt x calls)
        (commitAll attempt x (calls.filter (Call.within side))) := by
  have hstart : Agree side x x := ⟨⟨hx, hx⟩, fun _ _ => rfl, fun _ _ _ _ => rfl, rfl⟩
  rw [← finalState_serve, ← finalState_serve]
  refine answersTo_unwind ?_ ?_ hstart
  · intro s t c hc hwithin h
    exact serve_within (Call.within_iff.mp hwithin) h
  · intro s t c hc hwithin h
    exact serve_outside (Call.outside (hcalls c hc) hwithin) h

/-- Two accounts that trade with each other while two others do. -/
theorem groups_independent_pairs :
    let x : Exec Nat := ledgerAfter 0 100 [⟨0, .transfer 2 50⟩]
    (commitAll attempt x [⟨2, .transfer 3 5⟩]).token.balanceOf 3 = 5 ∧
      Agree (fun a : Nat => decide (a ≤ 1))
        (commitAll attempt x [⟨0, .transfer 1 10⟩, ⟨2, .transfer 3 5⟩, ⟨1, .transfer 0 4⟩])
        (commitAll attempt x [⟨0, .transfer 1 10⟩, ⟨1, .transfer 0 4⟩]) := by
  intro x
  refine ⟨by decide, ?_⟩
  exact (groups_independent (fun a : Nat => decide (a ≤ 1)) x
    (supplied_ledgerAfter 0 100 [⟨0, .transfer 2 50⟩]).1
    [⟨0, .transfer 1 10⟩, ⟨2, .transfer 3 5⟩, ⟨1, .transfer 0 4⟩]
    (by simp [Call.OneSided, Call.accounts])).2

end Erc20
end Crain
