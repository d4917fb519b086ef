/-
Chains with a full history.

After 61 calls no slot of the window is empty and every value in it was computed
by the hook, so all of them lie between the two caps.  This file collects what
the results on long runs share: that range, the fact that a chain that got past
its first block never traps, and the transport of a bound on the gaps between
timestamps along a continuation.
-/
import Mathlib.Data.List.Chain
import Crain.Difficulty.Traps

namespace Crain
namespace Difficulty

open Machine

/-- Neighbouring filled slots have timestamps related by `R`. -/
def WindowGaps (R : Moment → Moment → Prop) (s : Storage) : Prop :=
  ∀ (i : Fin 59) p c, s.slot i.castSucc = some p → s.slot i.succ = some c →
    R p.timestamp c.timestamp

theorem runGenesis_append {T : Moment} {G : Difficulty} {past : List Moment} {s : Storage}
    (h : runGenesis T G past = some s) (more : List Moment) :
    runGenesis T G (past ++ more) = runFrom T s more := by
  have hs : run (onTimestampSet T) (genesis G) past = some s := h
  rw [runGenesis, runFrom, run_append, hs, Option.bind_some]
  rfl

theorem settled_range {T : Moment} (hT : 0 < T.toNat) {G : Difficulty} {past : List Moment}
    {s : Storage} (h : runGenesis T G past = some s) (hlen : 61 ≤ past.length) :
    (view s).All fun x => minD ≤ x ∧ x ≤ maxD := by
  refine Feedback.run_turnover (fun k hk a b _ hab => ?_) h hlen
  rw [eq_next hT hab]
  exact ⟨view_slides _ _ _, view_next_bounds _ _ _⟩

/-- A chain that got past its first block completes every continuation. -/
theorem run_continues {T : Moment} (hT : 0 < T.toNat) {G : Difficulty} {past : List Moment}
    {s : Storage} (h : runGenesis T G past = some s) (hlen : 0 < past.length)
    (more : List Moment) : ∃ t, runFrom T s more = some t := by
  have hfit : 60 * G.toNat * T.toNat < 2 ^ 256 := by
    obtain ⟨a, ha⟩ := exists_run_take h 1
    rw [run_take_succ (genesis G) hlen, List.take_zero, run_nil, Option.bind_some] at ha
    apply Nat.lt_of_not_le
    intro hbig
    rw [(first_call_traps_iff hT G _).mpr hbig] at ha
    cases ha
  obtain ⟨t, ht, _⟩ := run_completes hT hfit (past ++ more)
  rw [runGenesis_append h] at ht
  exact ⟨t, ht⟩

theorem lastSlot_chain {T : Moment} (hT : 0 < T.toNat) {R : Moment → Moment → Prop} {s a : Storage}
    {d : Difficulty} {last : Moment} (hlast : s.slot (Fin.last 59) = some ⟨d, last⟩)
    {more : List Moment} (hchain : (last :: more).IsChain R) {k : Nat} (hk : k < more.length)
    (ha : runFrom T s (more.take k) = some a) :
    ∃ d' prev, a.slot (Fin.last 59) = some ⟨d', prev⟩ ∧ R prev more[k] := by
  have hR := List.isChain_iff_getElem.mp hchain k (by rw [List.length_cons]; omega)
  cases k with
  | zero =>
    have ha0 : s = a := Option.some.inj ha
    rw [← ha0]
    exact ⟨d, last, hlast, hR⟩
  | succ k =>
    obtain ⟨d', hd'⟩ := run_lastSlot hT (by omega) ha
    exact ⟨d', more[k], hd', hR⟩

/-- Timestamps that form a chain give a window that does. -/
theorem run_windowGaps {T : Moment} (hT : 0 < T.toNat) {R : Moment → Moment → Prop}
    {G : Difficulty} {timestamps : List Moment} {s : Storage}
    (h : runGenesis T G timestamps = some s) (hchain : timestamps.IsChain R) :
    WindowGaps R s := by
  refine run_next hT (P := fun _ a => WindowGaps R a) ?_ ?_ h
  · intro i p c hp _
    rw [slot_genesis] at hp
    cases hp
  · intro k hk a ha hgaps i p c hp hc
    rw [slot_next_castSucc] at hp
    cases i using Fin.lastCases with
    | last =>
      rw [Fin.succ_last] at hp hc
      rw [slot_next_last, Option.some.injEq] at hc
      cases k with
      | zero =>
        have ha0 : genesis G = a := Option.some.inj ha
        rw [← ha0, slot_genesis] at hp
        cases hp
      | succ k =>
        obtain ⟨d, hd⟩ := run_lastSlot hT (by omega) ha
        rw [hd, Option.some.injEq] at hp
        rw [← hp, ← hc]
        exact List.isChain_iff_getElem.mp hchain k hk
    | cast i =>
      rw [← Fin.castSucc_succ, slot_next_castSucc] at hc
      exact hgaps i.succ p c hp hc

section Gaps

variable {T : Moment} {R : Moment → Moment → Prop} {P : Nat → Prop}

theorem gapAt_of_windowGaps (hRP : ∀ p c : Moment, R p c → P (c.toNat - p.toNat)) {s : Storage}
    (hfull : ∀ i, ∃ r, s.slot i = some r) (hgaps : WindowGaps R s) (i : Fin 59) :
    P (gapAt T.toNat s i) := by
  obtain ⟨p, hp⟩ := hfull i.castSucc
  obtain ⟨c, hc⟩ := hfull i.succ
  rw [gapAt, hp, hc]
  exact hRP _ _ (hgaps i p c hp hc)

/-- The bound on the gaps is kept along the continuation, the new gap of each
call included. -/
theorem run_gaps (hT : 0 < T.toNat) (hRP : ∀ p c : Moment, R p c → P (c.toNat - p.toNat))
    {G : Difficulty} {past : List Moment} {s : Storage} (h : runGenesis T G past = some s)
    (hlen : 61 ≤ past.length) (hgaps : WindowGaps R s) {d : Difficulty} {last : Moment}
    (hlast : s.slot (Fin.last 59) = some ⟨d, last⟩) {more : List Moment}
    (hchain : (last :: more).IsChain R) {k : Nat} (hk : k < more.length) {a : Storage}
    (ha : runFrom T s (more.take k) = some a) (i : Fin 59) :
    P (gapAt T.toNat (next T a more[k]) i) := by
  have hlastGap : ∀ k (hk : k < more.length) a, runFrom T s (more.take k) = some a →
      P (lastGap T.toNat a more[k]) := by
    intro k hk a ha
    obtain ⟨d', prev, hprev, hR⟩ := lastSlot_chain hT hlast hchain hk ha
    rw [lastGap_of_some hprev]
    exact hRP _ _ hR
  have hall := run_next_take hT (P := fun _ a => ∀ i, P (gapAt T.toNat a i))
    (gapAt_of_windowGaps hRP (fun i => run_filled hT h i (by omega)) hgaps)
    (fun k hk a ha hP => gapAt_next T hP (hlastGap k hk a ha)) k (Nat.le_of_lt hk) a ha
  exact gapAt_next T hall (hlastGap k hk a ha) i

end Gaps

end Difficulty
end Crain
