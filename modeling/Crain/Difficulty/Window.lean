/-
The sliding window of the difficulty pallet.

`view` reads the storage as a feedback window of 60 difficulties whose current
output is `CurrentDifficulty`, and `view_slides` says that one call moves that
window by one slot.  The bounds on the window sum and on the covered time that
the later files need are here, together with the facts about a whole run that do
not depend on the arithmetic: the initial difficulty never changes, the last
slot holds the last timestamp, and slots fill up from the back.
-/
import Crain.Difficulty.Exact

namespace Crain
namespace Difficulty

open Machine

/-! ## The window of one call -/

def view (s : Storage) : Feedback Nat 59 where
  window i := slotDifficulty s.initialDifficulty.toNat (s.slot i)
  current := s.currentDifficulty.toNat

theorem view_slides (T : Moment) (s : Storage) (now : Moment) :
    (view s).Slides (view (next T s now)) := by
  constructor
  · intro i
    show slotDifficulty s.initialDifficulty.toNat ((next T s now).slot i.castSucc) = _
    rw [slot_next_castSucc]
    rfl
  · show slotDifficulty s.initialDifficulty.toNat ((next T s now).slot (Fin.last 59)) = _
    rw [slot_next_last]
    rfl

@[simp] theorem view_next_current (T : Moment) (s : Storage) (now : Moment) :
    (view (next T s now)).current = nextDifficulty T s now :=
  next_currentDifficulty T s now

theorem view_next_bounds (T : Moment) (s : Storage) (now : Moment) :
    minD ≤ (view (next T s now)).current ∧ (view (next T s now)).current ≤ maxD := by
  rw [view_next_current]
  exact retarget_bounds _ _ _

theorem windowSum_le {s : Storage} {c : Nat} (h : (view s).All (· ≤ c)) (now : Moment) :
    windowSum s.initialDifficulty.toNat (nextWindow s now) ≤ 60 * c := by
  have hle : ∑ i : Fin 60, (view (next 0 s now)).window i ≤ ∑ _i : Fin 60, c :=
    Finset.sum_le_sum fun i _ => h.window_slide (view_slides 0 s now) i
  rw [Finset.sum_const, Finset.card_univ, Fintype.card_fin, smul_eq_mul] at hle
  exact hle

theorem le_windowSum {s : Storage} {c : Nat} (h : (view s).All (c ≤ ·)) (now : Moment) :
    60 * c ≤ windowSum s.initialDifficulty.toNat (nextWindow s now) := by
  have hle : ∑ _i : Fin 60, c ≤ ∑ i : Fin 60, (view (next 0 s now)).window i :=
    Finset.sum_le_sum fun i _ => h.window_slide (view_slides 0 s now) i
  rw [Finset.sum_const, Finset.card_univ, Fintype.card_fin, smul_eq_mul] at hle
  exact hle

theorem view_genesis {P : Nat → Prop} {G : Difficulty} (h : P G.toNat) :
    (view (genesis G)).All P := by
  refine ⟨fun i => ?_, h⟩
  show P (slotDifficulty G.toNat ((genesis G).slot i))
  rw [slot_genesis]
  exact h

/-! ## The gaps of one call -/

def gapAt (T : Nat) (s : Storage) (i : Fin 59) : Nat :=
  gap T (s.slot i.castSucc) (s.slot i.succ)

def lastGap (T : Nat) (s : Storage) (now : Moment) : Nat :=
  gap T (s.slot (Fin.last 59)) (some ⟨s.currentDifficulty, now⟩)

theorem lastGap_of_some {T : Nat} {s : Storage} {d : Difficulty} {t : Moment}
    (h : s.slot (Fin.last 59) = some ⟨d, t⟩) (now : Moment) :
    lastGap T s now = now.toNat - t.toNat := by
  rw [lastGap, h]
  rfl

@[simp] theorem lastGap_genesis (T : Nat) (G : Difficulty) (now : Moment) :
    lastGap T (genesis G) now = T := by
  rw [lastGap, slot_genesis]
  rfl

@[simp] theorem gapAt_next_of_lt (T : Nat) (T' : Moment) (s : Storage) (now : Moment) (i : Fin 58) :
    gapAt T (next T' s now) i.castSucc = gapAt T s i.succ := by
  rw [gapAt, slot_next_castSucc, ← Fin.castSucc_succ, slot_next_castSucc]
  rfl

@[simp] theorem gapAt_next_last (T : Nat) (T' : Moment) (s : Storage) (now : Moment) :
    gapAt T (next T' s now) (Fin.last 58) = lastGap T s now := by
  rw [gapAt, slot_next_castSucc, Fin.succ_last, slot_next_last]
  rfl

theorem gapAt_next {P : Nat → Prop} {T : Nat} (T' : Moment) {s : Storage} {now : Moment}
    (h : ∀ i, P (gapAt T s i)) (hlast : P (lastGap T s now)) (i : Fin 59) :
    P (gapAt T (next T' s now) i) := by
  cases i using Fin.lastCases with
  | last => rw [gapAt_next_last]; exact hlast
  | cast i => rw [gapAt_next_of_lt]; exact h i.succ

theorem span_nextWindow (T : Nat) (T' : Moment) (s : Storage) (now : Moment) :
    span T (nextWindow s now) = ∑ i : Fin 59, gapAt T (next T' s now) i := rfl

/-! ## Runs -/

/-- A fact carried from each state of a run to its `next` holds after every
prefix. -/
theorem run_next_take {T : Moment} (hT : 0 < T.toNat) {P : Nat → Storage → Prop} {s : Storage}
    {timestamps : List Moment} (h0 : P 0 s)
    (hnext : ∀ k (hk : k < timestamps.length) a, runFrom T s (timestamps.take k) = some a →
      P k a → P (k + 1) (next T a timestamps[k])) :
    ∀ k, k ≤ timestamps.length → ∀ a, runFrom T s (timestamps.take k) = some a → P k a := by
  refine run_invariant h0 ?_
  intro k hk a b ha hP hab
  rw [eq_next hT hab]
  exact hnext k hk a ha hP

theorem run_next {T : Moment} (hT : 0 < T.toNat) {P : Nat → Storage → Prop} {s t : Storage}
    {timestamps : List Moment} (h0 : P 0 s)
    (hnext : ∀ k (hk : k < timestamps.length) a, runFrom T s (timestamps.take k) = some a →
      P k a → P (k + 1) (next T a timestamps[k]))
    (h : runFrom T s timestamps = some t) : P timestamps.length t := by
  refine run_next_take hT h0 hnext timestamps.length (Nat.le_refl _) t ?_
  rw [List.take_length]
  exact h

theorem run_initialDifficulty {T : Moment} (hT : 0 < T.toNat) {s t : Storage}
    {timestamps : List Moment} (h : runFrom T s timestamps = some t) :
    t.initialDifficulty = s.initialDifficulty :=
  run_next hT (P := fun _ a => a.initialDifficulty = s.initialDifficulty) rfl
    (fun _ _ _ _ ha => ha) h

/-- After at least one call the last slot holds the last timestamp. -/
theorem run_lastSlot {T : Moment} (hT : 0 < T.toNat) {s a : Storage} {timestamps : List Moment}
    {k : Nat} (hk : k < timestamps.length)
    (h : runFrom T s (timestamps.take (k + 1)) = some a) :
    ∃ d, a.slot (Fin.last 59) = some ⟨d, timestamps[k]⟩ := by
  rw [runFrom, run_take_succ s hk, Option.bind_eq_some_iff] at h
  obtain ⟨b, _, hab⟩ := h
  rw [eq_next hT hab]
  exact ⟨b.currentDifficulty, slot_next_last T b timestamps[k]⟩

theorem run_timestamps {T : Moment} (hT : 0 < T.toNat) {G : Difficulty} {P : Moment → Prop}
    {timestamps : List Moment} (hP : ∀ t ∈ timestamps, P t) {s : Storage}
    (h : runGenesis T G timestamps = some s) (i : Fin 60) {r : DifficultyAndTimestamp}
    (hr : s.slot i = some r) : P r.timestamp := by
  have hinv : ∀ i r, s.slot i = some r → P r.timestamp := by
    refine run_next hT (P := fun _ a => ∀ i r, a.slot i = some r → P r.timestamp) ?_ ?_ h
    · intro i r hr
      rw [slot_genesis] at hr
      cases hr
    · intro k hk a _ ha i r hr
      cases i using Fin.lastCases with
      | last =>
        rw [slot_next_last, Option.some.injEq] at hr
        rw [← hr]
        exact hP _ (List.getElem_mem hk)
      | cast i =>
        rw [slot_next_castSucc] at hr
        exact ha i.succ r hr
  exact hinv i r hr

/-- After `k` calls the last `k` slots are filled. -/
theorem run_filled {T : Moment} (hT : 0 < T.toNat) {s t : Storage} {timestamps : List Moment}
    (h : runFrom T s timestamps = some t) (i : Fin 60) (hfull : 60 ≤ i.val + timestamps.length) :
    ∃ r, t.slot i = some r := by
  have hinv : ∀ i : Fin 60, 60 ≤ i.val + timestamps.length → ∃ r, t.slot i = some r := by
    refine run_next hT
      (P := fun k a => ∀ i : Fin 60, 60 ≤ i.val + k → ∃ r, a.slot i = some r) ?_ ?_ h
    · intro i h60
      exact absurd i.isLt (by omega)
    · intro k hk a _ ha i h60
      cases i using Fin.lastCases with
      | last => exact ⟨_, slot_next_last T a timestamps[k]⟩
      | cast i =>
        rw [slot_next_castSucc]
        refine ha i.succ ?_
        rw [Fin.val_succ]
        rw [Fin.val_castSucc] at h60
        omega
  exact hinv i hfull

end Difficulty
end Crain
