/-
The difficulty hook in exact integers.

The pallet mixes 64, 128 and 256-bit words and traps where one of them is too
narrow.  This file gives the integers the hook computes with: `span` is the time
the window covers, `windowSum` its total difficulty and `retarget` the new
difficulty.  The theorem it exists for is `onTimestampSet_eq`: with a positive
target block time the hook is `next`, whose storage holds exactly those
integers, and its only possible trap is the product of the window sum with the
block time leaving 256 bits.  Everything proved later about the pallet is proved
through it.
-/
import Mathlib.Algebra.BigOperators.Fin
import Mathlib.Algebra.Order.BigOperators.Group.Finset
import Crain.Difficulty.Pallet

namespace Crain
namespace Difficulty

open Machine Machine.Word

/-! ## The integers of one call -/

def minD : Nat := minDifficulty.toNat

def maxD : Nat := maxDifficulty.toNat

theorem minD_eq : minD = 3 := rfl

theorem maxD_eq : maxD = 2 ^ 128 - 1 := by decide

def gap (T : Nat) : Slot → Slot → Nat
  | some prev, some cur => cur.timestamp.toNat - prev.timestamp.toNat
  | _, _ => T

def slotDifficulty (G : Nat) : Slot → Nat
  | some d => d.difficulty.toNat
  | none => G

/-- The time the window covers, one gap less than it has slots. -/
def span (T : Nat) (data : Vector Slot 60) : Nat :=
  ∑ i : Fin 59, gap T data[i.castSucc] data[i.succ]

def windowSum (G : Nat) (data : Vector Slot 60) : Nat :=
  ∑ i : Fin 60, slotDifficulty G data[i]

theorem span_eq_sum (T : Nat) (data : Vector Slot 60) :
    span T data =
      ((List.finRange 59).map fun i : Fin 59 => gap T data[i.castSucc] data[i.succ]).sum :=
  Fin.sum_univ_def _

theorem windowSum_eq_sum (G : Nat) (data : Vector Slot 60) :
    windowSum G data = ((List.finRange 60).map fun i : Fin 60 => slotDifficulty G data[i]).sum :=
  Fin.sum_univ_def _

def dampedTime (actual goal : Nat) : Nat := (actual + 2 * goal) / 3

def clampedTime (actual goal : Nat) : Nat := max (goal / 2) (min actual (goal * 2))

def adjust (T sp : Nat) : Nat := clampedTime (dampedTime (max sp 1) (60 * T)) (60 * T)

/-- The new difficulty of a window with total difficulty `sum` and time `sp`. -/
def retarget (T sum sp : Nat) : Nat :=
  min maxD (max minD (max sum minD * T / adjust T sp))

def nextWindow (s : Storage) (now : Moment) : Vector Slot 60 :=
  Register.push (n := 59) s.pastDifficultiesAndTimestamps (some ⟨s.currentDifficulty, now⟩)

def Storage.slot (s : Storage) (i : Fin 60) : Slot := s.pastDifficultiesAndTimestamps[i]

def nextDifficulty (T : Moment) (s : Storage) (now : Moment) : Nat :=
  retarget T.toNat (windowSum s.initialDifficulty.toNat (nextWindow s now))
    (span T.toNat (nextWindow s now))

/-- The storage after a call that does not trap. -/
def next (T : Moment) (s : Storage) (now : Moment) : Storage where
  pastDifficultiesAndTimestamps := nextWindow s now
  currentDifficulty := BitVec.ofNat 256 (nextDifficulty T s now)
  initialDifficulty := s.initialDifficulty

/-! ## Bounds -/

theorem gap_lt {T : Nat} (hT : T < 2 ^ 64) (prev cur : Slot) : gap T prev cur < 2 ^ 64 := by
  cases prev with
  | none => exact hT
  | some p =>
    cases cur with
    | none => exact hT
    | some c =>
      have hc := c.timestamp.isLt
      show c.timestamp.toNat - p.timestamp.toNat < 2 ^ 64
      omega

theorem span_lt {T : Nat} (hT : T < 2 ^ 64) (data : Vector Slot 60) :
    span T data < 59 * 2 ^ 64 := by
  have hle : span T data ≤ ∑ _i : Fin 59, (2 ^ 64 - 1) :=
    Finset.sum_le_sum fun i _ => Nat.le_sub_one_of_lt (gap_lt hT _ _)
  rw [Finset.sum_const, Finset.card_univ, Fintype.card_fin, smul_eq_mul] at hle
  omega

/-- The lower arm of the clamp never takes effect, because damping already keeps
the time above two thirds of the goal. -/
theorem adjust_eq {T : Nat} (hT : 0 < T) (sp : Nat) :
    adjust T sp = min (120 * T) ((max sp 1 + 120 * T) / 3) := by
  unfold adjust clampedTime dampedTime
  omega

theorem adjust_bounds {T : Nat} (hT : 0 < T) (sp : Nat) :
    40 * T ≤ adjust T sp ∧ adjust T sp ≤ 120 * T := by
  rw [adjust_eq hT]
  omega

theorem retarget_bounds (T sum sp : Nat) :
    minD ≤ retarget T sum sp ∧ retarget T sum sp ≤ maxD := by
  have h3 := minD_eq
  have hM := maxD_eq
  unfold retarget
  omega

/-! ## The operations of the hook -/

theorem delta_toNat (T : Moment) (prev cur : Slot) :
    (delta (saturatedInto 128 T) prev cur).toNat = gap T.toNat prev cur := by
  cases prev with
  | none => exact toNat_saturatedInto_of_le (by omega)
  | some p =>
    cases cur with
    | none => exact toNat_saturatedInto_of_le (by omega)
    | some c =>
      show (saturatingSub (saturatedInto 128 c.timestamp) (saturatedInto 128 p.timestamp)).toNat = _
      rw [toNat_saturatingSub, toNat_saturatedInto_of_le (by omega),
        toNat_saturatedInto_of_le (by omega)]
      rfl

theorem diff_toNat (G : Difficulty) (slot : Slot) :
    (diff G slot).toNat = slotDifficulty G.toNat slot := by
  cases slot <;> rfl

theorem exists_damp (actual goal : U128) (h : actual.toNat + 2 * goal.toNat < 2 ^ 128) :
    ∃ c, damp actual goal difficultyDampFactor = some c ∧
      c.toNat = dampedTime actual.toNat goal.toNat := by
  obtain ⟨w, hw, hwv⟩ := exists_sub? (a := difficultyDampFactor) (b := 1) (by decide)
  have hw2 : w.toNat = 2 := hwv
  obtain ⟨g, hg, hgv⟩ := exists_mul? (a := w) (b := goal) (by rw [hw2]; omega)
  obtain ⟨t, ht, htv⟩ := exists_add? (a := actual) (b := g) (by rw [hgv, hw2]; omega)
  obtain ⟨c, hc, hcv⟩ := exists_div? (a := t) (b := difficultyDampFactor) (by decide)
  refine ⟨c, ?_, ?_⟩
  · simp only [damp, hw, hg, ht, hc, Option.bind_eq_bind, Option.bind_some]
  · rw [hcv, htv, hgv, hw2]
    rfl

theorem exists_clamp (actual goal : U128) (h : goal.toNat * 2 < 2 ^ 128) :
    ∃ c, clamp actual goal clampFactor = some c ∧
      c.toNat = clampedTime actual.toNat goal.toNat := by
  obtain ⟨l, hl, hlv⟩ := exists_div? (a := goal) (b := clampFactor) (by decide)
  obtain ⟨u, hu, huv⟩ := exists_mul? (a := goal) (b := clampFactor) h
  refine ⟨umax l (umin actual u), ?_, ?_⟩
  · simp only [clamp, hl, hu, Option.bind_eq_bind, Option.bind_some, Option.pure_def]
  · rw [toNat_umax, toNat_umin, hlv, huv]
    rfl

/-- The loop over the gaps always fits: 59 gaps of 64 bits each. -/
theorem exists_spanLoop (T : Moment) (data : Vector Slot 60) :
    ∃ c : U128, (List.finRange 59).foldlM (fun tsDelta i =>
        add? tsDelta (delta (saturatedInto 128 T) data[i.castSucc] data[i.succ])) 0 = some c ∧
      c.toNat = span T.toNat data := by
  have hsum : ((List.finRange 59).map fun i : Fin 59 =>
      (delta (saturatedInto 128 T) data[i.castSucc] data[i.succ]).toNat).sum =
        span T.toNat data := by
    simp only [delta_toNat, span_eq_sum]
  have hlt := span_lt T.isLt data
  rw [← hsum]
  exact exists_foldlM_add?_zero _ (by rw [hsum]; omega)

theorem sumLoop_eq_some_iff (G : Difficulty) (data : Vector Slot 60) (c : U256) :
    (List.finRange 60).foldlM (fun diffSum i => add? diffSum (diff G data[i])) 0 = some c ↔
      c.toNat = windowSum G.toNat data := by
  rw [foldlM_add?_zero_eq_some_iff (fun i : Fin 60 => diff G data[i]), windowSum_eq_sum]
  simp only [diff_toNat]

/-! ## The hook -/

theorem floor_toNat (sum : U256) :
    (if sum < minDifficulty.setWidth 256 then minDifficulty.setWidth 256 else sum).toNat =
      max sum.toNat minD := by
  have h3 := minDifficulty_toNat
  have hm := minD_eq
  by_cases h : sum < minDifficulty.setWidth 256
  · have hlt : sum.toNat < (minDifficulty.setWidth 256).toNat := h
    rw [if_pos h]
    omega
  · have hge : ¬ sum.toNat < (minDifficulty.setWidth 256).toNat := h
    rw [if_neg h]
    omega

theorem patch_toNat (sp : U128) : (if sp = 0 then 1 else sp).toNat = max sp.toNat 1 := by
  have h0 : sp = 0 ↔ sp.toNat = 0 := by rw [← BitVec.toNat_inj]; rfl
  by_cases h : sp = 0
  · rw [if_pos h, h0.mp h]
    rfl
  · have hne := mt h0.mpr h
    rw [if_neg h]
    omega

theorem exists_adjust {T : Moment} {sp bw : U128} {data : Vector Slot 60}
    (hsp : sp.toNat = span T.toNat data) (hbw : bw.toNat = 60 * T.toNat) :
    ∃ damped adj, damp (if sp = 0 then 1 else sp) bw difficultyDampFactor = some damped ∧
      clamp damped bw clampFactor = some adj ∧ adj.toNat = adjust T.toNat (span T.toNat data) := by
  have hT := T.isLt
  have hlt := span_lt hT data
  obtain ⟨damped, hd, hdv⟩ := exists_damp (if sp = 0 then 1 else sp) bw
    (by rw [patch_toNat, hsp, hbw]; omega)
  obtain ⟨adj, ha, hav⟩ := exists_clamp damped bw (by rw [hbw]; omega)
  refine ⟨damped, adj, hd, ha, ?_⟩
  rw [hav, hdv, patch_toNat, hsp, hbw]
  rfl

theorem capped_eq {quot : U256} {T sum sp : Nat}
    (h : quot.toNat = max sum minD * T / adjust T sp) :
    umin (maxDifficulty.setWidth 256) (umax (minDifficulty.setWidth 256) quot) =
      BitVec.ofNat 256 (retarget T sum sp) := by
  have hle := (retarget_bounds T sum sp).2
  have hM := maxD_eq
  apply BitVec.eq_of_toNat_eq
  rw [toNat_umin, toNat_umax, h, BitVec.toNat_ofNat, Nat.mod_eq_of_lt (by omega),
    maxDifficulty_toNat, minDifficulty_toNat, retarget, minD_eq, maxD_eq]

/-- The hook is `next` unless the window sum times the block time leaves 256
bits, and then it traps. -/
theorem onTimestampSet_eq {T : Moment} (hT : 0 < T.toNat) (s : Storage) (now : Moment) :
    onTimestampSet T s now =
      if max (windowSum s.initialDifficulty.toNat (nextWindow s now)) minD * T.toNat < 2 ^ 256
      then some (next T s now) else none := by
  have hTlt := T.isLt
  have hbt : (saturatedInto 128 T).toNat = T.toNat := toNat_saturatedInto_of_le (by omega)
  have hbt256 : ((saturatedInto 128 T).setWidth 256).toNat = T.toNat := by
    rw [toNat_setWidth_of_le (by omega), hbt]
  obtain ⟨bw, hbw, hbwv⟩ := exists_mul? (a := difficultyAdjustWindow.setWidth 128)
    (b := saturatedInto 128 T) (by rw [difficultyAdjustWindow_toNat, hbt]; omega)
  rw [difficultyAdjustWindow_toNat, hbt] at hbwv
  obtain ⟨sp, hsp, hspv⟩ := exists_spanLoop T (nextWindow s now)
  obtain ⟨damped, adj, hd, ha, hav⟩ := exists_adjust hspv hbwv
  have hadj := (adjust_bounds hT (span T.toNat (nextWindow s now))).1
  have hpush : Register.push (n := 59) s.pastDifficultiesAndTimestamps
      (some ⟨s.currentDifficulty, now⟩) = nextWindow s now := rfl
  simp only [onTimestampSet, Option.bind_eq_bind, Option.pure_def, hbw, Option.bind_some, hpush,
    hsp, hd, ha]
  cases hsum : (List.finRange 60).foldlM
      (fun diffSum i => add? diffSum (diff s.initialDifficulty (nextWindow s now)[i])) 0 with
  | none =>
    -- No word holds the sum, so no word holds its product with `T` either.
    have hbig : ¬ windowSum s.initialDifficulty.toNat (nextWindow s now) < 2 ^ 256 := fun hlt => by
      have hsome := (sumLoop_eq_some_iff s.initialDifficulty (nextWindow s now)
        (BitVec.ofNat 256 _)).mpr (by rw [BitVec.toNat_ofNat, Nat.mod_eq_of_lt hlt])
      rw [hsum] at hsome
      cases hsome
    rw [if_neg, Option.bind_none]
    intro h
    have hle := Nat.le_mul_of_pos_right
      (max (windowSum s.initialDifficulty.toNat (nextWindow s now)) minD) hT
    omega
  | some sum =>
    have hsumv := (sumLoop_eq_some_iff _ _ _).mp hsum
    have hadj256 : (adj.setWidth 256).toNat = adj.toNat := toNat_setWidth_of_le (by omega)
    rw [Option.bind_some, mul?_div?_bind (by rw [hadj256]; omega), floor_toNat, hsumv, hbt256,
      hadj256, hav]
    by_cases hfit :
        max (windowSum s.initialDifficulty.toNat (nextWindow s now)) minD * T.toNat < 2 ^ 256
    · have hquot := Nat.lt_of_le_of_lt (Nat.div_le_self
        (max (windowSum s.initialDifficulty.toNat (nextWindow s now)) minD * T.toNat)
        (adjust T.toNat (span T.toNat (nextWindow s now)))) hfit
      rw [if_pos hfit, if_pos hfit, capped_eq (by rw [BitVec.toNat_ofNat, Nat.mod_eq_of_lt hquot])]
      rfl
    · rw [if_neg hfit, if_neg hfit]

/-- A call that returns set exactly the storage `next`. -/
theorem onTimestampSet_eq_some_iff {T : Moment} (hT : 0 < T.toNat) {s s' : Storage}
    {now : Moment} :
    onTimestampSet T s now = some s' ↔
      max (windowSum s.initialDifficulty.toNat (nextWindow s now)) minD * T.toNat < 2 ^ 256 ∧
        s' = next T s now := by
  rw [onTimestampSet_eq hT]
  by_cases h :
      max (windowSum s.initialDifficulty.toNat (nextWindow s now)) minD * T.toNat < 2 ^ 256
  · rw [if_pos h, Option.some.injEq]
    exact ⟨fun e => ⟨h, e.symm⟩, fun e => e.2.symm⟩
  · rw [if_neg h]
    exact ⟨fun e => (by cases e), fun e => absurd e.1 h⟩

theorem eq_next {T : Moment} (hT : 0 < T.toNat) {s s' : Storage} {now : Moment}
    (h : onTimestampSet T s now = some s') : s' = next T s now :=
  ((onTimestampSet_eq_some_iff hT).mp h).2

theorem nextWindow_of_lt (s : Storage) (now : Moment) (i : Nat) (hi : i < 59) :
    (nextWindow s now)[i] = s.pastDifficultiesAndTimestamps[i + 1] :=
  Register.getElem_push_of_lt (n := 59) s.pastDifficultiesAndTimestamps _ hi

theorem nextWindow_last (s : Storage) (now : Moment) :
    (nextWindow s now)[59] = some ⟨s.currentDifficulty, now⟩ :=
  Register.getElem_push_last (n := 59) s.pastDifficultiesAndTimestamps _

-- The window is used through the two lemmas above, never by running the loop.
attribute [irreducible] nextWindow

@[simp] theorem slot_next_castSucc (T : Moment) (s : Storage) (now : Moment) (i : Fin 59) :
    (next T s now).slot i.castSucc = s.slot i.succ :=
  nextWindow_of_lt s now i.val i.isLt

@[simp] theorem slot_next_last (T : Moment) (s : Storage) (now : Moment) :
    (next T s now).slot (Fin.last 59) = some ⟨s.currentDifficulty, now⟩ :=
  nextWindow_last s now

@[simp] theorem slot_genesis (G : Difficulty) (i : Fin 60) : (genesis G).slot i = none :=
  Vector.getElem_replicate i.isLt

@[simp] theorem next_currentDifficulty (T : Moment) (s : Storage) (now : Moment) :
    (next T s now).currentDifficulty.toNat = nextDifficulty T s now := by
  have hle := (retarget_bounds T.toNat (windowSum s.initialDifficulty.toNat (nextWindow s now))
    (span T.toNat (nextWindow s now))).2
  have hM := maxD_eq
  show (BitVec.ofNat 256 (nextDifficulty T s now)).toNat = _
  rw [BitVec.toNat_ofNat, nextDifficulty, Nat.mod_eq_of_lt (by omega)]

end Difficulty
end Crain
