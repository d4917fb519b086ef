/-
The shift register as a closed recurrence.

`recurrence T G t` is the sequence of difficulties written without a register:
term `k` is computed from the block times `t` and the earlier terms, with blocks
before the first one counted as on target and at the genesis difficulty.  The
invariant that ties the register to it is `HoldsHistory`: after `k` calls slot
`i` holds entry `k + i` of one infinite history that starts with 60 empty
entries.  Sums over the register are then sums over a segment of that history,
and the saturating differences of nondecreasing timestamps telescope.
-/
import Mathlib.Algebra.BigOperators.Intervals
import Mathlib.Data.List.GetD
import Mathlib.Order.Interval.Finset.Nat
import Crain.Difficulty.Traps

namespace Crain
namespace Difficulty

open Machine

/-! ## The recurrence -/

def windowTotal (G : Nat) (d : Nat → Nat) (k : Nat) : Nat :=
  (60 - k) * G + ∑ j ∈ Finset.Icc (max 1 (k - 59)) k, d (j - 1)

def windowTime (T : Nat) (t : Nat → Nat) (k : Nat) : Nat :=
  (60 - k) * T + (t k - t (max 1 (k - 59)))

def nextTerm (T S sp : Nat) : Nat :=
  min maxD (max minD (max S minD * T / min (120 * T) ((max sp 1 + 120 * T) / 3)))

/-- The terms up to `k`, as a function that is constant beyond them. -/
def terms (T G : Nat) (t : Nat → Nat) : Nat → Nat → Nat
  | 0 => fun _ => G
  | k + 1 => Function.update (terms T G t k) (k + 1)
      (nextTerm T (windowTotal G (terms T G t k) (k + 1)) (windowTime T t (k + 1)))

def recurrence (T G : Nat) (t : Nat → Nat) (k : Nat) : Nat := terms T G t k k

theorem terms_of_le (T G : Nat) (t : Nat → Nat) {j k : Nat} (h : j ≤ k) :
    terms T G t k j = recurrence T G t j := by
  induction k with
  | zero =>
    have hj : j = 0 := Nat.le_zero.mp h
    rw [hj, recurrence]
  | succ k ih =>
    by_cases hj : j = k + 1
    · rw [hj, recurrence]
    · rw [terms, Function.update_of_ne hj]
      exact ih (by omega)

@[simp] theorem recurrence_zero (T G : Nat) (t : Nat → Nat) : recurrence T G t 0 = G := rfl

theorem recurrence_succ (T G : Nat) (t : Nat → Nat) (k : Nat) :
    recurrence T G t (k + 1) =
      nextTerm T (windowTotal G (recurrence T G t) (k + 1)) (windowTime T t (k + 1)) := by
  have hsum : windowTotal G (terms T G t k) (k + 1) =
      windowTotal G (recurrence T G t) (k + 1) := by
    rw [windowTotal, windowTotal]
    congr 1
    refine Finset.sum_congr rfl fun j hj => terms_of_le T G t ?_
    have := Finset.mem_Icc.mp hj
    omega
  rw [recurrence, terms, Function.update_self, hsum]

theorem recurrence_lt (T : Nat) (G : Difficulty) (t : Nat → Nat) (k : Nat) :
    recurrence T G.toNat t k < 2 ^ 256 := by
  cases k with
  | zero => exact G.isLt
  | succ k =>
    have hM := maxD_eq
    rw [recurrence_succ]
    unfold nextTerm
    omega

theorem retarget_eq_nextTerm {T : Nat} (hT : 0 < T) (S sp : Nat) :
    retarget T S sp = nextTerm T S sp := by
  rw [retarget, nextTerm, adjust_eq hT]

/-! ## The history behind the register -/

def stamp (timestamps : List Moment) (k : Nat) : Nat := (timestamps.getD (k - 1) 0).toNat

/-- The record of block `j`: its timestamp and the difficulty current when it was
mined. -/
def record (d : Nat → Nat) (timestamps : List Moment) (j : Nat) : DifficultyAndTimestamp :=
  ⟨BitVec.ofNat 256 (d (j - 1)), timestamps.getD (j - 1) 0⟩

/-- Entry `m` of the history.  Block `j` is entry `j + 59`. -/
def history (d : Nat → Nat) (timestamps : List Moment) (m : Nat) : Slot :=
  if m < 60 then none else some (record d timestamps (m - 59))

/-- The register shows the 60 entries from entry `k` on. -/
def HoldsHistory (d : Nat → Nat) (timestamps : List Moment) (k : Nat)
    (data : Vector Slot 60) : Prop :=
  ∀ i (_ : i < 60), data[i] = history d timestamps (k + i)

theorem holdsHistory_genesis (d : Nat → Nat) (timestamps : List Moment) (G : Difficulty) :
    HoldsHistory d timestamps 0 (genesis G).pastDifficultiesAndTimestamps := by
  intro i hi
  rw [history, if_pos (by omega)]
  exact Vector.getElem_replicate hi

/-- A call moves the register one entry along the history. -/
theorem HoldsHistory.nextWindow {d : Nat → Nat} {timestamps : List Moment} {k : Nat}
    (hk : k < timestamps.length) {s : Storage}
    (h : HoldsHistory d timestamps k s.pastDifficultiesAndTimestamps)
    (hcur : s.currentDifficulty.toNat = d k) :
    HoldsHistory d timestamps (k + 1) (nextWindow s timestamps[k]) := by
  intro i hi
  by_cases hlast : i < 59
  · rw [nextWindow_of_lt s _ i hlast, h (i + 1) (by omega)]
    congr 1
    omega
  · have he : i = 59 := by omega
    subst he
    have hidx : k + 1 + 59 - 59 - 1 = k := by omega
    rw [nextWindow_last, history, if_neg (by omega), record, hidx, ← hcur,
      BitVec.ofNat_toNat, BitVec.setWidth_eq, List.getD_eq_getElem _ _ hk]

/-- The register as the list of its slots: the empty ones, then one record for
each of the last blocks. -/
theorem HoldsHistory.toList {d : Nat → Nat} {timestamps : List Moment} {k : Nat}
    {data : Vector Slot 60} (h : HoldsHistory d timestamps k data) :
    data.toList = List.replicate (60 - k) none ++
      (List.range' (max 1 (k - 59)) (min k 60)).map fun j => some (record d timestamps j) := by
  apply List.ext_getElem
  · simp only [Vector.length_toList, List.length_append, List.length_replicate, List.length_map,
      List.length_range']
    omega
  · intro i h₁ h₂
    have hi : i < 60 := by simpa using h₁
    rw [Vector.getElem_toList, h i hi, history, List.getElem_append]
    by_cases hempty : k + i < 60
    · rw [if_pos hempty, dif_pos (by rw [List.length_replicate]; omega), List.getElem_replicate]
    · rw [if_neg hempty, dif_neg (by rw [List.length_replicate]; omega), List.getElem_map,
        List.getElem_range', List.length_replicate]
      congr 2
      omega

/-! ## Sums over the register -/

theorem sum_window_split (f : Nat → Nat) (n p : Nat) (hp : p ≤ n) :
    ∑ i ∈ Finset.range n, f i =
      ∑ i ∈ Finset.range p, f i + ∑ i ∈ Finset.range (n - p), f (p + i) := by
  have hn : n = p + (n - p) := by omega
  rw [hn, Finset.sum_range_add]
  congr 2
  · rw [← hn]

theorem sum_sub_telescope (f : Nat → Nat) (n : Nat) (hmono : ∀ i, i ≤ n → f 0 ≤ f i)
    (hstep : ∀ i, i < n → f i ≤ f (i + 1)) :
    ∑ i ∈ Finset.range n, (f (i + 1) - f i) = f n - f 0 := by
  induction n with
  | zero => rw [Finset.range_zero, Finset.sum_empty, Nat.sub_self]
  | succ n ih =>
    have h0 := hmono n (by omega)
    have h1 := hstep n (by omega)
    rw [Finset.sum_range_succ, ih (fun i hi => hmono i (by omega)) fun i hi => hstep i (by omega)]
    omega

section Register

variable {T G : Nat} {d : Nat → Nat} {timestamps : List Moment} {k : Nat} {data : Vector Slot 60}

theorem slotDifficulty_record {j : Nat} (hd : d (j - 1) < 2 ^ 256) :
    slotDifficulty G (some (record d timestamps j)) = d (j - 1) :=
  (BitVec.toNat_ofNat (d (j - 1)) 256).trans (Nat.mod_eq_of_lt hd)

theorem windowSum_of_history (hd : ∀ j, d j < 2 ^ 256) (h : HoldsHistory d timestamps k data) :
    windowSum G data = windowTotal G d k := by
  have hslots : windowSum G data =
      ∑ i ∈ Finset.range 60, slotDifficulty G (history d timestamps (k + i)) := by
    rw [Finset.sum_range]
    exact Finset.sum_congr rfl fun i _ => congrArg (slotDifficulty G) (h i.val i.isLt)
  have hempty : ∑ i ∈ Finset.range (60 - k), slotDifficulty G (history d timestamps (k + i)) =
      (60 - k) * G := by
    have heach : ∀ i ∈ Finset.range (60 - k),
        slotDifficulty G (history d timestamps (k + i)) = G := by
      intro i hi
      have := Finset.mem_range.mp hi
      rw [history, if_pos (by omega)]
      rfl
    rw [Finset.sum_congr rfl heach, Finset.sum_const, Finset.card_range, smul_eq_mul]
  rw [hslots, sum_window_split _ 60 (60 - k) (by omega), hempty, windowTotal,
    ← Finset.Ico_add_one_right_eq_Icc, Finset.sum_Ico_eq_sum_range, Nat.add_left_cancel_iff]
  have hlen : 60 - (60 - k) = k + 1 - max 1 (k - 59) := by omega
  rw [hlen]
  refine Finset.sum_congr rfl fun i hi => ?_
  have := Finset.mem_range.mp hi
  have hidx : k + (60 - k + i) - 59 = max 1 (k - 59) + i := by omega
  rw [history, if_neg (by omega), hidx, slotDifficulty_record (hd _)]

theorem gap_history (m : Nat) :
    gap T (history d timestamps m) (history d timestamps (m + 1)) =
      if m < 60 then T else stamp timestamps (m - 58) - stamp timestamps (m - 59) := by
  by_cases hm : m < 60
  · rw [if_pos hm, history, if_pos hm]
    rfl
  · have hidx : m + 1 - 59 = m - 58 := by omega
    rw [if_neg hm, history, if_neg hm, history, if_neg (by omega), hidx]
    rfl

theorem span_of_history (hk : 1 ≤ k) (h : HoldsHistory d timestamps k data)
    (hmono : ∀ i j, 1 ≤ i → i ≤ j → j ≤ k → stamp timestamps i ≤ stamp timestamps j) :
    span T data = windowTime T (stamp timestamps) k := by
  have hgaps : span T data = ∑ i ∈ Finset.range 59,
      gap T (history d timestamps (k + i)) (history d timestamps (k + i + 1)) := by
    rw [Finset.sum_range]
    refine Finset.sum_congr rfl fun i _ => ?_
    have hc := h i.castSucc.val i.castSucc.isLt
    have hs := h i.succ.val i.succ.isLt
    exact congrArg₂ (gap T) hc hs
  have hempty : ∑ i ∈ Finset.range (60 - k),
      gap T (history d timestamps (k + i)) (history d timestamps (k + i + 1)) = (60 - k) * T := by
    have heach : ∀ i ∈ Finset.range (60 - k),
        gap T (history d timestamps (k + i)) (history d timestamps (k + i + 1)) = T := by
      intro i hi
      have := Finset.mem_range.mp hi
      rw [gap_history, if_pos (by omega)]
    rw [Finset.sum_congr rfl heach, Finset.sum_const, Finset.card_range, smul_eq_mul]
  have hfilled : ∑ i ∈ Finset.range (59 - (60 - k)),
      gap T (history d timestamps (k + (60 - k + i))) (history d timestamps (k + (60 - k + i) + 1)) =
      ∑ i ∈ Finset.range (59 - (60 - k)),
        (stamp timestamps (max 1 (k - 59) + (i + 1)) - stamp timestamps (max 1 (k - 59) + i)) := by
    refine Finset.sum_congr rfl fun i hi => ?_
    have := Finset.mem_range.mp hi
    have hnew : k + (60 - k + i) - 58 = max 1 (k - 59) + (i + 1) := by omega
    have hold : k + (60 - k + i) - 59 = max 1 (k - 59) + i := by omega
    rw [gap_history, if_neg (by omega), hnew, hold]
  rw [hgaps, sum_window_split _ 59 (60 - k) (by omega), hempty, hfilled,
    sum_sub_telescope (fun i => stamp timestamps (max 1 (k - 59) + i)) (59 - (60 - k))
      (fun i hi => hmono _ _ (by omega) (by omega) (by omega))
      (fun i hi => hmono _ _ (by omega) (by omega) (by omega)), windowTime]
  have hend : max 1 (k - 59) + (59 - (60 - k)) = k := by omega
  simp only [hend, Nat.add_zero]

end Register

/-! ## The register follows the recurrence -/

def FollowsRecurrence (T : Moment) (G : Difficulty) (timestamps : List Moment) (k : Nat)
    (s : Storage) : Prop :=
  s.initialDifficulty = G ∧
    s.currentDifficulty.toNat = recurrence T.toNat G.toNat (stamp timestamps) k ∧
    HoldsHistory (recurrence T.toNat G.toNat (stamp timestamps)) timestamps k
      s.pastDifficultiesAndTimestamps

theorem FollowsRecurrence.next {T : Moment} (hT : 0 < T.toNat) {G : Difficulty}
    {timestamps : List Moment} {k : Nat} (hk : k < timestamps.length) {s : Storage}
    (hmono : ∀ i j, 1 ≤ i → i ≤ j → j ≤ timestamps.length →
      stamp timestamps i ≤ stamp timestamps j)
    (h : FollowsRecurrence T G timestamps k s) :
    FollowsRecurrence T G timestamps (k + 1) (next T s timestamps[k]) := by
  obtain ⟨hinit, hcur, hreg⟩ := h
  have hnext := hreg.nextWindow hk hcur
  refine ⟨hinit, ?_, hnext⟩
  rw [next_currentDifficulty, nextDifficulty, hinit,
    windowSum_of_history (recurrence_lt T.toNat G (stamp timestamps)) hnext,
    span_of_history (by omega) hnext (fun i j hi hij hj => hmono i j hi hij (by omega)),
    retarget_eq_nextTerm hT, recurrence_succ]

theorem stamp_mono {timestamps : List Moment}
    (hsorted : timestamps.Pairwise fun a b => a.toNat ≤ b.toNat) (i j : Nat) (hi : 1 ≤ i)
    (hij : i ≤ j) (hj : j ≤ timestamps.length) : stamp timestamps i ≤ stamp timestamps j := by
  rw [stamp, stamp, List.getD_eq_getElem _ _ (show i - 1 < timestamps.length by omega),
    List.getD_eq_getElem _ _ (show j - 1 < timestamps.length by omega)]
  by_cases h : i = j
  · subst h
    exact Nat.le_refl _
  · exact List.pairwise_iff_getElem.mp hsorted (i - 1) (j - 1) (by omega) (by omega) (by omega)

theorem run_followsRecurrence {T : Moment} (hT : 0 < T.toNat) {G : Difficulty}
    {timestamps : List Moment} (hsorted : timestamps.Pairwise fun a b => a.toNat ≤ b.toNat)
    {s : Storage} (h : runGenesis T G timestamps = some s) :
    FollowsRecurrence T G timestamps timestamps.length s := by
  refine run_next hT (P := fun k a => FollowsRecurrence T G timestamps k a)
    ⟨rfl, rfl, holdsHistory_genesis _ _ G⟩ ?_ h
  intro k hk a _ ha
  exact ha.next hT hk (stamp_mono hsorted)

/-- The shift register computes the closed recurrence. -/
theorem register_computes_recurrence (T : Moment) (hT : 1 ≤ T.toNat) (G : Difficulty)
    (timestamps : List Moment) (hsorted : timestamps.Pairwise fun a b => a.toNat ≤ b.toNat)
    (s : Storage) (h : runGenesis T G timestamps = some s) :
    ∃ d : Nat → Nat, d 0 = G.toNat ∧ (∀ k, d k < 2 ^ 256) ∧
      (∀ k, 1 ≤ k → d k =
        nextTerm T.toNat (windowTotal G.toNat d k) (windowTime T.toNat (stamp timestamps) k)) ∧
      s.currentDifficulty.toNat = d timestamps.length ∧
      s.pastDifficultiesAndTimestamps.toList =
        List.replicate (60 - timestamps.length) none ++
          (List.range' (max 1 (timestamps.length - 59)) (min timestamps.length 60)).map
            (fun j => some (record d timestamps j)) ∧
      (60 ≤ timestamps.length → span T.toNat s.pastDifficultiesAndTimestamps =
        stamp timestamps timestamps.length - stamp timestamps (timestamps.length - 59)) := by
  obtain ⟨_, hcur, hreg⟩ := run_followsRecurrence hT hsorted h
  refine ⟨recurrence T.toNat G.toNat (stamp timestamps), recurrence_zero _ _ _,
    recurrence_lt T.toNat G (stamp timestamps), fun k hk => ?_, hcur, hreg.toList,
    fun hfull => ?_⟩
  · have hk1 : k = k - 1 + 1 := by omega
    rw [hk1]
    exact recurrence_succ _ _ _ _
  · have hp : 60 - timestamps.length = 0 := by omega
    have hmax : max 1 (timestamps.length - 59) = timestamps.length - 59 := by omega
    rw [span_of_history (by omega) hreg (stamp_mono hsorted), windowTime, hp, hmax, Nat.zero_mul,
      Nat.zero_add]

theorem register_computes_recurrence_two : ∃ s, ∃ d : Nat → Nat,
    runGenesis blockTime 1000 [0, 60000] = some s ∧ d 0 = 1000 ∧
      s.currentDifficulty.toNat = d 2 ∧
      s.pastDifficultiesAndTimestamps.toList =
        List.replicate 58 none ++ [some ⟨1000, 0⟩, some ⟨BitVec.ofNat 256 (d 1), 60000⟩] := by
  obtain ⟨s, hs, _⟩ := run_completes blockTime_pos (G := 1000) (by decide) [0, 60000]
  obtain ⟨d, h0, _, _, hcur, hlist, _⟩ := register_computes_recurrence blockTime blockTime_pos 1000
    [0, 60000] (by decide) s hs
  refine ⟨s, d, hs, h0, hcur, ?_⟩
  rw [hlist]
  simp [record, List.range', h0]

end Difficulty
end Crain
