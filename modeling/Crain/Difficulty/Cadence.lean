/-
Chains whose blocks come at a constant rate.

With 59 gaps of `g` in the window and one difficulty `x` in all its slots, one call compares
the adjusted time of the window with the goal of 60 block times.  Up to the goal the
difficulty cannot fall, and it rises unless rounding or the upper cap hides the rise.  Above
the goal it falls unless it is at the minimum.  `Steady` says when nothing changes, and
`cadence_fate` that this decides the fate of the chain: the difficulty either stays at `x` for
ever, or moves away from it on the first call and reaches a cap at no less than one unit
for each turnover of the window.
-/
import Crain.Difficulty.Retarget
import Crain.Difficulty.Settled

namespace Crain
namespace Difficulty

open Machine

/-- The adjusted time of a window whose gaps are all `g`. -/
def cadence (T g : Nat) : Nat := adjust T (59 * g)

/-- The difficulties that a constant gap leaves as they are. -/
def Steady (T g x : Nat) : Prop :=
  (cadence T g ≤ 60 * T ∧ (60 * x * T < cadence T g * (x + 1) ∨ x = maxD)) ∨
    (60 * T < cadence T g ∧ x = minD)

instance (T g x : Nat) : Decidable (Steady T g x) := inferInstanceAs (Decidable (_ ∨ _))

/-- A gap after which a chain at difficulty `x` speeds up. -/
def Rises (T g x : Nat) : Prop := cadence T g * (x + 1) ≤ 60 * x * T

section Retarget

variable {T g x c S sp : Nat}

theorem cadence_pos (hT : 0 < T) : 0 < cadence T g := by
  have h := (adjust_bounds hT (59 * g)).1
  unfold cadence
  omega

theorem Rises.le_goal (hT : 0 < T) (h : Rises T g x) : cadence T g < 60 * T := by
  have hpos := cadence_pos (g := g) hT
  have hmul : cadence T g * x + cadence T g ≤ 60 * T * x := by
    rw [← Nat.mul_succ, Nat.mul_right_comm]
    exact h
  by_contra hge
  have hle : 60 * T * x ≤ cadence T g * x := Nat.mul_le_mul_right x (Nat.le_of_not_lt hge)
  omega

theorem Rises.succ (hT : 0 < T) (h : Rises T g x) : Rises T g (x + 1) := by
  have hgoal := h.le_goal hT
  unfold Rises at h ⊢
  calc cadence T g * (x + 1 + 1) = cadence T g * (x + 1) + cadence T g := Nat.mul_succ _ _
    _ ≤ 60 * x * T + 60 * T := Nat.add_le_add h (Nat.le_of_lt hgoal)
    _ = 60 * (x + 1) * T := by rw [Nat.mul_succ, Nat.add_mul]

theorem Rises.add (hT : 0 < T) (h : Rises T g x) (k : Nat) : Rises T g (x + k) := by
  induction k with
  | zero => exact h
  | succ k ih => exact ih.succ hT

/-- A sum of at least 60 values `x`, in at most the time of the cadence, raises the
difficulty. -/
theorem Rises.retarget (hT : 0 < T) (h : Rises T g x) (hS : 60 * x ≤ S) (hsp : sp ≤ 59 * g) :
    min maxD (x + 1) ≤ retarget T S sp := by
  have hadj : adjust T sp ≤ cadence T g := adjust_mono hT hsp
  have hpos : 0 < adjust T sp := by
    have := (adjust_bounds hT sp).1
    omega
  have hquot : x + 1 ≤ max S minD * T / adjust T sp := by
    rw [Nat.le_div_iff_mul_le hpos]
    calc (x + 1) * adjust T sp ≤ (x + 1) * cadence T g := Nat.mul_le_mul_left _ hadj
      _ = cadence T g * (x + 1) := Nat.mul_comm _ _
      _ ≤ 60 * x * T := h
      _ ≤ max S minD * T := Nat.mul_le_mul_right T (by omega)
  unfold Difficulty.retarget
  omega

/-- A sum of at most 60 values `x`, over at least the time of a cadence above the goal,
lowers the difficulty. -/
theorem falls_retarget (hT : 0 < T) (hgoal : 60 * T < cadence T g) (hx : minD ≤ x)
    (hS : S ≤ 60 * x) (hsp : 59 * g ≤ sp) : retarget T S sp ≤ max minD (x - 1) := by
  have h3 := minD_eq
  have hadj : cadence T g ≤ adjust T sp := adjust_mono hT hsp
  have hquot : max S minD * T / adjust T sp < x := by
    rw [Nat.div_lt_iff_lt_mul (by omega)]
    calc max S minD * T ≤ 60 * x * T := Nat.mul_le_mul_right T (by omega)
      _ = x * (60 * T) := by rw [Nat.mul_comm 60 x, Nat.mul_assoc]
      _ < x * adjust T sp := Nat.mul_lt_mul_of_pos_left (by omega) (by omega)
  unfold retarget
  omega

/-- The window that is all `x` and all `g` stays so exactly when `x` is steady. -/
theorem retarget_steady (hT : 0 < T) (hlo : minD ≤ x) (hhi : x ≤ maxD) (h : Steady T g x) :
    retarget T (60 * x) (59 * g) = x := by
  have h3 := minD_eq
  have hpos := cadence_pos (g := g) hT
  have hfloor : max (60 * x) minD = 60 * x := by omega
  rw [retarget, hfloor]
  show min maxD (max minD (60 * x * T / cadence T g)) = x
  rcases h with ⟨hgoal, hhidden⟩ | ⟨hgoal, hmin⟩
  · have hge : x ≤ 60 * x * T / cadence T g := by
      rw [Nat.le_div_iff_mul_le hpos]
      calc x * cadence T g ≤ x * (60 * T) := Nat.mul_le_mul_left x hgoal
        _ = 60 * x * T := by rw [Nat.mul_comm 60 x, Nat.mul_assoc]
    rcases hhidden with hround | hmax
    · have hle : 60 * x * T / cadence T g < x + 1 := by
        rw [Nat.div_lt_iff_lt_mul hpos, Nat.mul_comm (x + 1)]
        exact hround
      omega
    · omega
  · have hlow := falls_retarget hT hgoal hlo (Nat.le_refl _) (Nat.le_refl (59 * g))
    rw [retarget, hfloor] at hlow
    have hlow : min maxD (max minD (60 * x * T / cadence T g)) ≤ max minD (x - 1) := hlow
    omega

theorem rises_of_not_steady (hgoal : cadence T g ≤ 60 * T) (h : ¬ Steady T g x) :
    Rises T g x ∧ x ≠ maxD := by
  unfold Steady at h
  rw [not_or, not_and, not_or] at h
  obtain ⟨hround, hmax⟩ := h.1 hgoal
  exact ⟨Nat.le_of_not_lt hround, hmax⟩

/-- At the runtime's block time no constant gap keeps a difficulty from 189473 on: the goal
of 60 block times is not a multiple of the 59 gaps. -/
theorem never_steady (g : Nat) (hlo : 189473 ≤ x) (hhi : x < maxD) :
    ¬ Steady blockTime.toNat g x := by
  have h3 := minD_eq
  rw [blockTime_toNat]
  unfold Steady
  have hcadence : cadence 60000 g = min 7200000 ((max (59 * g) 1 + 7200000) / 3) :=
    adjust_eq (by omega) _
  intro h
  rcases h with ⟨hgoal, hround | hmax⟩ | ⟨_, hmin⟩
  · have hg : g ≤ 61016 := by
      by_contra hmore
      have hgap : 61017 ≤ g := by omega
      omega
    have hle : cadence 60000 g ≤ 3599981 := by omega
    have hmul : cadence 60000 g * (x + 1) ≤ 3599981 * (x + 1) := Nat.mul_le_mul_right _ hle
    omega
  · omega
  · omega

/-- Below that, blocks 61016 milliseconds apart keep every difficulty. -/
theorem steady_of_lt (h : x < 189473) : Steady blockTime.toNat 61016 x := by
  rw [blockTime_toNat]
  have hcadence : cadence 60000 61016 = 3599981 := by decide
  refine Or.inl ⟨by omega, Or.inl ?_⟩
  rw [hcadence]
  omega

end Retarget

/-! ## Runs -/

section Step

variable {T : Moment} {s : Storage} {now : Moment} {g x : Nat}

theorem span_eq_of_gaps (h : ∀ i, gapAt T.toNat (next T s now) i = g) :
    span T.toNat (nextWindow s now) = 59 * g := by
  rw [span_nextWindow T.toNat T, Finset.sum_congr rfl fun i _ => h i, Finset.sum_const,
    Finset.card_univ, Fintype.card_fin, smul_eq_mul]

theorem steady_next (hT : 0 < T.toNat) (hlo : minD ≤ x) (hhi : x ≤ maxD)
    (hsteady : Steady T.toNat g x) (hgaps : ∀ i, gapAt T.toNat (next T s now) i = g)
    (hall : (view s).All (· = x)) : nextDifficulty T s now = x := by
  have hsum : windowSum s.initialDifficulty.toNat (nextWindow s now) = 60 * x :=
    Nat.le_antisymm (windowSum_le (hall.mono fun y hy => Nat.le_of_eq hy) now)
      (le_windowSum (hall.mono fun y hy => Nat.le_of_eq hy.symm) now)
  rw [nextDifficulty, hsum, span_eq_of_gaps hgaps]
  exact retarget_steady hT hlo hhi hsteady

theorem rises_next (hT : 0 < T.toNat) (hrises : Rises T.toNat g x)
    (hgaps : ∀ i, gapAt T.toNat (next T s now) i = g) (hall : (view s).All (x ≤ ·)) :
    min maxD (x + 1) ≤ nextDifficulty T s now :=
  hrises.retarget hT (le_windowSum hall now) (Nat.le_of_eq (span_eq_of_gaps hgaps))

theorem falls_next (hT : 0 < T.toNat) (hgoal : 60 * T.toNat < cadence T.toNat g)
    (hlo : minD ≤ x) (hgaps : ∀ i, gapAt T.toNat (next T s now) i = g)
    (hall : (view s).All (· ≤ x)) : nextDifficulty T s now ≤ max minD (x - 1) :=
  falls_retarget hT hgoal hlo (windowSum_le hall now) (Nat.le_of_eq (span_eq_of_gaps hgaps).symm)

end Step

/-- Timestamp `b` is `g` milliseconds after `a`. -/
def Exactly (g : Nat) (a b : Moment) : Prop := a.toNat + g = b.toNat

/-- All gaps of a continuation at a constant rate are the same. -/
theorem run_cadence {T : Moment} (hT : 0 < T.toNat) {g : Nat} {s : Storage}
    (hgaps : ∀ i, gapAt T.toNat s i = g) {d : Difficulty} {last : Moment}
    (hlast : s.slot (Fin.last 59) = some ⟨d, last⟩) {more : List Moment}
    (hmore : (last :: more).IsChain (Exactly g)) {k : Nat} (hk : k < more.length) {a : Storage}
    (ha : runFrom T s (more.take k) = some a) (i : Fin 59) :
    gapAt T.toNat (next T a more[k]) i = g := by
  have hlastGap : ∀ k (hk : k < more.length) a, runFrom T s (more.take k) = some a →
      lastGap T.toNat a more[k] = g := by
    intro k hk a ha
    obtain ⟨d', prev, hprev, hR⟩ := lastSlot_chain hT hlast hmore hk ha
    have hR : prev.toNat + g = more[k].toNat := hR
    rw [lastGap_of_some hprev]
    omega
  have hall := run_next_take hT (P := fun _ a => ∀ i, gapAt T.toNat a i = g) hgaps
    (fun k hk a ha hP => gapAt_next (P := (· = g)) T hP (hlastGap k hk a ha)) k
    (Nat.le_of_lt hk) a ha
  exact gapAt_next (P := (· = g)) T hall (hlastGap k hk a ha) i

section Fate

variable {T : Moment} {g x : Nat} {s t : Storage} {more : List Moment}

/-- The gap of every call of the run is `g`. -/
def RunGaps (T : Moment) (g : Nat) (s : Storage) (more : List Moment) : Prop :=
  ∀ k (hk : k < more.length) a, runFrom T s (more.take k) = some a →
    ∀ i, gapAt T.toNat (next T a more[k]) i = g

theorem run_steady (hT : 0 < T.toNat) (hlo : minD ≤ x) (hhi : x ≤ maxD)
    (hsteady : Steady T.toNat g x) (hgaps : RunGaps T g s more) (hall : (view s).All (· = x))
    (h : runFrom T s more = some t) : (view t).All (· = x) := by
  refine run_next hT (P := fun _ a => (view a).All (· = x)) hall ?_ h
  intro k hk a ha hP
  refine hP.slide (view_slides _ _ _) ?_
  rw [view_next_current]
  exact steady_next hT hlo hhi hsteady (hgaps k hk a ha) hP

theorem run_rises (hT : 0 < T.toNat) (hlt : x < maxD) (hrises : Rises T.toNat g x)
    (hgaps : RunGaps T g s more) (hall : (view s).All (x ≤ ·)) (h : runFrom T s more = some t) :
    (1 ≤ more.length → x < t.currentDifficulty.toNat) ∧
      ∀ k, 61 * k ≤ more.length → (view t).All (min maxD (x + k) ≤ ·) := by
  constructor
  · have hinv := run_next hT (P := fun k a => (view a).All (x ≤ ·) ∧ (1 ≤ k → x < (view a).current))
      ⟨hall, fun h => absurd h (by omega)⟩ (fun k hk a ha hP => by
        have hcur := rises_next hT hrises (hgaps k hk a ha) hP.1
        rw [← view_next_current] at hcur
        exact ⟨hP.1.slide (view_slides _ _ _) (by omega), fun _ => by omega⟩) h
    exact hinv.2
  · intro k hk
    refine Feedback.run_turnovers (Q := fun j y => min maxD (x + j) ≤ y) (fun j y hy => by omega)
      (hall.mono fun y hy => by omega) ?_ h hk
    intro i hi a b ha hab
    rw [eq_next hT hab]
    refine ⟨view_slides _ _ _, fun j hj => ?_⟩
    have hcap : min maxD (x + j) = x + min (maxD - x) j := by omega
    have hnext := rises_next hT (hrises.add hT (min (maxD - x) j)) (hgaps i hi a ha)
      (hj.mono fun y hy => by omega)
    rw [view_next_current]
    omega

theorem run_falls (hT : 0 < T.toNat) (hlt : minD < x) (hgoal : 60 * T.toNat < cadence T.toNat g)
    (hgaps : RunGaps T g s more) (hall : (view s).All (· ≤ x)) (h : runFrom T s more = some t) :
    (1 ≤ more.length → t.currentDifficulty.toNat < x) ∧
      ∀ k, 61 * k ≤ more.length → (view t).All (· ≤ max minD (x - k)) := by
  constructor
  · have hinv := run_next hT (P := fun k a => (view a).All (· ≤ x) ∧ (1 ≤ k → (view a).current < x))
      ⟨hall, fun h => absurd h (by omega)⟩ (fun k hk a ha hP => by
        have hcur := falls_next hT hgoal (Nat.le_of_lt hlt) (hgaps k hk a ha) hP.1
        rw [← view_next_current] at hcur
        exact ⟨hP.1.slide (view_slides _ _ _) (by omega), fun _ => by omega⟩) h
    exact hinv.2
  · intro k hk
    refine Feedback.run_turnovers (Q := fun j y => y ≤ max minD (x - j)) (fun j y hy => by omega)
      (hall.mono fun y hy => by omega) ?_ h hk
    intro i hi a b ha hab
    rw [eq_next hT hab]
    refine ⟨view_slides _ _ _, fun j hj => ?_⟩
    have hnext := falls_next hT hgoal (Nat.le_max_left _ _) (hgaps i hi a ha) hj
    rw [view_next_current]
    omega

end Fate

/-- A chain at one difficulty and a constant gap stays there for ever, or leaves it on the
next block for good and approaches a cap with every turnover of the window. -/
theorem cadence_fate (T : Moment) (hT : 1 ≤ T.toNat) (g x : Nat) (hlo : minD ≤ x) (hhi : x ≤ maxD)
    (s : Storage) (hall : (view s).All (· = x)) (hgaps : ∀ i, gapAt T.toNat s i = g)
    (d : Difficulty) (last : Moment) (hlast : s.slot (Fin.last 59) = some ⟨d, last⟩)
    (more : List Moment) (hmore : (last :: more).IsChain (Exactly g)) (t : Storage)
    (h : runFrom T s more = some t) :
    (Steady T.toNat g x → (view t).All (· = x)) ∧
      (¬ Steady T.toNat g x → cadence T.toNat g ≤ 60 * T.toNat →
        (1 ≤ more.length → x < t.currentDifficulty.toNat) ∧
          ∀ k, 61 * k ≤ more.length → (view t).All (min maxD (x + k) ≤ ·)) ∧
      (¬ Steady T.toNat g x → 60 * T.toNat < cadence T.toNat g →
        (1 ≤ more.length → t.currentDifficulty.toNat < x) ∧
          ∀ k, 61 * k ≤ more.length → (view t).All (· ≤ max minD (x - k))) := by
  have hrun : RunGaps T g s more := fun k hk a ha => run_cadence hT hgaps hlast hmore hk ha
  refine ⟨fun hsteady => run_steady hT hlo hhi hsteady hrun hall h, fun hnot hgoal => ?_,
    fun hnot hgoal => ?_⟩
  · obtain ⟨hrises, hmax⟩ := rises_of_not_steady hgoal hnot
    exact run_rises hT (Nat.lt_of_le_of_ne hhi hmax) hrises hrun
      (hall.mono fun y hy => Nat.le_of_eq hy.symm) h
  · have hmin : minD ≠ x := fun heq => hnot (Or.inr ⟨hgoal, heq.symm⟩)
    exact run_falls hT (Nat.lt_of_le_of_ne hlo hmin) hgoal hrun
      (hall.mono fun y hy => Nat.le_of_eq hy) h

/-- At the runtime's block time 189472 is the largest difficulty below the cap that some
constant rate of blocks keeps. -/
theorem equilibrium_bound (g x : Nat) (hlo : minD ≤ x) (hhi : x < maxD) (s : Storage)
    (hall : (view s).All (· = x)) (hgaps : ∀ i, gapAt blockTime.toNat s i = g) (d : Difficulty)
    (last : Moment) (hlast : s.slot (Fin.last 59) = some ⟨d, last⟩) (more : List Moment)
    (hmore : (last :: more).IsChain (Exactly g)) (t : Storage)
    (h : runFrom blockTime s more = some t) :
    (x < 189473 → g = 61016 → (view t).All (· = x)) ∧
      (189473 ≤ x → 1 ≤ more.length → t.currentDifficulty.toNat ≠ x) := by
  have hT := blockTime_pos
  have hrun : RunGaps blockTime g s more := fun k hk a ha => run_cadence hT hgaps hlast hmore hk ha
  constructor
  · intro hx hg
    have hsteady : Steady blockTime.toNat g x := by
      rw [hg]
      exact steady_of_lt hx
    exact run_steady hT hlo (Nat.le_of_lt hhi) hsteady hrun hall h
  · intro hx hlen
    have hnot := never_steady g hx hhi
    by_cases hgoal : cadence blockTime.toNat g ≤ 60 * blockTime.toNat
    · have hrises := run_rises hT hhi (rises_of_not_steady hgoal hnot).1 hrun
        (hall.mono fun y hy => Nat.le_of_eq hy.symm) h
      exact Nat.ne_of_gt (hrises.1 hlen)
    · have hlt : minD < x := by
        have h3 := minD_eq
        omega
      have hfalls := run_falls hT hlt (Nat.lt_of_not_le hgoal) hrun
        (hall.mono fun y hy => Nat.le_of_eq hy) h
      exact Nat.ne_of_lt (hfalls.1 hlen)

/-! ## Full windows -/

/-- A full window at difficulty `x` whose blocks came `g` milliseconds apart. -/
def evenWindow (x : Difficulty) (g : Nat) : Storage where
  pastDifficultiesAndTimestamps := Vector.ofFn fun i => some ⟨x, BitVec.ofNat 64 (g * i.val)⟩
  currentDifficulty := x
  initialDifficulty := x

theorem slot_evenWindow (x : Difficulty) (g : Nat) (i : Fin 60) :
    (evenWindow x g).slot i = some ⟨x, BitVec.ofNat 64 (g * i.val)⟩ :=
  Vector.getElem_ofFn _

theorem all_of_slots {s : Storage} {x : Nat}
    (hslots : ∀ i, slotDifficulty s.initialDifficulty.toNat (s.slot i) = x)
    (hcurrent : s.currentDifficulty.toNat = x) : (view s).All (· = x) :=
  ⟨hslots, hcurrent⟩

theorem all_evenWindow (x : Difficulty) (g : Nat) : (view (evenWindow x g)).All (· = x.toNat) := by
  refine all_of_slots (fun i => ?_) rfl
  rw [slot_evenWindow, slotDifficulty]

theorem gapAt_evenWindow (T : Nat) (x : Difficulty) {g : Nat} (hg : 59 * g < 2 ^ 64) (i : Fin 59) :
    gapAt T (evenWindow x g) i = g := by
  rw [gapAt, slot_evenWindow, slot_evenWindow]
  show (BitVec.ofNat 64 (g * (i.val + 1))).toNat - (BitVec.ofNat 64 (g * i.val)).toNat = g
  have hi : g * (i.val + 1) ≤ g * 59 := Nat.mul_le_mul_left g (by omega)
  have hsucc : g * (i.val + 1) = g * i.val + g := Nat.mul_succ _ _
  rw [BitVec.toNat_ofNat, BitVec.toNat_ofNat, Nat.mod_eq_of_lt (by omega),
    Nat.mod_eq_of_lt (by omega)]
  omega

theorem run_evenWindow {x : Difficulty} (hfit : 60 * x.toNat * blockTime.toNat < 2 ^ 256)
    (g : Nat) (now : Moment) :
    runFrom blockTime (evenWindow x g) [now] = some (next blockTime (evenWindow x g) now) := by
  have hcapped : Capped x (evenWindow x g) := by
    refine ⟨rfl, (all_evenWindow x g).mono fun y hy => ?_⟩
    rw [hy]
    exact Nat.le_max_left _ _
  rw [runFrom, run_cons, hcapped.step blockTime_pos hfit, Option.bind_some, run_nil]

/-- Blocks 30 seconds apart raise a difficulty of 1000. -/
theorem cadence_fate_half_minute : ∃ t, runFrom blockTime (evenWindow 1000 30000) [1800000] =
    some t ∧ 1000 < t.currentDifficulty.toNat := by
  have hmore : ((1770000 : Moment) :: [1800000]).IsChain (Exactly 30000) := by
    rw [List.isChain_pair]
    exact (by decide : (1770000 : Moment).toNat + 30000 = (1800000 : Moment).toNat)
  have hrun := run_evenWindow (x := 1000) (by decide) 30000 1800000
  have hnot : ¬ Steady blockTime.toNat 30000 1000 := by decide
  have hfate := cadence_fate blockTime blockTime_pos 30000 1000 (by decide) (by decide)
    (evenWindow 1000 30000) (all_evenWindow 1000 30000) (gapAt_evenWindow _ 1000 (by decide)) 1000
    1770000 (slot_evenWindow 1000 30000 (Fin.last 59)) [1800000] hmore _ hrun
  exact ⟨_, hrun, (hfate.2.1 hnot (by decide)).1 (by decide)⟩

/-- Blocks exactly on target do not keep a difficulty of 200000. -/
theorem equilibrium_bound_on_target : ∃ t, runFrom blockTime (evenWindow 200000 60000) [3600000] =
    some t ∧ t.currentDifficulty.toNat ≠ 200000 := by
  have hmore : ((3540000 : Moment) :: [3600000]).IsChain (Exactly 60000) := by
    rw [List.isChain_pair]
    exact (by decide : (3540000 : Moment).toNat + 60000 = (3600000 : Moment).toNat)
  have hrun := run_evenWindow (x := 200000) (by decide) 60000 3600000
  have hbound := equilibrium_bound 60000 200000 (by decide) (by decide) (evenWindow 200000 60000)
    (all_evenWindow 200000 60000) (gapAt_evenWindow _ 200000 (by decide)) 200000 3540000
    (slot_evenWindow 200000 60000 (Fin.last 59)) [3600000] hmore _ hrun
  exact ⟨_, hrun, hbound.2 (by decide) (by decide)⟩

end Difficulty
end Crain
