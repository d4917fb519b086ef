/-
Blocks that come at least four times too fast.

With gaps of at most a quarter of the block time the new difficulty exceeds the
mean of the window, in spite of the damping and the division.  The minimum
difficulty is what makes this true: three is the smallest value at which the
rounding loss stays below the gain, since it keeps the window sum at 180 or more.
Each turnover of the window therefore raises its smallest value by at least one.
-/
import Crain.Difficulty.Retarget
import Crain.Difficulty.Settled

namespace Crain
namespace Difficulty

open Machine

/-- Timestamp `b` is between zero and `g` milliseconds after `a`. -/
def Within (g : Nat) (a b : Moment) : Prop := a.toNat ≤ b.toNat ∧ b.toNat ≤ a.toNat + g

def fastGap : Nat := blockTime.toNat / 4

theorem within_gap {g : Nat} (a b : Moment) (h : Within g a b) : b.toNat - a.toNat ≤ g := by
  have := h.2
  omega

/-- The adjusted time of a fast window is below 45 block times, so the quotient
beats the mean once the window sum is 180. -/
theorem fast_retarget {S sp : Nat} (hS : 180 ≤ S) (hsp : sp ≤ 59 * fastGap) :
    (S < 60 * maxD → S < 60 * retarget blockTime.toNat S sp) ∧
      (60 * maxD ≤ S → retarget blockTime.toNat S sp = maxD) := by
  have h3 := minD_eq
  have hM := maxD_eq
  rw [fastGap] at hsp
  rw [blockTime_toNat] at hsp ⊢
  have hadj : adjust 60000 sp ≤ 2695000 ∧ 0 < adjust 60000 sp := by
    rw [adjust_eq (by omega)]
    omega
  have hquot : max S minD * 60000 / 2695000 ≤ max S minD * 60000 / adjust 60000 sp :=
    Nat.div_le_div_left hadj.1 hadj.2
  have hfloor : max S minD = S := by omega
  rw [hfloor] at hquot
  unfold retarget
  rw [hfloor]
  omega

section Step

variable {s : Storage} {now : Moment}

theorem settled_windowSum (h : (view s).All fun x => minD ≤ x ∧ x ≤ maxD) :
    180 ≤ windowSum s.initialDifficulty.toNat (nextWindow s now) ∧
      windowSum s.initialDifficulty.toNat (nextWindow s now) ≤ 60 * maxD :=
  ⟨le_windowSum (c := 3) (h.mono fun _ hx => hx.1) now, windowSum_le (h.mono fun _ hx => hx.2) now⟩

theorem fast_span (hgaps : ∀ i, gapAt blockTime.toNat (next blockTime s now) i ≤ fastGap) :
    span blockTime.toNat (nextWindow s now) ≤ 59 * fastGap := by
  rw [span_nextWindow blockTime.toNat blockTime]
  refine Nat.le_trans (Finset.sum_le_sum fun i _ => hgaps i) ?_
  rw [Finset.sum_const, Finset.card_univ, Fintype.card_fin, smul_eq_mul]

theorem fast_nextDifficulty (h : (view s).All fun x => minD ≤ x ∧ x ≤ maxD)
    (hgaps : ∀ i, gapAt blockTime.toNat (next blockTime s now) i ≤ fastGap) :
    (windowSum s.initialDifficulty.toNat (nextWindow s now) < 60 * maxD →
      windowSum s.initialDifficulty.toNat (nextWindow s now) <
        60 * nextDifficulty blockTime s now) ∧
    (60 * maxD ≤ windowSum s.initialDifficulty.toNat (nextWindow s now) →
      nextDifficulty blockTime s now = maxD) :=
  fast_retarget (settled_windowSum h).1 (fast_span hgaps)

theorem fast_raises (h : (view s).All fun x => minD ≤ x ∧ x ≤ maxD)
    (hgaps : ∀ i, gapAt blockTime.toNat (next blockTime s now) i ≤ fastGap) {c : Nat}
    (hc : (view s).All (c ≤ ·)) : min maxD (c + 1) ≤ nextDifficulty blockTime s now := by
  have hsum := le_windowSum hc now
  obtain ⟨hmean, hmax⟩ := fast_nextDifficulty h hgaps
  rcases Nat.lt_or_ge (windowSum s.initialDifficulty.toNat (nextWindow s now)) (60 * maxD) with
    hlt | hge
  · have := hmean hlt
    omega
  · rw [hmax hge]
    omega

end Step

/-- The minimum difficulty prevents getting stuck when blocks come too fast. -/
theorem fast_blocks_raise (G : Difficulty) (past : List Moment) (s : Storage)
    (h : runGenesis blockTime G past = some s) (hlen : 61 ≤ past.length)
    (hfast : WindowGaps (Within fastGap) s) (d : Difficulty) (last : Moment)
    (hlast : s.slot (Fin.last 59) = some ⟨d, last⟩) (more : List Moment)
    (hmore : (last :: more).IsChain (Within fastGap)) :
    (∀ k, more.length = 61 * k → ∃ t, runFrom blockTime s more = some t ∧
      (view t).All (min maxD ((view s).least + k) ≤ ·)) ∧
    ∀ i (_ : i < more.length), ∃ a b, runFrom blockTime s (more.take i) = some a ∧
      onTimestampSet blockTime a more[i] = some b ∧
      (windowSum G.toNat b.pastDifficultiesAndTimestamps < 60 * maxD →
        windowSum G.toNat b.pastDifficultiesAndTimestamps < 60 * b.currentDifficulty.toNat) := by
  have hT := blockTime_pos
  have hgaps := fun k hk a ha =>
    run_gaps (P := (· ≤ fastGap)) hT within_gap h hlen hfast hlast hmore (k := k) hk (a := a) ha
  -- The range of the values is kept by every call.
  have hrange : ∀ k a, runFrom blockTime s (more.take k) = some a →
      (view a).All fun x => minD ≤ x ∧ x ≤ maxD := fun k a ha =>
    settled_range hT ((runGenesis_append h _).trans ha) (by rw [List.length_append]; omega)
  obtain ⟨t, ht⟩ := run_continues hT h (by omega) more
  constructor
  · intro k hk
    refine ⟨t, ht, Feedback.run_turnovers (Q := fun j x => min maxD ((view s).least + j) ≤ x)
      (fun j x hx => by omega) ((Feedback.all_least (view s)).mono fun x hx => by omega) ?_ ht
      (Nat.le_of_eq hk.symm)⟩
    intro i hi a b ha hab
    rw [eq_next hT hab]
    refine ⟨view_slides _ _ _, fun j hj => ?_⟩
    have hraise := fast_raises (hrange i a ha) (hgaps i hi a ha) hj
    rw [view_next_current]
    omega
  · intro i hi
    obtain ⟨b, hb⟩ := exists_run_take ht (i + 1)
    rw [run_take_succ s hi, Option.bind_eq_some_iff] at hb
    obtain ⟨a, ha, hab⟩ := hb
    have hmean := (fast_nextDifficulty (hrange i a ha) (hgaps i hi a ha)).1
    have hinit : a.initialDifficulty = G :=
      (run_initialDifficulty hT ha).trans (run_initialDifficulty hT h)
    refine ⟨a, b, ha, hab, ?_⟩
    rw [eq_next hT hab, next_currentDifficulty, ← hinit]
    exact hmean

/-- A chain whose blocks all carry the same timestamp, for one turnover of the
window after the first 61 blocks. -/
theorem fast_blocks_raise_stopped_clock : ∃ s t,
    runGenesis blockTime 1000 (List.replicate 61 0) = some s ∧
      runFrom blockTime s (List.replicate 61 0) = some t ∧
      (view t).All (min maxD ((view s).least + 1) ≤ ·) := by
  have hT := blockTime_pos
  have hlen : (List.replicate 61 (0 : Moment)).length = 61 := List.length_replicate
  have hstopped : Within fastGap 0 0 := ⟨Nat.le_refl _, Nat.zero_le _⟩
  obtain ⟨s, hs, _⟩ := run_completes hT (G := 1000) (by decide) (List.replicate 61 0)
  have hgaps := run_windowGaps hT hs (List.isChain_replicate_of_rel 61 hstopped)
  obtain ⟨⟨d, last⟩, hlast⟩ := run_filled hT hs (Fin.last 59) (by omega)
  have hlast0 : last = 0 :=
    run_timestamps (P := (· = 0)) hT (fun _ ht => List.eq_of_mem_replicate ht) hs _ hlast
  have hchain : (last :: List.replicate 61 0).IsChain (Within fastGap) := by
    rw [hlast0]
    exact List.isChain_replicate_of_rel 62 hstopped
  obtain ⟨t, ht, hraise⟩ := (fast_blocks_raise 1000 (List.replicate 61 0) s hs (by omega) hgaps d
    last hlast (List.replicate 61 0) hchain).1 1 (by omega)
  exact ⟨s, t, hs, ht, hraise⟩

end Difficulty
end Crain
