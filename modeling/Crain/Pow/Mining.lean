/-
The search of the mining loop.

A round that fails moves the nonce on by one.  The addition saturates, and the largest
word is replaced by zero as soon as it is reached, so the nonce goes round the cycle
of all words but the largest (`mineStep_fails`) and the search is one in the sense of
`Machine.Cycle`.  Rounds without metadata leave the nonce alone and a solved round
resets it to zero, so it never leaves the cycle.
-/
import Crain.Machine.Cycle
import Crain.Pow.Algorithm

namespace Crain
namespace Pow

open Machine Machine.Word

/-- The number of nonces the loop tries: the largest word is left out. -/
def nonceCount : Nat := 2 ^ 256 - 1

section Loop

variable (sha3 : List Byte → H256)

/-- The nonce after some rounds.  What became of a submission is discarded by the
loop, so a round is given by its metadata. -/
def mine (nonce : U256) (rounds : List (Option Metadata)) : U256 :=
  rounds.foldl (fun nonce metadata => (mineStep sha3 nonce metadata).1) nonce

/-- The nonce of round `k` while the metadata stays the same. -/
def nonceAt (metadata : Metadata) (start : U256) (k : Nat) : U256 :=
  mine sha3 start (List.replicate k (some metadata))

/-- What round `k` submits while the metadata stays the same. -/
def submission (metadata : Metadata) (start : U256) (k : Nat) : Option RawSeal :=
  (mineStep sha3 (nonceAt sha3 metadata start k) (some metadata)).2

end Loop

section Rounds

variable {sha3 : List Byte → H256} {metadata : Metadata} {nonce : U256}

/-! ## One round -/

/-- A failed round moves to the next nonce of the cycle. -/
theorem toNat_mineStep_fails (hnonce : nonce.toNat < nonceCount)
    (h : ¬ Hits sha3 metadata nonce) :
    (mineStep sha3 nonce (some metadata)).1.toNat = (nonce.toNat + 1) % nonceCount := by
  have hone : (1 : U256).toNat = 1 := rfl
  have hones : (BitVec.allOnes 256).toNat = nonceCount := rfl
  have hsum : (saturatingAdd nonce 1).toNat = nonce.toNat + 1 := by
    rw [toNat_saturatingAdd_of_lt, hone]
    rw [hone]
    exact Nat.lt_of_le_of_lt hnonce (Nat.sub_lt (Nat.two_pow_pos 256) Nat.one_pos)
  rw [mineStep_fails h]
  show (if saturatingAdd nonce 1 = BitVec.allOnes 256 then 0 else saturatingAdd nonce 1).toNat = _
  by_cases hlast : nonce.toNat + 1 = nonceCount
  · have heq : saturatingAdd nonce 1 = BitVec.allOnes 256 := by
      apply BitVec.eq_of_toNat_eq
      rw [hsum, hones, hlast]
    rw [if_pos heq, hlast, Nat.mod_self]
    rfl
  · have hne : saturatingAdd nonce 1 ≠ BitVec.allOnes 256 := by
      intro heq
      rw [heq, hones] at hsum
      exact hlast hsum.symm
    rw [if_neg hne, hsum, Nat.mod_eq_of_lt (Nat.lt_of_le_of_ne hnonce hlast)]

theorem mineStep_lt (hnonce : nonce.toNat < nonceCount) (round : Option Metadata) :
    (mineStep sha3 nonce round).1.toNat < nonceCount := by
  cases round with
  | none => exact hnonce
  | some metadata =>
    by_cases h : Hits sha3 metadata nonce
    · rw [mineStep_hits h]
      exact Nat.zero_lt_of_lt hnonce
    · rw [toNat_mineStep_fails hnonce h]
      exact Nat.mod_lt _ (Nat.zero_lt_of_lt hnonce)

/-! ## Runs -/

theorem mine_lt (hnonce : nonce.toNat < nonceCount) (rounds : List (Option Metadata)) :
    (mine sha3 nonce rounds).toNat < nonceCount := by
  induction rounds generalizing nonce with
  | nil => exact hnonce
  | cons round rest ih => exact ih (mineStep_lt hnonce round)

theorem nonceAt_eq_iterate (start : U256) (k : Nat) :
    nonceAt sha3 metadata start k =
      (fun nonce => (mineStep sha3 nonce (some metadata)).1)^[k] start := by
  induction k generalizing start with
  | zero => rfl
  | succ k ih =>
    rw [Function.iterate_succ_apply, ← ih]
    rfl

variable {start : U256}

theorem submission_of_hits {k : Nat} (h : Hits sha3 metadata (nonceAt sha3 metadata start k)) :
    submission sha3 metadata start k =
      some (attemptAt sha3 metadata (nonceAt sha3 metadata start k)).encode := by
  rw [submission, mineStep_hits h]

theorem submission_eq_none_iff (k : Nat) :
    submission sha3 metadata start k = none ↔
      ¬ Hits sha3 metadata (nonceAt sha3 metadata start k) := by
  by_cases h : Hits sha3 metadata (nonceAt sha3 metadata start k)
  · simp [submission_of_hits h, h]
  · simp [submission, mineStep_fails h, h]

/-! ## The search -/

/-- `Hits` as a property of the position on the cycle. -/
def HitsAt (sha3 : List Byte → H256) (metadata : Metadata) (position : Nat) : Prop :=
  Hits sha3 metadata (BitVec.ofNat 256 position)

theorem hitsAt_toNat : HitsAt sha3 metadata nonce.toNat ↔ Hits sha3 metadata nonce := by
  rw [HitsAt, BitVec.ofNat_toNat, BitVec.setWidth_eq]

theorem next_of_not_hitsAt (nonce : U256) (hnonce : nonce.toNat < nonceCount)
    (h : ¬ HitsAt sha3 metadata nonce.toNat) :
    (mineStep sha3 nonce (some metadata)).1.toNat = (nonce.toNat + 1) % nonceCount := by
  rw [hitsAt_toNat] at h
  exact toNat_mineStep_fails hnonce h

theorem submission_eq_none_iff_iterate (i : Nat) :
    submission sha3 metadata start i = none ↔
      ¬ HitsAt sha3 metadata
        ((fun nonce => (mineStep sha3 nonce (some metadata)).1)^[i] start).toNat := by
  rw [submission_eq_none_iff, nonceAt_eq_iterate, hitsAt_toNat]

/-- After `k` failed rounds the nonce is `k` positions ahead. -/
theorem toNat_nonceAt (hstart : start.toNat < nonceCount) {k : Nat}
    (hfail : ∀ i, i < k → submission sha3 metadata start i = none) :
    (nonceAt sha3 metadata start k).toNat = cycleAt nonceCount start.toNat k := by
  rw [nonceAt_eq_iterate]
  exact iterate_cycleAt next_of_not_hitsAt hstart fun i hi =>
    (submission_eq_none_iff_iterate i).mp (hfail i hi)

/-- The rounds fail as long as there is no hit on the way. -/
theorem forall_submission_none_iff (hstart : start.toNat < nonceCount) (k : Nat) :
    (∀ i, i < k → submission sha3 metadata start i = none) ↔
      ∀ i, i < k → ¬ HitsAt sha3 metadata (cycleAt nonceCount start.toNat i) := by
  rw [← forall_fails_iff next_of_not_hitsAt hstart]
  exact forall_congr' fun i => imp_congr_right fun _ => submission_eq_none_iff_iterate i

/-- What the rounds do while the metadata stays the same. -/
structure Exhaustive (sha3 : List Byte → H256) (metadata : Metadata) (start : U256) : Prop where
  /-- Failed rounds try the nonces in cyclic order. -/
  cyclic : ∀ k, (∀ i, i < k → submission sha3 metadata start i = none) →
    (nonceAt sha3 metadata start k).toNat = cycleAt nonceCount start.toNat k
  fresh : ∀ i j, i < j → j < nonceCount →
    (∀ r, r < j → submission sha3 metadata start r = none) →
      nonceAt sha3 metadata start i ≠ nonceAt sha3 metadata start j
  covers : (∀ r, r < nonceCount → submission sha3 metadata start r = none) →
    ∀ nonce : U256, nonce.toNat < nonceCount →
      ∃ i, i < nonceCount ∧ nonceAt sha3 metadata start i = nonce
  /-- The nearest hit is submitted within one turn. -/
  finds : ∀ nonce : U256, nonce.toNat < nonceCount → Hits sha3 metadata nonce →
    ∃ k, k < nonceCount ∧
      (∀ i, i < k → submission sha3 metadata start i = none ∧
        ¬ HitsAt sha3 metadata (cycleAt nonceCount start.toNat i)) ∧
      (nonceAt sha3 metadata start k).toNat = cycleAt nonceCount start.toNat k ∧
      Hits sha3 metadata (nonceAt sha3 metadata start k) ∧
      submission sha3 metadata start k =
        some (attemptAt sha3 metadata (nonceAt sha3 metadata start k)).encode
  never : (∀ nonce : U256, nonce.toNat < nonceCount → ¬ Hits sha3 metadata nonce) →
    ∀ k, submission sha3 metadata start k = none

theorem submission_none_of_no_hit (hstart : start.toNat < nonceCount)
    (h : ∀ nonce : U256, nonce.toNat < nonceCount → ¬ Hits sha3 metadata nonce) (k : Nat) :
    submission sha3 metadata start k = none := by
  have hfit : nonceCount < 2 ^ 256 := Nat.sub_lt (Nat.two_pow_pos 256) Nat.one_pos
  have hpath : ∀ i, i < k + 1 → ¬ HitsAt sha3 metadata (cycleAt nonceCount start.toNat i) := by
    intro i _
    have hlt := cycleAt_lt hstart i
    apply h
    rw [BitVec.toNat_ofNat, Nat.mod_eq_of_lt (Nat.lt_trans hlt hfit)]
    exact hlt
  exact (forall_submission_none_iff hstart (k + 1)).mpr hpath k (Nat.lt_succ_self k)

theorem exhaustive (hstart : start.toNat < nonceCount) : Exhaustive sha3 metadata start where
  cyclic k hfail := toNat_nonceAt hstart hfail
  fresh i j hij hj hfail heq := by
    have hi := toNat_nonceAt hstart fun r hr => hfail r (Nat.lt_trans hr hij)
    have hsame := congrArg BitVec.toNat heq
    rw [hi, toNat_nonceAt hstart hfail] at hsame
    exact Nat.ne_of_lt hij (cycleAt_injective (Nat.lt_trans hij hj) hj hsame)
  covers hfail nonce hnonce := by
    have hdistance := cycleDistance_lt hstart nonce.toNat
    refine ⟨cycleDistance nonceCount start.toNat nonce.toNat, hdistance, ?_⟩
    apply BitVec.eq_of_toNat_eq
    rw [toNat_nonceAt hstart fun r hr => hfail r (Nat.lt_trans hr hdistance)]
    exact cycleAt_cycleDistance hstart hnonce
  finds nonce hnonce hhit := by
    obtain ⟨k, hk, hfound, hbefore⟩ := exists_first_cycleAt (P := HitsAt sha3 metadata) hstart
      ⟨nonce.toNat, hnonce, hitsAt_toNat.mpr hhit⟩
    have hfail := (forall_submission_none_iff hstart k).mpr hbefore
    have hnonceAt := toNat_nonceAt hstart hfail
    rw [← hnonceAt, hitsAt_toNat] at hfound
    exact ⟨k, hk, fun i hi => ⟨hfail i hi, hbefore i hi⟩, hnonceAt, hfound,
      submission_of_hits hfound⟩
  never h := submission_none_of_no_hit hstart h

end Rounds

/-- From every nonce the loop can be at, the search goes through all nonces below the
largest word. -/
theorem nonce_search_exhaustive (sha3 : List Byte → H256) (rounds : List (Option Metadata)) :
    (mine sha3 0 rounds).toNat < nonceCount ∧
      ∀ metadata, Exhaustive sha3 metadata (mine sha3 0 rounds) := by
  have hstart : (mine sha3 0 rounds).toNat < nonceCount := by
    refine mine_lt ?_ rounds
    show 0 < 2 ^ 256 - 1
    norm_num
  exact ⟨hstart, fun metadata => exhaustive hstart⟩

end Pow
end Crain
