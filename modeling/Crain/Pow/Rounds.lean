/-
What the mining loop submits while the metadata stays the same.

A round that finds a seal starts the search over at zero, so the loop does not go on to the
next hit: it repeats the stretch up to the least one (`iterate_mod`).  The stream of
submissions is determined by two numbers, how far the nearest hit is ahead of the nonce the
loop is at, and the least nonce that hits (`submissions_repeat`).  Every submission after
the first is the same seal.
-/
import Crain.Pow.Mining
import Crain.Pow.Verify

namespace Crain
namespace Pow

open Machine Machine.Word

section Rounds

variable {sha3 : List Byte → H256} {metadata : Metadata} {nonce start : U256}

theorem next_of_hitsAt (nonce : U256) (h : HitsAt sha3 metadata nonce.toNat) :
    (mineStep sha3 nonce (some metadata)).1.toNat = 0 := by
  rw [hitsAt_toNat] at h
  rw [mineStep_hits h]
  rfl

theorem nonceAt_add (i j : Nat) :
    nonceAt sha3 metadata start (i + j) =
      nonceAt sha3 metadata (nonceAt sha3 metadata start i) j := by
  rw [nonceAt_eq_iterate, nonceAt_eq_iterate, nonceAt_eq_iterate, Nat.add_comm,
    Function.iterate_add_apply]

theorem nonceAt_succ_of_hits {k : Nat} (h : Hits sha3 metadata (nonceAt sha3 metadata start k)) :
    nonceAt sha3 metadata start (k + 1) = 0 := by
  rw [nonceAt_add]
  show (mineStep sha3 (nonceAt sha3 metadata start k) (some metadata)).1 = 0
  rw [mineStep_hits h]

/-- From zero on the nonce goes round the nonces up to the least hit. -/
theorem nonceAt_zero {least : U256} (hlt : least.toNat < nonceCount)
    (hhit : Hits sha3 metadata least)
    (hleast : ∀ nonce : U256, nonce.toNat < least.toNat → ¬ Hits sha3 metadata nonce) (j : Nat) :
    (nonceAt sha3 metadata 0 j).toNat = j % (least.toNat + 1) := by
  rw [nonceAt_eq_iterate]
  refine iterate_mod (P := HitsAt sha3 metadata) next_of_not_hitsAt
    (fun nonce _ h => next_of_hitsAt nonce h) rfl hlt (hitsAt_toNat.mpr hhit) ?_ j
  intro i hi
  refine hleast _ ?_
  rw [BitVec.toNat_ofNat, Nat.mod_eq_of_lt (Nat.lt_trans hi least.isLt)]
  exact hi

theorem submission_zero {least : U256} (hlt : least.toNat < nonceCount)
    (hhit : Hits sha3 metadata least)
    (hleast : ∀ nonce : U256, nonce.toNat < least.toNat → ¬ Hits sha3 metadata nonce) (j : Nat) :
    submission sha3 metadata 0 j =
      if j % (least.toNat + 1) = least.toNat then some (attemptAt sha3 metadata least).encode
      else none := by
  have hnonce := nonceAt_zero hlt hhit hleast j
  by_cases hturn : j % (least.toNat + 1) = least.toNat
  · have heq : nonceAt sha3 metadata 0 j = least := BitVec.eq_of_toNat_eq (hnonce.trans hturn)
    rw [if_pos hturn, submission_of_hits (by rw [heq]; exact hhit), heq]
  · have hmod : j % (least.toNat + 1) < least.toNat + 1 := Nat.mod_lt _ (Nat.succ_pos _)
    rw [if_neg hturn, submission_eq_none_iff]
    exact hleast _ (by omega)

/-- If there is a hit at all there is a least one. -/
theorem exists_least_hit (h : ∃ nonce : U256, nonce.toNat < nonceCount ∧ Hits sha3 metadata nonce) :
    ∃ least : U256, least.toNat < nonceCount ∧ Hits sha3 metadata least ∧
      ∀ nonce : U256, nonce.toNat < least.toNat → ¬ Hits sha3 metadata nonce := by
  classical
  have hfound : ∃ m, ∃ nonce : U256, nonce.toNat = m ∧ m < nonceCount ∧ Hits sha3 metadata nonce := by
    obtain ⟨nonce, hlt, hhit⟩ := h
    exact ⟨nonce.toNat, nonce, rfl, hlt, hhit⟩
  obtain ⟨least, heq, hlt, hhit⟩ := Nat.find_spec hfound
  refine ⟨least, by omega, hhit, fun nonce hless hhits => ?_⟩
  exact Nat.find_min hfound (by omega) ⟨nonce, rfl, by omega, hhits⟩

end Rounds

/-- From any nonce the loop can be at, and for as long as the metadata stays, the first
submission is the nearest hit, and after it the least hit is submitted again and again. -/
theorem submissions_repeat (sha3 : List Byte → H256) (rounds : List (Option Metadata))
    (metadata : Metadata)
    (h : ∃ nonce : U256, nonce.toNat < nonceCount ∧ Hits sha3 metadata nonce) :
    ∃ (k : Nat) (least : U256), k < nonceCount ∧ least.toNat < nonceCount ∧
      Hits sha3 metadata least ∧
      (∀ nonce : U256, nonce.toNat < least.toNat → ¬ Hits sha3 metadata nonce) ∧
      (∀ i, i < k → submission sha3 metadata (mine sha3 0 rounds) i = none) ∧
      (submission sha3 metadata (mine sha3 0 rounds) k).isSome ∧
      ∀ j, submission sha3 metadata (mine sha3 0 rounds) (k + 1 + j) =
        if j % (least.toNat + 1) = least.toNat then some (attemptAt sha3 metadata least).encode
        else none := by
  have hstart : (mine sha3 0 rounds).toNat < nonceCount := by
    refine mine_lt ?_ rounds
    show 0 < 2 ^ 256 - 1
    norm_num
  obtain ⟨least, hlt, hhit, hleast⟩ := exists_least_hit h
  obtain ⟨k, hk, hbefore, _, hfound, hsubmission⟩ := (exhaustive hstart).finds least hlt hhit
  refine ⟨k, least, hk, hlt, hhit, hleast, fun i hi => (hbefore i hi).1, ?_, fun j => ?_⟩
  · rw [hsubmission]
    rfl
  · rw [submission, nonceAt_add, nonceAt_succ_of_hits hfound]
    exact submission_zero hlt hhit hleast j

/-- A digest that is as large as can be at nonce zero, and blank at every other. -/
def lateDigest (bytes : List Byte) : H256 :=
  if bytes.drop 64 = List.replicate 32 0 then ⟨List.replicate 32 255, List.length_replicate⟩
  else blankHash

/-- At difficulty two nonce zero fails and nonce one hits, so every second round submits. -/
theorem submissions_repeat_late : ∃ k, ∀ j,
    submission lateDigest ⟨blankHash, 2⟩ (mine lateDigest 0 [none]) (k + 1 + j) =
      if j % 2 = 1 then some (attemptAt lateDigest ⟨blankHash, 2⟩ 1).encode else none := by
  have hfails : ¬ Hits lateDigest ⟨blankHash, 2⟩ 0 := by
    show ¬ _ = true
    decide +kernel
  have hhits : Hits lateDigest ⟨blankHash, 2⟩ 1 := by
    show _ = true
    decide +kernel
  obtain ⟨k, least, _, _, hleast, hbefore, _, _, hrepeat⟩ := submissions_repeat lateDigest [none]
    ⟨blankHash, 2⟩ ⟨1, by decide, hhits⟩
  have hone : least = 1 := by
    have hle : ¬ (1 : U256).toNat < least.toNat := fun hlt => hbefore 1 hlt hhits
    have hne : least ≠ 0 := fun hzero => hfails (hzero ▸ hleast)
    have hone : (1 : U256).toNat = 1 := rfl
    have hpos : least.toNat ≠ 0 := fun hzero => hne (BitVec.eq_of_toNat_eq hzero)
    exact BitVec.eq_of_toNat_eq (by omega)
  refine ⟨k, fun j => ?_⟩
  rw [hrepeat j, hone]
  rfl

end Pow
end Crain
