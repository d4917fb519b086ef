/-
The acceptance set of seal verification.

`verify` accepts a byte string exactly when its first 96 bytes are the encoding
of a solved attempt at the given block and difficulty (`verify_accepts_iff`), and
the mining loop submits exactly the encodings that are accepted.  What follows
the first 96 bytes is never read, so an accepted seal stays accepted whatever is
appended to it, and `accepted_malleable_iff` says that this is the only freedom
there is.
-/
import Crain.Pow.Algorithm

namespace Crain
namespace Pow

open Machine

section Verify

variable {sha3 : List Byte → H256} {ε : Type} {preHash : H256} {difficulty : U256}

/-- The seal comes from an attempt at the given block, and its work meets the
difficulty. -/
def Solves (sha3 : List Byte → H256) (preHash : H256) (difficulty : U256) (s : Seal) : Prop :=
  s = Compute.compute sha3 ⟨difficulty, preHash, s.nonce⟩ ∧
    Bytes.beValue s.work.bytes * difficulty.toNat < 2 ^ 256

/-- An attempt is the only seal of its nonce that can solve the block. -/
theorem solves_compute_iff (nonce : U256) :
    Solves sha3 preHash difficulty (Compute.compute sha3 ⟨difficulty, preHash, nonce⟩) ↔
      hashMeetsDifficulty (Compute.compute sha3 ⟨difficulty, preHash, nonce⟩).work difficulty =
        true := by
  rw [hashMeetsDifficulty_iff]
  exact and_iff_right rfl

/-- Verification always returns, and says whether the decoded seal solves the
block. -/
theorem verify_spec (sha3 : List Byte → H256) (ε : Type) (preHash : H256) (difficulty : U256)
    (rawSeal : RawSeal) :
    ∃ b, verify sha3 preHash rawSeal difficulty = (.ok b : Except ε Bool) ∧
      (b = true ↔ ∃ s, (Seal.decode rawSeal).map Prod.fst = some s ∧
        Solves sha3 preHash difficulty s) := by
  unfold verify
  cases Seal.decode rawSeal with
  | none => exact ⟨false, rfl, by simp⟩
  | some p =>
    obtain ⟨s, rest⟩ := p
    simp only [Option.map_some, Option.some.injEq, exists_eq_left', Solves,
      ← hashMeetsDifficulty_iff]
    by_cases hmeets : hashMeetsDifficulty s.work difficulty = true
    · by_cases hs : Compute.compute sha3 ⟨difficulty, preHash, s.nonce⟩ = s
      · exact ⟨true, by simp [hmeets, hs], by simp [hmeets, hs]⟩
      · exact ⟨false, by simp [hmeets, hs], by simp [Ne.symm hs]⟩
    · exact ⟨false, by simp [hmeets], by simp [hmeets]⟩

theorem verify_eq_true_iff {rawSeal : RawSeal} :
    verify sha3 preHash rawSeal difficulty = (.ok true : Except ε Bool) ↔
      ∃ s, 96 ≤ rawSeal.length ∧ rawSeal.take 96 = s.encode ∧
        Solves sha3 preHash difficulty s := by
  obtain ⟨b, hb, hiff⟩ := verify_spec sha3 ε preHash difficulty rawSeal
  rw [hb, Except.ok.injEq, hiff]
  refine exists_congr fun s => ?_
  rw [Seal.codec.dec_fst_iff, and_assoc]

theorem solves_of_verify {rawSeal : RawSeal} {s : Seal}
    (h : verify sha3 preHash rawSeal difficulty = (.ok true : Except ε Bool))
    (hs : (Seal.decode rawSeal).map Prod.fst = some s) : Solves sha3 preHash difficulty s := by
  obtain ⟨t, _, htake, hsolves⟩ := verify_eq_true_iff.mp h
  have hts : t = s := Seal.codec.enc_injective (htake.symm.trans (Seal.codec.dec_fst_iff.mp hs).2)
  rw [← hts]
  exact hsolves

theorem verify_append {s : Seal} (rest : List Byte) :
    verify sha3 preHash (s.encode ++ rest) difficulty = (.ok true : Except ε Bool) ↔
      Solves sha3 preHash difficulty s := by
  have hlen := Seal.codec.length_enc s
  rw [verify_eq_true_iff]
  constructor
  · intro h
    obtain ⟨t, _, htake, hsolves⟩ := h
    rw [List.take_left' hlen] at htake
    rw [Seal.codec.enc_injective htake]
    exact hsolves
  · intro h
    exact ⟨s, by rw [List.length_append]; omega, List.take_left' hlen, h⟩

theorem verify_encode {s : Seal} :
    verify sha3 preHash s.encode difficulty = (.ok true : Except ε Bool) ↔
      Solves sha3 preHash difficulty s := by
  rw [← verify_append [], List.append_nil]

theorem mineStep_submits_iff {nonce : U256} {rawSeal : RawSeal} :
    (mineStep sha3 nonce (some ⟨preHash, difficulty⟩)).2 = some rawSeal ↔
      rawSeal = (Compute.compute sha3 ⟨difficulty, preHash, nonce⟩).encode ∧
        Solves sha3 preHash difficulty (Compute.compute sha3 ⟨difficulty, preHash, nonce⟩) := by
  rw [solves_compute_iff]
  by_cases h : Hits sha3 ⟨preHash, difficulty⟩ nonce
  · rw [mineStep_hits h, Option.some.injEq, eq_comm]
    exact (and_iff_left h).symm
  · rw [mineStep_fails h]
    simp only [reduceCtorEq, false_iff, not_and]
    exact fun _ => h

end Verify

/-- Exact acceptance set of verification, and agreement with the miner. -/
theorem verify_accepts_iff (sha3 : List Byte → H256) (ε : Type) (preHash : H256)
    (difficulty : U256) :
    (∀ rawSeal, (verify sha3 preHash rawSeal difficulty = (.ok true : Except ε Bool) ↔
        96 ≤ rawSeal.length ∧ ∃ nonce,
          rawSeal.take 96 = (Compute.compute sha3 ⟨difficulty, preHash, nonce⟩).encode ∧
          Bytes.beValue (Compute.compute sha3 ⟨difficulty, preHash, nonce⟩).work.bytes *
            difficulty.toNat < 2 ^ 256) ∧
      (verify sha3 preHash rawSeal difficulty = (.ok true : Except ε Bool) ∨
        verify sha3 preHash rawSeal difficulty = (.ok false : Except ε Bool))) ∧
      ∀ nonce rawSeal, (mineStep sha3 nonce (some ⟨preHash, difficulty⟩)).2 = some rawSeal ↔
        rawSeal = (Compute.compute sha3 ⟨difficulty, preHash, nonce⟩).encode ∧
          verify sha3 preHash rawSeal difficulty = (.ok true : Except ε Bool) := by
  refine ⟨fun rawSeal => ⟨?_, ?_⟩, fun nonce rawSeal => ?_⟩
  · rw [verify_eq_true_iff]
    constructor
    · intro h
      obtain ⟨s, hlen, htake, hcompute, hmeets⟩ := h
      rw [hcompute] at htake hmeets
      exact ⟨hlen, s.nonce, htake, hmeets⟩
    · intro h
      obtain ⟨hlen, nonce, htake, hmeets⟩ := h
      exact ⟨_, hlen, htake, rfl, hmeets⟩
  · obtain ⟨b, hb, _⟩ := verify_spec sha3 ε preHash difficulty rawSeal
    rw [hb]
    cases b with
    | false => exact Or.inr rfl
    | true => exact Or.inl rfl
  · rw [mineStep_submits_iff]
    refine and_congr_right fun h => ?_
    rw [h]
    exact verify_encode.symm

/-- Two accepted seals of one nonce agree on their first 96 bytes, so they are
equal exactly when what follows is equal. -/
theorem accepted_malleable_iff (sha3 : List Byte → H256) (ε : Type) (preHash : H256)
    (difficulty : U256) (raw raw' : RawSeal) (s s' : Seal)
    (h : verify sha3 preHash raw difficulty = (.ok true : Except ε Bool))
    (h' : verify sha3 preHash raw' difficulty = (.ok true : Except ε Bool))
    (hs : (Seal.decode raw).map Prod.fst = some s)
    (hs' : (Seal.decode raw').map Prod.fst = some s') (hnonce : s.nonce = s'.nonce) :
    (raw = raw' ↔ raw.drop 96 = raw'.drop 96) ∧ (raw = s.encode ↔ raw.length = 96) := by
  have hcompute := solves_of_verify h hs
  have hcompute' := solves_of_verify h' hs'
  obtain ⟨hlen, htake⟩ := Seal.codec.dec_fst_iff.mp hs
  obtain ⟨hlen', htake'⟩ := Seal.codec.dec_fst_iff.mp hs'
  constructor
  · constructor
    · intro heq
      rw [heq]
    · intro hdrop
      have hseal : s = s' := by
        rw [hcompute.1, hcompute'.1, hnonce]
      rw [← List.take_append_drop 96 raw, ← List.take_append_drop 96 raw', htake, htake', hseal,
        hdrop]
  · constructor
    · intro heq
      rw [heq]
      exact Seal.codec.length_enc s
    · intro hlen96
      rw [← htake, List.take_of_length_le (Nat.le_of_eq hlen96)]

/-! ## One unit of work, two raw seals -/

def blankHash : H256 := ⟨List.replicate 32 0, List.length_replicate⟩

/-- A digest that solves every block. -/
def blankDigest : List Byte → H256 := fun _ => blankHash

def blankSeal : Seal := Compute.compute blankDigest ⟨1, blankHash, 0⟩

theorem solves_blankSeal : Solves blankDigest blankHash 1 blankSeal := by
  refine ⟨rfl, ?_⟩
  show Bytes.beValue (List.replicate 32 0) * 1 < 2 ^ 256
  have h := Bytes.beValue_lt (List.replicate 32 0)
  rw [List.length_replicate] at h
  omega

theorem decode_blankSeal (rest : List Byte) :
    (Seal.decode (blankSeal.encode ++ rest)).map Prod.fst = some blankSeal := by
  rw [(Seal.codec.dec_iff blankSeal _ rest).mpr rfl]
  rfl

theorem accepted_malleable_iff_blank :
    (blankSeal.encode ++ [] = blankSeal.encode ++ [1] ↔
        (blankSeal.encode ++ []).drop 96 = (blankSeal.encode ++ [1]).drop 96) ∧
      (blankSeal.encode ++ [] = blankSeal.encode ↔ (blankSeal.encode ++ []).length = 96) :=
  accepted_malleable_iff blankDigest Unit blankHash 1 _ _ blankSeal blankSeal
    ((verify_append []).mpr solves_blankSeal) ((verify_append [1]).mpr solves_blankSeal)
    (decode_blankSeal []) (decode_blankSeal [1]) rfl

/-- A seal and the same seal with a byte appended are both accepted, and decode
to the same seal. -/
theorem accepted_seal_with_tail :
    verify blankDigest blankHash blankSeal.encode 1 = (.ok true : Except Unit Bool) ∧
      verify blankDigest blankHash (blankSeal.encode ++ [0]) 1 = (.ok true : Except Unit Bool) ∧
      (Seal.decode blankSeal.encode).map Prod.fst = some blankSeal ∧
      (Seal.decode (blankSeal.encode ++ [0])).map Prod.fst = some blankSeal ∧
      blankSeal.encode ≠ blankSeal.encode ++ [0] := by
  have hdecode := decode_blankSeal []
  rw [List.append_nil] at hdecode
  refine ⟨verify_encode.mpr solves_blankSeal, (verify_append [0]).mpr solves_blankSeal, hdecode,
    decode_blankSeal [0], ?_⟩
  exact fun h => absurd (congrArg List.length h) (by simp)

end Pow
end Crain
