/-
Difficulty as expected work.

The check multiplies a hash with the difficulty and asks whether the product stays
within 256 bits.  Read as an integer, a hash passes exactly when it is at most the
quotient of the largest word by the difficulty, and since hashes are read most
significant byte first that is a threshold in byte order (`meets_iff_le_threshold`).
The number of hashes up to the threshold is the acceptance rate.
-/
import Crain.Pow.Seal

namespace Crain
namespace Pow

open Machine

/-- The last hash that meets a difficulty. -/
def threshold (difficulty : U256) : H256 :=
  ⟨Bytes.beBytes 32 ((2 ^ 256 - 1) / difficulty.toNat), Bytes.length_beBytes _ _⟩

section Meets

variable {difficulty : U256}

theorem quotient_lt (n : Nat) : (2 ^ 256 - 1) / n < 256 ^ 32 :=
  Nat.lt_of_le_of_lt (Nat.div_le_self _ _) (by norm_num)

theorem beValue_threshold :
    Bytes.beValue (threshold difficulty).bytes = (2 ^ 256 - 1) / difficulty.toNat :=
  Bytes.beValue_beBytes (quotient_lt _)

theorem meets_iff_le_quotient (h : 1 ≤ difficulty.toNat) {hash : H256} :
    hashMeetsDifficulty hash difficulty = true ↔
      Bytes.beValue hash.bytes ≤ (2 ^ 256 - 1) / difficulty.toNat := by
  rw [hashMeetsDifficulty_iff, Nat.le_div_iff_mul_le h]
  exact Nat.lt_iff_le_pred (Nat.two_pow_pos 256)

theorem meets_iff_le_threshold (h : 1 ≤ difficulty.toNat) {hash : H256} :
    hashMeetsDifficulty hash difficulty = true ↔ hash.bytes ≤ (threshold difficulty).bytes := by
  have hlen : hash.bytes.length = (threshold difficulty).bytes.length := by
    rw [hash.length_bytes, (threshold difficulty).length_bytes]
  rw [Bytes.le_iff_beValue_le hlen, beValue_threshold, meets_iff_le_quotient h]

theorem card_meets (h : 1 ≤ difficulty.toNat) :
    Nat.card {hash : H256 // hashMeetsDifficulty hash difficulty = true} =
      (2 ^ 256 - 1) / difficulty.toNat + 1 := by
  rw [← Bytes.card_beValue_le (quotient_lt difficulty.toNat)]
  exact Nat.card_congr (Equiv.subtypeEquivRight fun hash => meets_iff_le_quotient h)

theorem meets_zero (hash : H256) : hashMeetsDifficulty hash 0 = true := by
  rw [hashMeetsDifficulty_iff]
  exact Nat.two_pow_pos 256

/-- A smaller hash at a smaller difficulty makes a smaller product. -/
theorem meets_antitone {hash hash' : H256} {difficulty' : U256} (hhash : hash.bytes ≤ hash'.bytes)
    (hdifficulty : difficulty ≤ difficulty')
    (h : hashMeetsDifficulty hash' difficulty' = true) :
    hashMeetsDifficulty hash difficulty = true := by
  have hlen : hash.bytes.length = hash'.bytes.length := by
    rw [hash.length_bytes, hash'.length_bytes]
  rw [hashMeetsDifficulty_iff] at h ⊢
  have hvalue := (Bytes.le_iff_beValue_le hlen).mp hhash
  exact Nat.lt_of_le_of_lt (Nat.mul_le_mul hvalue hdifficulty) h

end Meets

/-- The hashes that meet a difficulty are those up to its threshold, and there are
one more than the largest word holds multiples of it. -/
theorem difficulty_is_work :
    (∀ difficulty : U256, 1 ≤ difficulty.toNat →
      (∀ hash, hashMeetsDifficulty hash difficulty = true ↔
        hash.bytes ≤ (threshold difficulty).bytes) ∧
      Nat.card {hash : H256 // hashMeetsDifficulty hash difficulty = true} =
        (2 ^ 256 - 1) / difficulty.toNat + 1) ∧
    (∀ hash, hashMeetsDifficulty hash 0 = true) ∧
    Nat.card H256 = 2 ^ 256 ∧
    ∀ (hash hash' : H256) (difficulty difficulty' : U256), hash.bytes ≤ hash'.bytes →
      difficulty ≤ difficulty' → hashMeetsDifficulty hash' difficulty' = true →
        hashMeetsDifficulty hash difficulty = true := by
  refine ⟨fun difficulty h => ⟨fun hash => meets_iff_le_threshold h, card_meets h⟩, meets_zero, ?_,
    fun hash hash' difficulty difficulty' hhash hdifficulty h =>
      meets_antitone hhash hdifficulty h⟩
  rw [Bytes.card_fixedBytes]
  norm_num

end Pow
end Crain
