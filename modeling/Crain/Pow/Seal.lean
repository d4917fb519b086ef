/-
Seals and their bytes, as `pow/src/lib.rs` defines them.

A `Seal` travels as the concatenation of its fields in declaration order: the
difficulty in 32 little-endian bytes, the 32 bytes of work, and the nonce in 32
little-endian bytes.  The decoder reads the fields from the front of its input
and does not ask whether anything is left over.  The digest is a parameter: an
arbitrary function from byte strings to 32 bytes.
-/
import Crain.Machine.Codec
import Crain.Primitives

namespace Crain
namespace Pow

open Machine Machine.Word

abbrev H256 := FixedBytes 32

abbrev RawSeal := List Byte

/-- The word that 32 bytes stand for, most significant byte first. -/
def H256.toU256 (hash : H256) : U256 := BitVec.ofNat 256 (Bytes.beValue hash.bytes)

/-- Whether the product of hash and difficulty stays within 256 bits. -/
def hashMeetsDifficulty (hash : H256) (difficulty : U256) : Bool :=
  let numHash := hash.toU256
  let (_, overflowed) := overflowingMul numHash difficulty
  !overflowed

structure Seal where
  difficulty : U256
  work : H256
  nonce : U256
  deriving DecidableEq

def Seal.encode (s : Seal) : List Byte :=
  encodeWord 32 s.difficulty ++ (s.work.bytes ++ encodeWord 32 s.nonce)

def Seal.decode (input : List Byte) : Option (Seal × List Byte) := do
  let (difficulty, input) ← decodeWord 32 256 input
  let (work, input) ← decodeBytes 32 input
  let (nonce, input) ← decodeWord 32 256 input
  return ({ difficulty, work, nonce }, input)

structure Compute where
  difficulty : U256
  preHash : H256
  nonce : U256
  deriving DecidableEq

def Compute.encode (c : Compute) : List Byte :=
  encodeWord 32 c.difficulty ++ (c.preHash.bytes ++ encodeWord 32 c.nonce)

def Compute.compute (sha3 : List Byte → H256) (c : Compute) : Seal :=
  let work := sha3 c.encode
  { nonce := c.nonce
    difficulty := c.difficulty
    work := work }

/-! ## The codec of a seal -/

def Seal.fields : U256 × H256 × U256 ≃ Seal where
  toFun p := ⟨p.1, p.2.1, p.2.2⟩
  invFun s := (s.difficulty, s.work, s.nonce)
  left_inv _ := rfl
  right_inv _ := rfl

theorem codec_u256 : Codec 32 (encodeWord 32 (w := 256)) (decodeWord 32 256) :=
  codec_word (by norm_num)

theorem Seal.decode_eq (input : List Byte) :
    Seal.decode input = (do
      let (difficulty, input) ← decodeWord 32 256 input
      let (p, input) ← (do
        let (work, input) ← decodeBytes 32 input
        let (nonce, input) ← decodeWord 32 256 input
        return ((work, nonce), input))
      return ((difficulty, p), input)).map (Prod.map Seal.fields id) := by
  unfold Seal.decode
  cases decodeWord 32 256 input with
  | none => rfl
  | some d =>
    simp only [Option.bind_eq_bind, Option.bind_some, Option.bind_assoc]
    cases decodeBytes 32 d.2 with
    | none => rfl
    | some h =>
      simp only [Option.bind_some]
      cases decodeWord 32 256 h.2 <;> rfl

theorem Seal.codec : Codec 96 Seal.encode Seal.decode := by
  have h := (codec_u256.pair ((codec_bytes 32).pair codec_u256)).map Seal.fields
  rw [← funext Seal.decode_eq] at h
  exact h

/-- The digested bytes are laid out as a seal that carries the block hash in the
place of the work. -/
theorem Compute.encode_eq (c : Compute) :
    c.encode = Seal.encode ⟨c.difficulty, c.preHash, c.nonce⟩ := rfl

@[simp] theorem Compute.length_encode (c : Compute) : c.encode.length = 96 := by
  rw [encode_eq, Seal.codec.length_enc]

theorem Compute.encode_injective {c c' : Compute} (h : c.encode = c'.encode) : c = c' := by
  rw [encode_eq, encode_eq] at h
  obtain ⟨hdifficulty, hpre, hnonce⟩ := Seal.mk.inj (Seal.codec.enc_injective h)
  cases c
  cases c'
  simp only at hdifficulty hpre hnonce
  rw [hdifficulty, hpre, hnonce]

/-! ## Acceptance by the hash -/

@[simp] theorem H256.toU256_toNat (hash : H256) : hash.toU256.toNat = Bytes.beValue hash.bytes := by
  have h := Bytes.beValue_lt hash.bytes
  rw [hash.length_bytes] at h
  rw [H256.toU256, BitVec.toNat_ofNat, Nat.mod_eq_of_lt (by omega)]

theorem hashMeetsDifficulty_iff {hash : H256} {difficulty : U256} :
    hashMeetsDifficulty hash difficulty = true ↔
      Bytes.beValue hash.bytes * difficulty.toNat < 2 ^ 256 := by
  rw [← H256.toU256_toNat, ← overflowingMul_snd, ← Bool.not_eq_true']
  rfl

end Pow
end Crain
