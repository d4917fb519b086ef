/-
What an accepted seal commits to.

A raw seal determines the seal it decodes to, and an accepted seal is the attempt
at its own nonce.  If one raw seal is accepted in two contexts, both attempts are
that seal, so the difficulties agree and the two digests are equal.  The digested
bytes determine the block hash, so two block hashes mean a collision.
-/
import Crain.Pow.Verify

namespace Crain
namespace Pow

/-- Two different attempts, at the same nonce and difficulty, whose encodings the
digest does not tell apart. -/
def Collides (sha3 : List Machine.Byte → H256) (c c' : Compute) : Prop :=
  c.encode.length = 96 ∧ c'.encode.length = 96 ∧ c.encode ≠ c'.encode ∧
    sha3 c.encode = sha3 c'.encode

theorem collides_of_compute {sha3 : List Machine.Byte → H256} {c c' : Compute} (hne : c ≠ c')
    (h : c.compute sha3 = c'.compute sha3) : Collides sha3 c c' := by
  have hwork : sha3 c.encode = sha3 c'.encode := congrArg Seal.work h
  exact ⟨c.length_encode, c'.length_encode, fun heq => hne (Compute.encode_injective heq), hwork⟩

/-- A raw seal accepted in two contexts is the attempt at its nonce in both. -/
theorem attempts_of_verify {sha3 : List Machine.Byte → H256} {ε : Type} {preHash preHash' : H256}
    {difficulty difficulty' : U256} {raw : RawSeal}
    (h : verify sha3 preHash raw difficulty = (.ok true : Except ε Bool))
    (h' : verify sha3 preHash' raw difficulty' = (.ok true : Except ε Bool)) :
    ∃ s, (Seal.decode raw).map Prod.fst = some s ∧
      s = Compute.compute sha3 ⟨difficulty, preHash, s.nonce⟩ ∧
      s = Compute.compute sha3 ⟨difficulty', preHash', s.nonce⟩ := by
  obtain ⟨s, hlen, htake, _⟩ := verify_eq_true_iff.mp h
  have hs : (Seal.decode raw).map Prod.fst = some s := Seal.codec.dec_fst_iff.mpr ⟨hlen, htake⟩
  exact ⟨s, hs, (solves_of_verify h hs).1, (solves_of_verify h' hs).1⟩

/-- A raw seal accepted in two contexts is accepted at one difficulty only, and
for one block unless the digest collides. -/
theorem accepted_once (sha3 : List Machine.Byte → H256) (ε : Type) (preHash preHash' : H256)
    (difficulty difficulty' : U256) (raw : RawSeal)
    (h : verify sha3 preHash raw difficulty = (.ok true : Except ε Bool))
    (h' : verify sha3 preHash' raw difficulty' = (.ok true : Except ε Bool)) :
    difficulty = difficulty' ∧
      (preHash = preHash' ∨ ∃ s, (Seal.decode raw).map Prod.fst = some s ∧
        Collides sha3 ⟨difficulty, preHash, s.nonce⟩ ⟨difficulty, preHash', s.nonce⟩) := by
  obtain ⟨s, hs, hcompute, hcompute'⟩ := attempts_of_verify h h'
  have hdifficulty : difficulty = difficulty' := by
    have hd : s.difficulty = difficulty := congrArg Seal.difficulty hcompute
    have hd' : s.difficulty = difficulty' := congrArg Seal.difficulty hcompute'
    rw [← hd, ← hd']
  refine ⟨hdifficulty, ?_⟩
  by_cases hpre : preHash = preHash'
  · exact Or.inl hpre
  · refine Or.inr ⟨s, hs, collides_of_compute (fun heq => ?_) ?_⟩
    · exact hpre (congrArg Compute.preHash heq)
    · rw [← hcompute, hdifficulty, ← hcompute']

/-- A block hash other than the blank one. -/
def otherHash : H256 := ⟨List.replicate 32 1, List.length_replicate⟩

/-- The blank digest does not tell two blocks apart, and its seal is accepted for
both. -/
theorem accepted_once_blank :
    (1 : U256) = 1 ∧
      (blankHash = otherHash ∨ ∃ s, (Seal.decode blankSeal.encode).map Prod.fst = some s ∧
        Collides blankDigest ⟨1, blankHash, s.nonce⟩ ⟨1, otherHash, s.nonce⟩) :=
  accepted_once blankDigest Unit blankHash otherHash 1 1 blankSeal.encode
    (verify_encode.mpr solves_blankSeal) (verify_encode.mpr solves_blankSeal)

end Pow
end Crain
