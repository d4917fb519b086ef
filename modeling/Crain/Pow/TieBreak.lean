/-
Choosing between equally heavy forks.

A node keeps its own seal until a new one breaks the tie: the block import, which is
not part of the repository, is taken to replace the one by the other exactly then.
The comparison is strict and orders seals by their digests, so the seal a node ends
with is the one of least digest, whichever arrived first (`tie_break_agrees`).
-/
import Crain.Machine.Least
import Crain.Pow.Algorithm

namespace Crain
namespace Pow

open Machine

section Node

variable (blake2 : List Byte → H256)

/-- What a node keeps when a seal of equal total difficulty arrives. -/
def adopt (ownSeal newSeal : RawSeal) : RawSeal :=
  if breakTie blake2 ownSeal newSeal then newSeal else ownSeal

/-- The seal of a node that started with its own and saw others in turn. -/
def keptSeal (ownSeal : RawSeal) (newSeals : List RawSeal) : RawSeal :=
  newSeals.foldl (adopt blake2) ownSeal

/-- The digest of a seal as an integer. -/
def digestValue (rawSeal : RawSeal) : Nat := Bytes.beValue (blake2 rawSeal).bytes

end Node

section Agreement

variable {blake2 : List Byte → H256} {ownSeal : RawSeal} {newSeals : List RawSeal}

theorem digest_lt_iff (s t : RawSeal) :
    (blake2 s).bytes < (blake2 t).bytes ↔ digestValue blake2 s < digestValue blake2 t := by
  apply Bytes.lt_iff_beValue_lt
  rw [(blake2 s).length_bytes, (blake2 t).length_bytes]

theorem adopt_eq_keepLess : adopt blake2 = keepLess (digestValue blake2) := by
  funext s t
  simp only [adopt, breakTie, keepLess, gt_iff_lt, decide_eq_true_eq, digest_lt_iff]

theorem keptSeal_eq_least :
    keptSeal blake2 ownSeal newSeals = least (digestValue blake2) ownSeal newSeals := by
  rw [keptSeal, adopt_eq_keepLess]
  rfl

theorem eq_of_digestValue_eq {seals : List RawSeal} (hdistinct : (seals.map blake2).Nodup)
    {s t : RawSeal} (hs : s ∈ seals) (ht : t ∈ seals)
    (h : digestValue blake2 s = digestValue blake2 t) : s = t :=
  List.inj_on_of_nodup_map hdistinct hs ht (Bytes.eq_of_beValue_eq h)

end Agreement

/-- Nodes that saw the same competing seals keep the same one, the seal of least
digest. -/
theorem tie_break_agrees (blake2 : List Byte → H256) (ownSeal : RawSeal) (newSeals : List RawSeal)
    (hdistinct : ((ownSeal :: newSeals).map blake2).Nodup) :
    ∃ s ∈ ownSeal :: newSeals,
      (∀ t ∈ ownSeal :: newSeals, t ≠ s → (blake2 s).bytes < (blake2 t).bytes) ∧
      ∀ ownSeal' newSeals', (ownSeal' :: newSeals').Perm (ownSeal :: newSeals) →
        keptSeal blake2 ownSeal' newSeals' = s := by
  have hmem : least (digestValue blake2) ownSeal newSeals ∈ ownSeal :: newSeals :=
    least_mem ownSeal newSeals
  refine ⟨_, hmem, fun t ht hne => ?_, fun ownSeal' newSeals' hperm => ?_⟩
  · rw [digest_lt_iff]
    apply Nat.lt_of_le_of_ne (least_le ht)
    intro heq
    exact hne (eq_of_digestValue_eq hdistinct hmem ht heq).symm
  · rw [keptSeal_eq_least]
    exact least_perm (fun s hs t ht => eq_of_digestValue_eq hdistinct hs ht) hperm

/-- The digests of two one-byte strings. -/
def sampleDigest (input : List Byte) : H256 :=
  ⟨Bytes.beBytes 32 (if input = [0]
    then 0x03170a2e7597b7b7e3d84c05391d139a62b157e78786d8c082f29dcf4c111314
    else 0xee155ace9c40292074cb6aff8c9ccdd273c81648ff1149ef36bcea6ebb8a3e25),
    Bytes.length_beBytes _ _⟩

theorem tie_break_agrees_sample :
    ∃ s ∈ [[0], [1]],
      (∀ t ∈ [[0], [1]], t ≠ s → (sampleDigest s).bytes < (sampleDigest t).bytes) ∧
      ∀ ownSeal' newSeals', (ownSeal' :: newSeals').Perm [[0], [1]] →
        keptSeal sampleDigest ownSeal' newSeals' = s :=
  tie_break_agrees sampleDigest [0] [[1]] (by decide)

end Pow
end Crain
