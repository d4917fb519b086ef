/-
Verification of seals, the choice between forks, and the mining loop.

`difficulty`, `breakTie`, `verify` and `preliminaryVerify` are the methods of
`Sha3Algorithm` in `pow/src/lib.rs`; the parent block and the pre-digest, which `verify`
ignores, are left out.  `mineStep` is one round of the loop that `new_full` in
`node/src/service.rs` starts.
-/
import Crain.Pow.Seal

namespace Crain
namespace Pow

open Machine Machine.Word

/-- The error of the consensus crate that the algorithm raises. -/
inductive PowError where
  | environment (message : String)
  deriving DecidableEq

/-- The next block's difficulty, which the runtime reports in the state of its parent.
An error of the runtime call is given by its debug text. -/
def difficulty (runtimeApi : H256 → Except String U256) (parent : H256) : Except PowError U256 :=
  (runtimeApi parent).mapError fun e =>
    .environment ("Fetching difficulty from runtime failed: " ++ e)

/-- Break a tie when choosing a fork: whether the new seal replaces the own one.
Digests are compared byte by byte. -/
def breakTie (blake2 : List Byte → H256) (ownSeal newSeal : RawSeal) : Bool :=
  (blake2 ownSeal).bytes > (blake2 newSeal).bytes

section Digest

variable (sha3 : List Byte → H256)

/-- Check a raw seal for a block hash at a difficulty.  The error type is never
used: bad input is an `ok false`. -/
def verify {PowError : Type} (preHash : H256) (rawSeal : RawSeal) (difficulty : U256) :
    Except PowError Bool :=
  match Seal.decode rawSeal with
  | none => .ok false
  | some (s, _) =>
    if !hashMeetsDifficulty s.work difficulty then .ok false
    else
      let compute : Compute :=
        { difficulty := difficulty
          preHash := preHash
          nonce := s.nonce }
      if compute.compute sha3 ≠ s then .ok false else .ok true

/-- Leave every seal to the full verification. -/
def preliminaryVerify {PowError : Type} (_preHash : H256) (_rawSeal : RawSeal) :
    Except PowError (Option Bool) :=
  .ok none

structure Metadata where
  preHash : H256
  difficulty : U256

/-- One round of the mining loop: the next nonce, and the raw seal submitted in
this round.  Without metadata the loop sleeps. -/
def mineStep (nonce : U256) (metadata : Option Metadata) : U256 × Option RawSeal :=
  match metadata with
  | some metadata =>
    let compute : Compute :=
      { difficulty := metadata.difficulty
        preHash := metadata.preHash
        nonce := nonce }
    let s := compute.compute sha3
    if hashMeetsDifficulty s.work s.difficulty then (0, some s.encode)
    else
      let nonce := saturatingAdd nonce 1
      if nonce = BitVec.allOnes 256 then (0, none) else (nonce, none)
  | none => (nonce, none)

/-- The seal of an attempt at a nonce. -/
def attemptAt (metadata : Metadata) (nonce : U256) : Seal :=
  Compute.compute sha3 ⟨metadata.difficulty, metadata.preHash, nonce⟩

/-- The work at a nonce meets the difficulty. -/
def Hits (metadata : Metadata) (nonce : U256) : Prop :=
  hashMeetsDifficulty (attemptAt sha3 metadata nonce).work metadata.difficulty = true

end Digest

section Round

variable {sha3 : List Byte → H256} {metadata : Metadata} {nonce : U256}

theorem mineStep_hits (h : Hits sha3 metadata nonce) :
    mineStep sha3 nonce (some metadata) = (0, some (attemptAt sha3 metadata nonce).encode) :=
  if_pos h

theorem mineStep_fails (h : ¬ Hits sha3 metadata nonce) :
    mineStep sha3 nonce (some metadata) =
      (if saturatingAdd nonce 1 = BitVec.allOnes 256 then 0 else saturatingAdd nonce 1, none) := by
  have hround : mineStep sha3 nonce (some metadata) =
      if saturatingAdd nonce 1 = BitVec.allOnes 256 then (0, none)
      else (saturatingAdd nonce 1, none) := if_neg h
  rw [hround]
  by_cases hlast : saturatingAdd nonce 1 = BitVec.allOnes 256
  · rw [if_pos hlast, if_pos hlast]
  · rw [if_neg hlast, if_neg hlast]

end Round

end Pow
end Crain
