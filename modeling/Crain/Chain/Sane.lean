/-
Chains that never trap.

When the genesis difficulty is positive and fits the first retarget, two of the ways in
which an import could fail never happen, on any branch.  The timestamp hook does not trap
(`Capped`), and no block ties with the unsealed genesis, because every block adds a
positive difficulty.  So an import fails only for a reason that the block, its parent or the
clock give (`exists_import`).  The chain specifications of the node are of this kind
(`sane_of_config`).
-/
import Crain.Chain.Import
import Crain.Difficulty.Traps
import Crain.Pow.Binding

namespace Crain
namespace Chain

open Machine Machine.Word Crain.Pow

/-- The genesis difficulty is positive and the first retarget does not trap. -/
structure Network.Sane (net : Network) : Prop where
  targetBlockTime_pos : 0 < net.targetBlockTime.toNat
  initialDifficulty_pos : 0 < net.initialDifficulty.toNat
  fits : 60 * net.initialDifficulty.toNat * net.targetBlockTime.toNat < 2 ^ 256

/-- The entries of a chain that never traps. -/
structure Entry.Sane (net : Network) (entry : Entry) : Prop where
  capped : Difficulty.Capped net.initialDifficulty entry.storage
  difficulty_pos : 0 < entry.storage.currentDifficulty.toNat
  unsealed : entry.rawSeal = none → entry.totalDifficulty = 0
  weighs : ∀ rawSeal, entry.rawSeal = some rawSeal → 0 < entry.totalDifficulty.toNat

structure Node.Sane (net : Network) (n : Node) : Prop where
  best : n.entries n.best.1 = some n.best.2
  entries : ∀ hash entry, n.entries hash = some entry → entry.Sane net

section Sane

variable {net : Network} {importBlock : Node → Arrival → Option Node} {n n' : Node} {b : Block}
  {above entry : Entry}

theorem genesisEntry_sane (hnet : net.Sane) : (genesisEntry net).Sane net where
  capped := Difficulty.capped_genesis net.initialDifficulty
  difficulty_pos := hnet.initialDifficulty_pos
  unsealed _ := rfl
  weighs rawSeal h := by cases h

theorem genesisNode_sane (hnet : net.Sane) : (genesisNode net).Sane net where
  best := genesisNode_entries net
  entries hash entry h := by
    rw [(Derivation.eq_of_initial h).2]
    exact genesisEntry_sane hnet

theorem next_difficulty_pos (T : Moment) (s : Difficulty.Storage) (now : Moment) :
    0 < (Difficulty.next T s now).currentDifficulty.toNat := by
  have hmin := (Difficulty.view_next_bounds T s now).1
  have h3 := Difficulty.minD_eq
  exact Nat.lt_of_lt_of_le (by omega) hmin

theorem below_totalDifficulty_pos (habove : above.Sane net) (storage : Difficulty.Storage) :
    0 < (below above b storage).totalDifficulty.toNat := by
  have hpos := habove.difficulty_pos
  show 0 < (saturatingAdd above.totalDifficulty above.storage.currentDifficulty).toNat
  rw [toNat_saturatingAdd]
  omega

theorem derive_sane (hnet : net.Sane) (habove : above.Sane net)
    (h : derive net above b = some entry) : entry.Sane net := by
  obtain ⟨_, _, storage, hstorage, hentry⟩ := derive_eq_some_iff.mp h
  rw [hentry]
  rw [Difficulty.eq_next hnet.targetBlockTime_pos hstorage]
  exact
    { capped := habove.capped.next _ _
      difficulty_pos := next_difficulty_pos _ _ _
      unsealed := fun hnone => by cases hnone
      weighs := fun _ _ => below_totalDifficulty_pos habove _ }

/-- Above a sane entry a block with a valid seal is derived unless something other than
the hook fails. -/
theorem derive_eq (hnet : net.Sane) (habove : above.Sane net)
    (hseal : verify net.sha3 b.preHash b.rawSeal above.storage.currentDifficulty =
      (.ok true : Except PowError Bool)) (hexec : net.executes b = true) :
    derive net above b =
      some (below above b (Difficulty.next net.targetBlockTime above.storage b.timestamp)) :=
  derive_eq_some_iff.mpr ⟨hseal, hexec, _,
    habove.capped.step hnet.targetBlockTime_pos hnet.fits b.timestamp, rfl⟩

/-- The fork choice always decides. -/
theorem exists_prefers (hn : n.Sane net) (habove : above.Sane net) (storage : Difficulty.Storage) :
    ∃ better, prefers net n.best.2 (below above b storage) = some better := by
  have hpos := below_totalDifficulty_pos (b := b) habove storage
  unfold prefers
  by_cases hless : (below above b storage).totalDifficulty < n.best.2.totalDifficulty
  · exact ⟨false, if_pos hless⟩
  · rw [if_neg hless]
    by_cases hmore : n.best.2.totalDifficulty < (below above b storage).totalDifficulty
    · exact ⟨true, if_pos hmore⟩
    · rw [if_neg hmore]
      cases hown : n.best.2.rawSeal with
      | some ownSeal => exact ⟨_, rfl⟩
      | none =>
        have hzero := (hn.entries _ _ hn.best).unsealed hown
        refine absurd ?_ hmore
        show n.best.2.totalDifficulty.toNat < _
        rw [hzero]
        exact hpos

theorem Imports.sane (h : Imports net n n' b above entry) (hnet : net.Sane) (hn : n.Sane net) :
    n'.Sane net where
  best := by
    rw [h.entries]
    rcases h.best with hnew | hold
    · rw [hnew.2, Function.update_self]
    · rw [hold.2, Function.update_of_ne]
      · exact hn.best
      · intro heq
        have hfree := h.free
        rw [← heq, hn.best] at hfree
        cases hfree
  entries hash e he := by
    rw [h.entries] at he
    by_cases hhash : hash = b.hash
    · rw [hhash, Function.update_self, Option.some.injEq] at he
      rw [← he]
      exact derive_sane hnet (hn.entries _ _ h.parent) h.derived
    · rw [Function.update_of_ne hhash] at he
      exact hn.entries hash e he

theorem nodeAfter_sane (hnet : net.Sane) (himport : Documented net importBlock)
    (arrivals : List Arrival) : (nodeAfter net importBlock arrivals).Sane net := by
  refine commitAll_stable (I := fun n : Node => n.Sane net) ?_ (genesisNode_sane hnet) arrivals
  intro n a n' hn h
  obtain ⟨above, entry, himports⟩ := himport.imports h
  exact himports.sane hnet hn

/-- A block that is not in the chain yet is imported if its seal is valid above its parent,
it executes and its inherents pass their check. -/
theorem exists_import (hnet : net.Sane) (haccepts : Accepts net importBlock) (hn : n.Sane net)
    {a : Arrival} (hfree : n.entries a.block.hash = none)
    (hparent : n.entries a.block.parent = some above)
    (hseal : verify net.sha3 a.block.preHash a.block.rawSeal above.storage.currentDifficulty =
      (.ok true : Except PowError Bool)) (hexec : net.executes a.block = true)
    (hcheck : net.inherents a.block a.now = true) : ∃ n', importBlock n a = some n' := by
  have hderived := derive_eq hnet (hn.entries _ _ hparent) hseal hexec
  obtain ⟨better, hbetter⟩ := exists_prefers (b := a.block) hn (hn.entries _ _ hparent)
    (Difficulty.next net.targetBlockTime above.storage a.block.timestamp)
  exact haccepts.accepts hfree hparent hderived hbetter hcheck

end Sane

/-! ## The chain specifications -/

/-- What the genesis block of a chain specification gives the difficulty pallet. -/
structure DifficultyConfig where
  initialDifficulty : Difficulty

def developmentConfig : DifficultyConfig := ⟨1000000⟩

def localTestnetConfig : DifficultyConfig := ⟨1000⟩

/-- Neither of the two networks that the node can start ever traps. -/
theorem sane_of_config {net : Network} (htime : net.targetBlockTime = blockTime)
    (hconfig : net.initialDifficulty = developmentConfig.initialDifficulty ∨
      net.initialDifficulty = localTestnetConfig.initialDifficulty) : net.Sane := by
  have hdifficulty : net.initialDifficulty.toNat = 1000000 ∨ net.initialDifficulty.toNat = 1000 := by
    cases hconfig with
    | inl hdev => exact Or.inl (congrArg BitVec.toNat hdev)
    | inr hlocal => exact Or.inr (congrArg BitVec.toNat hlocal)
  refine ⟨?_, by omega, ?_⟩
  · rw [htime]
    exact blockTime_pos
  · rw [htime, blockTime_toNat]
    omega

/-! ## A small network -/

/-- A network whose digest solves every block, and which orders seals by their first
bytes.  A block may be half a minute ahead of the clock. -/
def sampleNetwork : Network where
  sha3 := blankDigest
  blake2 rawSeal := ⟨(rawSeal.reverse ++ List.replicate 32 0).take 32, by simp⟩
  targetBlockTime := blockTime
  genesisHash := blankHash
  initialDifficulty := 1000
  executes _ := true
  inherents b now := decide (b.timestamp.toNat ≤ now.toNat + 30000)
  unknownBlock _ := "UnknownBlock"

/-- A block on top of the genesis block, mined with a nonce. -/
def sampleBlock (nonce : U256) : Block where
  hash := ⟨Bytes.leBytes 32 (nonce.toNat + 1), Bytes.length_leBytes _ _⟩
  parent := blankHash
  preHash := blankHash
  timestamp := 60000
  rawSeal := (Compute.compute blankDigest ⟨1000, blankHash, nonce⟩).encode

/-- A block on top of the first of these. -/
def sampleChild : Block where
  hash := ⟨Bytes.leBytes 32 300, Bytes.length_leBytes _ _⟩
  parent := (sampleBlock 0).hash
  preHash := otherHash
  timestamp := 120000
  rawSeal := (Compute.compute blankDigest ⟨1005, otherHash, 0⟩).encode

theorem sampleNetwork_sane : sampleNetwork.Sane := sane_of_config rfl (Or.inr rfl)

end Chain
end Crain
