/-
Importing blocks.

A node stores every block it accepted together with the state of the difficulty pallet
after it.  A new block is checked by `Sha3Algorithm` from `pow/src/lib.rs` at the
difficulty that the runtime (`runtime/src/lib.rs`) reports in the state of its parent,
and executing it calls the timestamp hook of the pallet once.

The block import that puts these together, wired up in `new_partial` of
`node/src/service.rs`, comes from the consensus crate and is not part of the
repository.  It is a parameter.  `Documented` is what that crate documents of a block that is
imported: its seal was verified, it adds its difficulty to the total of its parent, the
larger total is preferred, and ties are left to `break_tie`.  `new_partial` also has the
inherents of every block checked against the clock of the node, so a node may refuse a
block at one time and accept it later.  What is accepted for certain is a fact of its own
(`Accepts`).  Whatever else can fail when a block is executed is a parameter too.
`importBlock` is one import that does all this.
-/
import Crain.Difficulty.Pallet
import Crain.Machine.Derived
import Crain.Machine.Transaction
import Crain.Pow.Verify

namespace Crain
namespace Chain

open Machine Machine.Word Crain.Pow

abbrev Moment := Difficulty.Moment

structure Block where
  /-- The hash of the header with its seal. -/
  hash : H256
  parent : H256
  /-- The hash of the header without its seal. -/
  preHash : H256
  timestamp : Moment
  rawSeal : RawSeal
  deriving DecidableEq

/-- A block that reaches a node, and the time its clock shows then. -/
structure Arrival where
  block : Block
  now : Moment
  deriving DecidableEq

structure Entry where
  storage : Difficulty.Storage
  totalDifficulty : U256
  /-- The genesis block has none. -/
  rawSeal : Option RawSeal

@[ext] structure Node where
  entries : H256 → Option Entry
  best : H256 × Entry

/-- What the nodes of one network have in common. -/
structure Network where
  sha3 : List Byte → H256
  blake2 : List Byte → H256
  targetBlockTime : Moment
  genesisHash : H256
  initialDifficulty : Difficulty
  /-- Whether everything in a block but the timestamp hook executes. -/
  executes : Block → Bool
  /-- Whether the inherents of a block pass their check at a time. -/
  inherents : Block → Moment → Bool
  /-- The debug text of the error of a runtime call at an unknown block. -/
  unknownBlock : H256 → String

/-- The runtime's `DifficultyApi`. -/
def runtimeDifficulty (s : Difficulty.Storage) : Difficulty := s.currentDifficulty

section Import

variable (net : Network)

def genesisEntry : Entry where
  storage := Difficulty.genesis net.initialDifficulty
  totalDifficulty := 0
  rawSeal := none

def genesisNode : Node where
  entries := Derivation.initial net.genesisHash (genesisEntry net)
  best := (net.genesisHash, genesisEntry net)

def runtimeApi (n : Node) (hash : H256) : Except String U256 :=
  match n.entries hash with
  | some entry => .ok (runtimeDifficulty entry.storage)
  | none => .error (net.unknownBlock hash)

/-- The checks of a seal.  The preliminary one comes first and may refuse it. -/
def checkSeal (b : Block) (difficulty : U256) : Except PowError Bool := do
  let decided ← preliminaryVerify b.preHash b.rawSeal
  if decided = some false then return false
  else verify net.sha3 b.preHash b.rawSeal difficulty

/-- The entry a block adds above that of its parent. -/
def below (above : Entry) (b : Block) (storage : Difficulty.Storage) : Entry where
  storage := storage
  totalDifficulty := saturatingAdd above.totalDifficulty (runtimeDifficulty above.storage)
  rawSeal := some b.rawSeal

/-- The entry of a block whose seal is valid above its parent, if it executes. -/
def derive (above : Entry) (b : Block) : Option Entry :=
  match checkSeal net b (runtimeDifficulty above.storage), net.executes b with
  | .ok true, true =>
    (Difficulty.onTimestampSet net.targetBlockTime above.storage b.timestamp).map (below above b)
  | _, _ => none

def blocks : Derivation H256 Block Entry where
  key := Block.hash
  parent := Block.parent
  derive := derive net

/-- Whether a new block becomes the best one.  The unsealed genesis ties with none. -/
def prefers (best new : Entry) : Option Bool :=
  if new.totalDifficulty < best.totalDifficulty then some false
  else if best.totalDifficulty < new.totalDifficulty then some true
  else
    match best.rawSeal, new.rawSeal with
    | some ownSeal, some newSeal => some (breakTie net.blake2 ownSeal newSeal)
    | _, _ => none

/-- What an import that succeeds does. -/
structure Imports (n n' : Node) (b : Block) (above entry : Entry) : Prop where
  free : n.entries b.hash = none
  parent : n.entries b.parent = some above
  derived : derive net above b = some entry
  entries : n'.entries = Function.update n.entries b.hash (some entry)
  best : (prefers net n.best.2 entry = some true ∧ n'.best = (b.hash, entry)) ∨
    (prefers net n.best.2 entry = some false ∧ n'.best = n.best)

/-- What is documented of the imports that succeed. -/
structure Documented (importBlock : Node → Arrival → Option Node) : Prop where
  imports : ∀ {n n' a}, importBlock n a = some n' →
    ∃ above entry, Imports net n n' a.block above entry

/-- What is imported whenever its inherents pass their check. -/
structure Accepts (importBlock : Node → Arrival → Option Node) : Prop where
  accepts : ∀ {n a above entry better}, n.entries a.block.hash = none →
    n.entries a.block.parent = some above → derive net above a.block = some entry →
      prefers net n.best.2 entry = some better → net.inherents a.block a.now = true →
        ∃ n', importBlock n a = some n'

def importBlock (n : Node) (a : Arrival) : Option Node := do
  let above ← n.entries a.block.parent
  if (n.entries a.block.hash).isSome || !net.inherents a.block a.now then none
  else do
    let entry ← derive net above a.block
    let better ← prefers net n.best.2 entry
    return { entries := Function.update n.entries a.block.hash (some entry)
             best := if better then (a.block.hash, entry) else n.best }

/-- The node after a list of arrivals, those that are refused included. -/
def nodeAfter (importBlock : Node → Arrival → Option Node) (arrivals : List Arrival) : Node :=
  commitAll importBlock (genesisNode net) arrivals

/-- The blocks that were imported, in order. -/
def accepted (importBlock : Node → Arrival → Option Node) (arrivals : List Arrival) : List Block :=
  (committed importBlock (genesisNode net) arrivals).map Arrival.block

end Import

section Derive

variable {net : Network} {n n' : Node} {b : Block} {above entry : Entry}

theorem difficulty_of_known {hash : H256} (h : n.entries hash = some entry) :
    Pow.difficulty (runtimeApi net n) hash = .ok entry.storage.currentDifficulty := by
  simp only [Pow.difficulty, runtimeApi, h]
  rfl

theorem genesisNode_entries (net : Network) :
    (genesisNode net).entries net.genesisHash = some (genesisEntry net) :=
  Derivation.initial_root

theorem checkSeal_eq (b : Block) (difficulty : U256) :
    checkSeal net b difficulty = verify net.sha3 b.preHash b.rawSeal difficulty := rfl

theorem derive_eq_some_iff :
    derive net above b = some entry ↔
      verify net.sha3 b.preHash b.rawSeal above.storage.currentDifficulty =
          (.ok true : Except PowError Bool) ∧ net.executes b = true ∧ ∃ storage,
        Difficulty.onTimestampSet net.targetBlockTime above.storage b.timestamp = some storage ∧
          entry = below above b storage := by
  unfold derive
  rw [checkSeal_eq]
  show _ ↔ verify net.sha3 b.preHash b.rawSeal (runtimeDifficulty above.storage) = _ ∧ _
  split
  · rename_i hseal hexec
    simp [hseal, hexec, eq_comm]
  · rename_i hno
    simp only [reduceCtorEq, false_iff]
    intro h
    exact hno h.1 h.2.1

theorem importBlock_eq_some_iff {a : Arrival} :
    importBlock net n a = some n' ↔ ∃ above entry better, n.entries a.block.parent = some above ∧
      n.entries a.block.hash = none ∧ net.inherents a.block a.now = true ∧
        derive net above a.block = some entry ∧ prefers net n.best.2 entry = some better ∧
          n' = { entries := Function.update n.entries a.block.hash (some entry)
                 best := if better then (a.block.hash, entry) else n.best } := by
  unfold importBlock
  cases hparent : n.entries a.block.parent with
  | none => simp
  | some above =>
    cases hfree : n.entries a.block.hash with
    | some taken => simp
    | none =>
      cases hcheck : net.inherents a.block a.now with
      | false => simp
      | true =>
        cases hentry : derive net above a.block with
        | none => simp [hentry]
        | some entry =>
          cases hbetter : prefers net n.best.2 entry with
          | none => simp [hentry, hbetter]
          | some better => cases better <;> simp [hentry, hbetter, eq_comm]

theorem importBlock_documented (net : Network) : Documented net (importBlock net) where
  imports h := by
    obtain ⟨above, entry, better, hparent, hfree, _, hentry, hbetter, heq⟩ :=
      importBlock_eq_some_iff.mp h
    refine ⟨above, entry, hfree, hparent, hentry, by rw [heq], ?_⟩
    rw [heq]
    cases better with
    | true => exact Or.inl ⟨hbetter, rfl⟩
    | false => exact Or.inr ⟨hbetter, rfl⟩

theorem importBlock_accepts (net : Network) : Accepts net (importBlock net) where
  accepts hfree hparent hentry hbetter hcheck :=
    ⟨_, importBlock_eq_some_iff.mpr ⟨_, _, _, hparent, hfree, hcheck, hentry, hbetter, rfl⟩⟩

end Derive

end Chain
end Crain
