/-
The difficulty pallet, as `pallets/difficulty/src/lib.rs` computes it.

`Storage` holds the three storage items.  The timestamp hook `onTimestampSet`
runs in the option monad: `none` is a trap, raised by an arithmetic operation
that does not fit its width or by a division by zero.
-/
import Crain.Machine.Register
import Crain.Primitives

namespace Crain
namespace Difficulty

open Machine Machine.Word

/-- Milliseconds since the unix epoch, the runtime's `Moment`. -/
abbrev Moment := U64

structure DifficultyAndTimestamp where
  difficulty : Difficulty
  timestamp : Moment
  deriving DecidableEq, Repr

abbrev Slot := Option DifficultyAndTimestamp

structure Storage where
  /-- Past difficulties and timestamps, from earliest to latest. -/
  pastDifficultiesAndTimestamps : Vector Slot 60
  currentDifficulty : Difficulty
  initialDifficulty : Difficulty

def genesis (initialDifficulty : Difficulty) : Storage where
  pastDifficultiesAndTimestamps := Vector.replicate 60 none
  currentDifficulty := initialDifficulty
  initialDifficulty := initialDifficulty

/-- Move value linearly toward a goal. -/
def damp (actual goal dampFactor : U128) : Option U128 := do
  let weight ← sub? dampFactor 1
  let weighted ← mul? weight goal
  let total ← add? actual weighted
  div? total dampFactor

/-- Limit value to be within some factor from a goal. -/
def clamp (actual goal clampFactor : U128) : Option U128 := do
  let low ← div? goal clampFactor
  let high ← mul? goal clampFactor
  return umax low (umin actual high)

/-- The time counted between two neighbouring slots.  With either of them empty
it is the target block time. -/
def delta (blockTime : U128) (prev cur : Slot) : U128 :=
  match prev.map fun d => saturatedInto 128 d.timestamp,
      cur.map fun d => saturatedInto 128 d.timestamp with
  | some prev, some cur => saturatingSub cur prev
  | _, _ => blockTime

/-- The difficulty counted for a slot.  An empty slot counts as the initial
difficulty. -/
def diff (initialDifficulty : Difficulty) (slot : Slot) : Difficulty :=
  match slot.map fun d => d.difficulty with
  | some diff => diff
  | none => initialDifficulty

/-- The hook called with each block's timestamp. -/
def onTimestampSet (targetBlockTime : Moment) (s : Storage) (now : Moment) : Option Storage := do
  let blockTime : U128 := saturatedInto 128 targetBlockTime
  let blockTimeWindow ← mul? (difficultyAdjustWindow.setWidth 128) blockTime
  let data := Register.push (n := 59) s.pastDifficultiesAndTimestamps
    (some { timestamp := now, difficulty := s.currentDifficulty })
  -- The source's `i` runs over `1..60`; here it is the predecessor's index.
  let tsDelta ← (List.finRange 59).foldlM
    (fun tsDelta i => add? tsDelta (delta blockTime data[i.castSucc] data[i.succ])) 0
  let tsDelta := if tsDelta = 0 then 1 else tsDelta
  let diffSum ← (List.finRange 60).foldlM
    (fun diffSum i => add? diffSum (diff s.initialDifficulty data[i])) 0
  let diffSum :=
    if diffSum < minDifficulty.setWidth 256 then minDifficulty.setWidth 256 else diffSum
  let damped ← damp tsDelta blockTimeWindow difficultyDampFactor
  let adjTs ← clamp damped blockTimeWindow clampFactor
  let product ← mul? diffSum (blockTime.setWidth 256)
  let quotient ← div? product (adjTs.setWidth 256)
  let difficulty :=
    umin (maxDifficulty.setWidth 256) (umax (minDifficulty.setWidth 256) quotient)
  return { s with
    pastDifficultiesAndTimestamps := data
    currentDifficulty := difficulty }

def runFrom (targetBlockTime : Moment) (s : Storage) (timestamps : List Moment) : Option Storage :=
  run (onTimestampSet targetBlockTime) s timestamps

def runGenesis (targetBlockTime : Moment) (initialDifficulty : Difficulty)
    (timestamps : List Moment) : Option Storage :=
  runFrom targetBlockTime (genesis initialDifficulty) timestamps

end Difficulty
end Crain
