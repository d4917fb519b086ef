/-
Machine integers and chain constants.

The constants are those of `primitives/src/lib.rs`, at the widths the source
declares them with.
-/
import Crain.Machine.Word

namespace Crain

abbrev U32 := BitVec 32
abbrev U64 := BitVec 64
abbrev U128 := BitVec 128
abbrev U256 := BitVec 256

abbrev Difficulty := U256

/-- Amounts of a contract's currency. -/
abbrev Balance := U128

/-- Block interval, in seconds, the network tunes its next target for. -/
def blockTimeSec : U64 := 60

def blockTime : U64 := blockTimeSec * 1000

def hourHeight : U64 := 3600 / blockTimeSec

/-- Number of blocks used to calculate difficulty adjustments. -/
def difficultyAdjustWindow : U64 := hourHeight

def clampFactor : U128 := 2

def difficultyDampFactor : U128 := 3

/-- Minimum difficulty, enforced in retargeting. -/
def minDifficulty : U128 := difficultyDampFactor

/-- Maximum difficulty, the largest 128-bit word. -/
def maxDifficulty : U128 := BitVec.allOnes 128

/-! ## The integers they stand for -/

theorem blockTime_toNat : blockTime.toNat = 60000 := by decide

theorem blockTime_pos : 0 < blockTime.toNat := by decide

theorem difficultyAdjustWindow_toNat : (difficultyAdjustWindow.setWidth 128).toNat = 60 := by
  decide

theorem minDifficulty_toNat : (minDifficulty.setWidth 256).toNat = 3 := by decide

theorem maxDifficulty_toNat : (maxDifficulty.setWidth 256).toNat = 2 ^ 128 - 1 := by decide

end Crain
