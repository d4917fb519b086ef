import Crain.Machine.Word
import Crain.Machine.Count
import Crain.Machine.Run
import Crain.Machine.Register
import Crain.Primitives
import Crain.Difficulty.Pallet
import Crain.Difficulty.Exact
import Crain.Difficulty.Window
import Crain.Difficulty.Traps
import Crain.Difficulty.Bounds
import Crain.Difficulty.Monotone
import Crain.Difficulty.OnTarget
import Crain.Difficulty.Settled
import Crain.Difficulty.FastBlocks
import Crain.Difficulty.SlowBlocks
import Crain.Difficulty.Recurrence
import Crain.Machine.Bytes
import Crain.Machine.Codec
import Crain.Pow.Algorithm
import Crain.Machine.Posting
import Crain.Machine.Budget
import Crain.Machine.Transaction
import Crain.Moneybag.Contract
import Crain.Moneybag.Ledger
import Crain.Pow.Verify
import Crain.Pow.Binding
import Crain.Pow.Threshold
import Crain.Pow.TieBreak
import Crain.Pow.Mining
import Crain.Moneybag.Backing
import Crain.Moneybag.History
import Crain.Moneybag.Prize
import Crain.Moneybag.Pot
import Crain.Moneybag.HalfRule
import Crain.Moneybag.Draw
import Crain.Moneybag.Payable
import Crain.Moneybag.Solvency
import Crain.Moneybag.Journal
import Crain.Moneybag.Odds
import Crain.Erc20.Contract
import Crain.Erc20.Effect
import Crain.Erc20.Ledger
import Crain.Erc20.Log
import Crain.Erc20.Allowance
import Crain.Erc20.Race
import Crain.Erc20.Commute
import Crain.Erc20.Frame
import Crain.Machine.Derived
import Crain.Erc20.Ideal
import Crain.Erc20.Groups
import Crain.Difficulty.Cadence
import Crain.Difficulty.Stored
import Crain.Pow.Rounds
import Crain.Pow.Worker
import Crain.Chain.Import
import Crain.Chain.Lineage
import Crain.Chain.Sane
import Crain.Chain.ForkChoice
