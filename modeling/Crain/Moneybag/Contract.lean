/-
The Moneybag contract, as `contracts/moneybag/src/lib.rs` computes it.

A call runs on the contract's storage together with what it has emitted and
transferred so far, and traps where the source panics or where checked
arithmetic leaves its width.  What the chain supplies to a call is an `Env`: the
caller, the native value attached to the call, the generator seeded for an
account, and whether a transfer goes through.
-/
import Mathlib.Logic.Function.Basic
import Crain.Primitives

namespace Crain

open Machine Machine.Word

structure Moneybag (AccountId : Type) where
  size : U32
  bidsMade : U32
  members : List AccountId
  bids : AccountId → Option Balance
  maxBid : Balance

namespace Moneybag

variable {AccountId : Type}

inductive Event (AccountId : Type) where
  | bidMade (source : Option AccountId) (value : Balance)
  | maxBidsReached
  | prizeTransfered

inductive Error where
  | maxBids
  | duplicateMember
  | bidTooLow
  deriving DecidableEq

structure Env (AccountId : Type) where
  caller : AccountId
  /-- The native value attached to the call. -/
  transferredValue : Balance
  /-- First output of the generator seeded for an account. -/
  nextU64 : AccountId → U64
  /-- Whether a transfer of an amount to an account goes through. -/
  transfer : AccountId → Balance → Bool

/-- A call under way. -/
structure Exec (AccountId : Type) where
  bag : Moneybag AccountId
  events : List (Event AccountId)
  transfers : List (AccountId × Balance)

def Exec.emit (x : Exec AccountId) (e : Event AccountId) : Exec AccountId :=
  { x with events := x.events ++ [e] }

def start (bag : Moneybag AccountId) : Exec AccountId := ⟨bag, [], []⟩

def new [DecidableEq AccountId] (env : Env AccountId) (firstBid : Balance) : Moneybag AccountId where
  size := 5
  bidsMade := 1
  members := [env.caller]
  bids := Function.update (fun _ => none) env.caller (some firstBid)
  maxBid := firstBid

def getTotalSum (bag : Moneybag AccountId) : Option Balance :=
  bag.members.foldlM (fun total member => do
    let bid ← bag.bids member
    add? total bid) 0

/-- The bid of the caller. -/
def getMyBid (env : Env AccountId) (bag : Moneybag AccountId) : Option Balance :=
  bag.bids env.caller

/-- A random number between `min` and `max`, both included. -/
def genRange (env : Env AccountId) (min max : U64) (userAccount : AccountId) : Option U64 := do
  let width ← sub? max min
  let count ← add? width 1
  let offset ← rem? (env.nextU64 userAccount) count
  add? offset min

/-- The member at a random position.  Positions are 32-bit on the contract's
platform. -/
def findWinner (env : Env AccountId) (bag : Moneybag AccountId) : Option AccountId := do
  let winnerPos ← genRange env 0 (bag.size.setWidth 64) env.caller
  bag.members[(winnerPos.setWidth 32).toNat]?

def givePrize (env : Env AccountId) (x : Exec AccountId) : Option (Exec AccountId) := do
  let total ← getTotalSum x.bag
  let winner ← findWinner env x.bag
  if env.transfer winner total then
    some ({ x with transfers := x.transfers ++ [(winner, total)] }.emit .prizeTransfered)
  else none

section AddBid

variable [DecidableEq AccountId]

/-- The storage writes of an accepted bid. -/
def recordBid (bag : Moneybag AccountId) (caller : AccountId) (amount : Balance) :
    Option (Moneybag AccountId) := do
  let bidsMade ← add? bag.bidsMade 1
  return { bag with
    bids := Function.update bag.bids caller (some amount)
    members := bag.members ++ [caller]
    bidsMade := bidsMade
    maxBid := if bag.maxBid < amount then amount else bag.maxBid }

def addBid (env : Env AccountId) (amount : Balance) (x : Exec AccountId) :
    Option (Except Error Unit × Exec AccountId) :=
  if x.bag.size ≤ x.bag.bidsMade then
    some (.error .maxBids, x.emit .maxBidsReached)
  else if amount < x.bag.maxBid / 2 then
    some (.error .bidTooLow, x)
  else if env.caller ∈ x.bag.members then
    some (.error .duplicateMember, x)
  else do
    let bag ← recordBid x.bag env.caller amount
    let x := { x with bag := bag }
    let x ← (if bag.bidsMade = bag.size then givePrize env (x.emit .maxBidsReached) else some x)
    return (.ok (), x.emit (.bidMade (some env.caller) amount))

end AddBid

end Moneybag
end Crain
