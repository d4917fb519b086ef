/-
The ERC-20 contract, as `contracts/erc20/src/lib.rs` computes it.

A message runs on the contract's storage together with the log of events, and
traps where checked arithmetic leaves 128 bits.  It returns the result the source
returns; the storage and the log that come with an error are the ones the source
leaves behind when it returns early.
-/
import Mathlib.Logic.Function.Basic
import Crain.Primitives

namespace Crain

open Machine Machine.Word

structure Erc20 (AccountId : Type) where
  totalSupply : Balance
  /-- Mapping from owner to number of owned token. -/
  balances : AccountId → Option Balance
  /-- Mapping of the token amount which an account is allowed to withdraw from
  another account. -/
  allowances : AccountId × AccountId → Option Balance

namespace Erc20

variable {AccountId : Type}

inductive Event (AccountId : Type) where
  | transfer (source target : Option AccountId) (value : Balance)
  | approval (owner spender : AccountId) (value : Balance)
  deriving DecidableEq

inductive Error where
  | insufficientBalance
  | insufficientAllowance
  deriving DecidableEq

/-- The balance of an account, zero if the account is non-existent. -/
def balanceOf (token : Erc20 AccountId) (owner : AccountId) : Balance :=
  (token.balances owner).getD 0

/-- What `spender` may still withdraw from `owner`, zero if nothing was set. -/
def allowance (token : Erc20 AccountId) (owner spender : AccountId) : Balance :=
  (token.allowances (owner, spender)).getD 0

/-- A message under way. -/
structure Exec (AccountId : Type) where
  token : Erc20 AccountId
  events : List (Event AccountId)

def Exec.emit (x : Exec AccountId) (e : Event AccountId) : Exec AccountId :=
  { x with events := x.events ++ [e] }

section Messages

variable [DecidableEq AccountId]

def Exec.insertBalance (x : Exec AccountId) (owner : AccountId) (value : Balance) :
    Exec AccountId :=
  { x with token :=
    { x.token with balances := Function.update x.token.balances owner (some value) } }

def Exec.insertAllowance (x : Exec AccountId) (owner spender : AccountId) (value : Balance) :
    Exec AccountId :=
  { x with token :=
    { x.token with allowances :=
      Function.update x.token.allowances (owner, spender) (some value) } }

def newInit (caller : AccountId) (initialSupply : Balance) (x : Exec AccountId) :
    Exec AccountId :=
  let x := x.insertBalance caller initialSupply
  let x := { x with token := { x.token with totalSupply := initialSupply } }
  x.emit (.transfer none (some caller) initialSupply)

/-- The constructor, on storage whose mappings are empty. -/
def new (caller : AccountId) (initialSupply : Balance) : Exec AccountId :=
  newInit caller initialSupply ⟨⟨0, fun _ => none, fun _ => none⟩, []⟩

def transferFromTo (source target : AccountId) (value : Balance) (x : Exec AccountId) :
    Option (Except Error Unit × Exec AccountId) :=
  let fromBalance := x.token.balanceOf source
  if fromBalance < value then some (.error .insufficientBalance, x)
  else do
    let left ← sub? fromBalance value
    let x := x.insertBalance source left
    -- Read after the write: the two accounts may be the same.
    let toBalance := x.token.balanceOf target
    let sum ← add? toBalance value
    let x := x.insertBalance target sum
    return (.ok (), x.emit (.transfer (some source) (some target) value))

def transfer (caller target : AccountId) (value : Balance) (x : Exec AccountId) :
    Option (Except Error Unit × Exec AccountId) :=
  transferFromTo caller target value x

def approve (caller spender : AccountId) (value : Balance) (x : Exec AccountId) :
    Option (Except Error Unit × Exec AccountId) :=
  let owner := caller
  let x := x.insertAllowance owner spender value
  some (.ok (), x.emit (.approval owner spender value))

def transferFrom (caller source target : AccountId) (value : Balance) (x : Exec AccountId) :
    Option (Except Error Unit × Exec AccountId) :=
  let allowance := x.token.allowance source caller
  if allowance < value then some (.error .insufficientAllowance, x)
  else do
    match ← transferFromTo source target value x with
    | (.error e, x) => return (.error e, x)
    | (.ok (), x) =>
      let left ← sub? allowance value
      return (.ok (), x.insertAllowance source caller left)

/-! ## Calls -/

inductive Message (AccountId : Type) where
  | transfer (target : AccountId) (value : Balance)
  | approve (spender : AccountId) (value : Balance)
  | transferFrom (source target : AccountId) (value : Balance)
  deriving DecidableEq

structure Call (AccountId : Type) where
  caller : AccountId
  message : Message AccountId
  deriving DecidableEq

def dispatch (c : Call AccountId) (x : Exec AccountId) :
    Option (Except Error Unit × Exec AccountId) :=
  match c.message with
  | .transfer target value => Erc20.transfer c.caller target value x
  | .approve spender value => Erc20.approve c.caller spender value x
  | .transferFrom source target value => Erc20.transferFrom c.caller source target value x

end Messages

end Erc20
end Crain
