import BitcoinPurity.Script.Script

/-!
# Transactions and coins

The data of `primitives/transaction.h` and the `Coin` of `coins.h`.  Hashes are natural
numbers, and a transaction carries its two hashes as fields, as the class does: that different
transactions have different ones is a hypothesis where it is needed.
-/

namespace BitcoinPurity

structure COutPoint where
  hash : Nat
  n : Nat
  deriving DecidableEq, Repr, Inhabited

def COutPoint.isNull (outpoint : COutPoint) : Bool :=
  outpoint.hash == 0 && outpoint.n == 0xffffffff

structure CTxIn where
  prevout : COutPoint
  scriptSig : CScript := []
  nSequence : Nat := 0xffffffff
  scriptWitness : List Bytes := []
  deriving DecidableEq, Repr, Inhabited

/-- An output; amounts are `int64_t`. -/
structure CTxOut where
  nValue : Int
  scriptPubKey : CScript
  deriving DecidableEq, Repr, Inhabited

structure CTransaction where
  vin : List CTxIn
  vout : List CTxOut
  version : Nat := 2
  nLockTime : Nat := 0
  hash : Nat
  witnessHash : Nat
  deriving DecidableEq, Repr, Inhabited

def CTransaction.isCoinBase (tx : CTransaction) : Bool :=
  match tx.vin with
  | [txin] => txin.prevout.isNull
  | _ => false

/-- An output and where it was created. -/
structure Coin where
  out : CTxOut
  fCoinBase : Bool
  nHeight : Nat
  deriving DecidableEq, Repr, Inhabited

/-- A spent coin, or one that never existed, has the null output. -/
def Coin.isSpent (coin : Coin) : Bool := coin.out.nValue == -1

/-- What `Coin::Clear` leaves, and the `coinEmpty` of `AccessCoin`. -/
def Coin.empty : Coin := { out := ⟨-1, []⟩, fCoinBase := false, nHeight := 0 }

/-- A coin as a view returns it: a spent one is none. -/
def Coin.unspent (coin : Coin) : Option Coin := if coin.isSpent then none else some coin

@[simp] theorem Coin.isSpent_empty : Coin.empty.isSpent := rfl

def isUnspendable (script : CScript) : Bool :=
  script.head? == some 0x6a || decide (script.length > maxScriptSize)

end BitcoinPurity
