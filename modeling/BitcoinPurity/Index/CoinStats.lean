import Mathlib.Algebra.Order.Ring.Rat
import BitcoinPurity.Chain.Index
import BitcoinPurity.Lib.Fractions
import BitcoinPurity.Lib.Words
import BitcoinPurity.Validation.ConnectBlock

/-!
# The coin statistics index

`CoinStatsIndex`: eleven running totals and a MuHash of the UTXO set, updated block by block, with
a record of each block in a database table by height.  A reorganization copies the records of the
blocks that leave the chain to a table by hash, takes the blocks out of the MuHash one by one and
restores the totals from the record of the block below.

Amounts are integers, and an addition on them that leaves `CAmount` ends with
`IndexError.overflow`.  `uint64_t` and `arith_uint256` are natural numbers, reduced with `word`.  A
MuHash is a fraction over the residues modulo its prime.  As elsewhere a block hash is the block
pointer; database reads and writes do not fail.

`appendTxs_reversible`: what `CustomAppend` multiplies into the MuHash, the loops of
`ReverseBlock` take out again.
-/

namespace BitcoinPurity

open Fractions Tighten Words Writes Fraction

/-! ## Data -/

/-- The ways in which a call of the index can end early. -/
inductive IndexError
  /-- It returns false. -/
  | rejected
  | assertFailed
  /-- A `CAmount` overflows. -/
  | overflow
  /-- An access past the end of the undo data or the inputs. -/
  | outOfRange
  | nullPointer
  deriving DecidableEq, Repr

/-- The statistics of a record, of the members and of `CCoinsStats`. -/
structure Totals where
  transactionOutputCount : Nat := 0
  bogoSize : Nat := 0
  totalAmount : Int := 0
  totalSubsidy : Int := 0
  totalPrevoutSpentAmount : Nat := 0
  totalNewOutputsExCoinbaseAmount : Nat := 0
  totalCoinbaseAmount : Nat := 0
  totalUnspendablesGenesisBlock : Int := 0
  totalUnspendablesBip30 : Int := 0
  totalUnspendablesScripts : Int := 0
  totalUnspendablesUnclaimedRewards : Int := 0
  deriving DecidableEq, Repr

structure DBVal extends Totals where
  muhash : Nat := 0
  deriving DecidableEq, Repr

abbrev MuHash3072 (F : Type) := Fraction F

/-- The members that hold statistics: the totals and `m_muhash`. -/
structure Members (F : Type) extends Totals where
  muhash : MuHash3072 F

/-- `CoinStatsIndex`: the members and the two tables of its database. -/
structure CoinStatsIndex (F : Type) where
  members : Members F
  /-- `m_current_block_hash` -/
  currentBlockHash : BlockPtr
  /-- The values under a `DBHeightKey`. -/
  heightIndex : Int → Option (BlockPtr × DBVal)
  /-- The values under a `DBHashKey`. -/
  hashIndex : BlockPtr → Option DBVal

/-- What the index reads from the node and from the libraries it calls. -/
structure IndexEnv (F : Type) [CommGroupWithZero F] where
  readBlock : BlockPtr → Option CBlock
  readBlockUndo : BlockPtr → Option CBlockUndo
  isBIP30Unspendable : BlockPtr → Bool
  nSubsidyHalvingInterval : Nat
  /-- The interval of every network, the second one on regtest. -/
  interval_eq : nSubsidyHalvingInterval = 210000 ∨ nSubsidyHalvingInterval = 150
  /-- `MuHash3072::ToNum3072` of a serialized coin. -/
  toNum3072 : COutPoint → Coin → F
  /-- No coin hashes to zero modulo the prime. -/
  toNum3072_ne_zero : ∀ outpoint coin, toNum3072 outpoint coin ≠ 0
  /-- The hash at the end of `MuHash3072::Finalize`. -/
  getSHA256 : F → Nat

/-! ## Algorithm -/

section
variable {F : Type} [CommGroupWithZero F]

def CoinStatsIndex.start : CoinStatsIndex F where
  members := { muhash := .one }
  currentBlockHash := []
  heightIndex := fun _ => none
  hashIndex := fun _ => none

def toAmount (sum : Int) : Except IndexError Int :=
  if -2 ^ 63 ≤ sum ∧ sum < 2 ^ 63 then .ok sum else .error .overflow

/-- `+=` of an `arith_uint256` and an amount, which is converted to `uint64_t`. -/
def addAmount (total : Nat) (nValue : Int) : Nat := word 256 (total + word 64 nValue)

def getBogoSize (scriptPubKey : CScript) : Nat := 32 + 4 + 4 + 8 + 2 + scriptPubKey.length

namespace IndexEnv
variable (env : IndexEnv F)

section

variable (muhash : MuHash3072 F) (outpoint : COutPoint) (coin : Coin)

def applyCoinHash : MuHash3072 F :=
  muhash.scale (env.toNum3072 outpoint coin) 1

def removeCoinHash : MuHash3072 F :=
  muhash.scale 1 (env.toNum3072 outpoint coin)

end

def finalize (muhash : MuHash3072 F) : MuHash3072 F × Nat :=
  (muhash.reduce, env.getSHA256 muhash.reduce.numerator)

def addOutput (tx : CTransaction) (height j : Nat) (out : CTxOut) (s : Members F) :
    Except IndexError (Members F) :=
  let coin := newCoin tx height out
  if isUnspendable coin.out.scriptPubKey then do
    let totalUnspendablesScripts ← toAmount (s.totalUnspendablesScripts + coin.out.nValue)
    .ok { s with totalUnspendablesScripts }
  else do
    let totalAmount ← toAmount (s.totalAmount + coin.out.nValue)
    .ok { s with
      muhash := env.applyCoinHash s.muhash ⟨tx.hash, j⟩ coin
      totalCoinbaseAmount :=
        if tx.isCoinBase then addAmount s.totalCoinbaseAmount coin.out.nValue
        else s.totalCoinbaseAmount
      totalNewOutputsExCoinbaseAmount :=
        if tx.isCoinBase then s.totalNewOutputsExCoinbaseAmount
        else addAmount s.totalNewOutputsExCoinbaseAmount coin.out.nValue
      transactionOutputCount := word 64 (s.transactionOutputCount + 1)
      totalAmount
      bogoSize := word 64 (s.bogoSize + getBogoSize coin.out.scriptPubKey) }

/-- The loop over the outputs, from output `j` on. -/
def addOutputs (tx : CTransaction) (height : Nat) :
    Nat → List CTxOut → Members F → Except IndexError (Members F)
  | _, [], s => .ok s
  | j, out :: vout, s => do
    let s ← env.addOutput tx height j out s
    addOutputs tx height (j + 1) vout s

def spendPrevout (txin : CTxIn) (coin : Coin) (s : Members F) : Except IndexError (Members F) := do
  let totalAmount ← toAmount (s.totalAmount - coin.out.nValue)
  .ok { s with
    muhash := env.removeCoinHash s.muhash txin.prevout coin
    totalPrevoutSpentAmount := addAmount s.totalPrevoutSpentAmount coin.out.nValue
    transactionOutputCount := word 64 (s.transactionOutputCount - 1)
    totalAmount
    bogoSize := word 64 (s.bogoSize - getBogoSize coin.out.scriptPubKey) }

def spendPrevouts : List CTxIn → CTxUndo → Members F → Except IndexError (Members F)
  | _, [], s => .ok s
  | [], _ :: _, _ => .error .outOfRange
  | txin :: vin, coin :: vprevout, s => do
    let s ← env.spendPrevout txin coin s
    spendPrevouts vin vprevout s

def txUndoAt (undo : CBlockUndo) : Nat → Except IndexError CTxUndo
  | 0 => .error .outOfRange
  | i + 1 =>
    match undo[i]? with
    | none => .error .outOfRange
    | some txUndo => .ok txUndo

/-- The outputs and, unless it is a coinbase, the coins spent of transaction `i`. -/
def addTx (height : Nat) (undo : CBlockUndo) (i : Nat) (tx : CTransaction) (s : Members F) :
    Except IndexError (Members F) := do
  let s ← env.addOutputs tx height 0 tx.vout s
  if tx.isCoinBase then .ok s
  else do
    let txUndo ← txUndoAt undo i
    env.spendPrevouts tx.vin txUndo s

variable (pindex : BlockPtr)

def appendTx (undo : CBlockUndo) (blockSubsidy : Int) (i : Nat)
    (tx : CTransaction) (s : Members F) : Except IndexError (Members F) :=
  -- duplicate txid coinbase transactions (BIP30)
  if env.isBIP30Unspendable pindex && tx.isCoinBase then do
    let totalUnspendablesBip30 ← toAmount (s.totalUnspendablesBip30 + blockSubsidy)
    .ok { s with totalUnspendablesBip30 }
  else env.addTx (nHeight pindex).toNat undo i tx s

/-- The loop over the transactions, from transaction `i` on. -/
def appendTxs (pindex : BlockPtr) (undo : CBlockUndo) (blockSubsidy : Int) :
    Nat → List CTransaction → Members F → Except IndexError (Members F)
  | _, [], s => .ok s
  | i, tx :: vtx, s => do
    let s ← env.appendTx pindex undo blockSubsidy i tx s
    appendTxs pindex undo blockSubsidy (i + 1) vtx s

def blockSubsidy : Int :=
  getBlockSubsidy (nHeight pindex).toNat env.nSubsidyHalvingInterval

def appendTransactions (block : CBlock) (s : Members F) : Except IndexError (Members F) := do
  let totalSubsidy ← toAmount (s.totalSubsidy + env.blockSubsidy pindex)
  let s := { s with totalSubsidy }
  if nHeight pindex > 0 then
    match env.readBlockUndo pindex with
    | none => .error .rejected
    | some undo => env.appendTxs pindex undo (env.blockSubsidy pindex) 0 block.vtx s
  else do
    -- genesis block
    let totalUnspendablesGenesisBlock ←
      toAmount (s.totalUnspendablesGenesisBlock + env.blockSubsidy pindex)
    .ok { s with totalUnspendablesGenesisBlock }

end IndexEnv

namespace Totals

def totalUnspendable (s : Totals) : Except IndexError Int := do
  let sum ← toAmount (s.totalUnspendablesGenesisBlock + s.totalUnspendablesBip30)
  let sum ← toAmount (sum + s.totalUnspendablesScripts)
  toAmount (sum + s.totalUnspendablesUnclaimedRewards)

/-- The minuend of `unclaimed_rewards`. -/
def claimable (s : Totals) : Nat := word 256 (s.totalPrevoutSpentAmount + word 64 s.totalSubsidy)

/-- The subtrahend of `unclaimed_rewards`. -/
def accounted (s : Totals) (totalUnspendable : Int) : Nat :=
  word 256 (word 256 (s.totalNewOutputsExCoinbaseAmount + s.totalCoinbaseAmount) +
    word 64 totalUnspendable)

end Totals

/-- The unclaimed part of the block reward is unspendable too. -/
def addUnclaimed (s : Members F) : Except IndexError (Members F) := do
  let totalUnspendable ← s.totalUnspendable
  let unclaimedRewards := word 256 (s.claimable - s.accounted totalUnspendable)
  failIf (decide (unclaimedRewards > 2 ^ 63 - 1)) .assertFailed
  let totalUnspendablesUnclaimedRewards ←
    toAmount (s.totalUnspendablesUnclaimedRewards + word 64 unclaimedRewards)
  .ok { s with totalUnspendablesUnclaimedRewards }

namespace IndexEnv
variable (env : IndexEnv F)

variable (pindex : BlockPtr)

variable (block : CBlock)

/-- What `CustomAppend` does to the members, and the value that it records. -/
def appendBlock (s : Members F) : Except IndexError (Members F × DBVal) := do
  let s ← env.appendTransactions pindex block s
  let s ← addUnclaimed s
  let (muhash, out) := env.finalize s.muhash
  .ok ({ s with muhash }, { s.toTotals with muhash := out })

def customAppend (s : CoinStatsIndex F) :
    Except IndexError (CoinStatsIndex F) := do
  failIf (decide (nHeight pindex > 0) && decide (s.currentBlockHash ≠ pindex.tail)) .rejected
  let (members, value) ← env.appendBlock pindex block s.members
  .ok { s with
    members
    currentBlockHash := pindex
    heightIndex := Function.update s.heightIndex (nHeight pindex) (some (pindex, value)) }

def append (s : CoinStatsIndex F) : Except IndexError (CoinStatsIndex F) :=
  match env.readBlock pindex with
  | none => .error .rejected
  | some block => env.customAppend pindex block s

/-- The index after the blocks of a chain were appended, from genesis on. -/
def appendChain : BlockPtr → Except IndexError (CoinStatsIndex F)
  | [] => .ok .start
  | x :: b => do
    let s ← appendChain b
    env.append (x :: b) s

/-- `CopyHeightIndexToHashIndex`: the batch with `left` records from `height` on. -/
def copyHeightIndexToHashIndex (heightIndex : Int → Option (BlockPtr × DBVal)) :
    Nat → Int → Except IndexError (List (BlockPtr × DBVal))
  | 0, _ => .ok []
  | left + 1, height =>
    match heightIndex height with
    | none => .error .rejected
    | some value => do
      let batch ← copyHeightIndexToHashIndex heightIndex left (height + 1)
      .ok (value :: batch)

/-- The loop of `ReverseBlock` over the outputs, from output `j` on. -/
def removeOutputs (tx : CTransaction) (height : Nat) :
    Nat → List CTxOut → MuHash3072 F → MuHash3072 F
  | _, [], muhash => muhash
  | j, out :: vout, muhash =>
    let coin := newCoin tx height out
    removeOutputs tx height (j + 1) vout
      (if isUnspendable coin.out.scriptPubKey then muhash
        else env.removeCoinHash muhash ⟨tx.hash, j⟩ coin)

def restorePrevouts : List CTxIn → CTxUndo → MuHash3072 F → Except IndexError (MuHash3072 F)
  | _, [], muhash => .ok muhash
  | [], _ :: _, _ => .error .outOfRange
  | txin :: vin, coin :: vprevout, muhash =>
    restorePrevouts vin vprevout (env.applyCoinHash muhash txin.prevout coin)

def reverseTx (undo : CBlockUndo) (i : Nat) (tx : CTransaction)
    (muhash : MuHash3072 F) : Except IndexError (MuHash3072 F) :=
  if tx.isCoinBase && env.isBIP30Unspendable pindex then .ok muhash
  else
    let muhash := env.removeOutputs tx (nHeight pindex).toNat 0 tx.vout muhash
    if tx.isCoinBase then .ok muhash
    else do
      let txUndo ← txUndoAt undo i
      env.restorePrevouts tx.vin txUndo muhash

/-- The loop over the transactions, from transaction `i` on. -/
def reverseTxs (pindex : BlockPtr) (undo : CBlockUndo) :
    Nat → List CTransaction → MuHash3072 F → Except IndexError (MuHash3072 F)
  | _, [], muhash => .ok muhash
  | i, tx :: vtx, muhash => do
    let muhash ← env.reverseTx pindex undo i tx muhash
    reverseTxs pindex undo (i + 1) vtx muhash

/-- The undo data and the record of the block below, which `ReverseBlock` reads. -/
def readPrevious (s : CoinStatsIndex F) : Except IndexError (CBlockUndo × DBVal) :=
  if nHeight pindex > 0 then
    match env.readBlockUndo pindex with
    | none => .error .rejected
    | some undo =>
      match s.heightIndex (nHeight pindex - 1) with
      | none => .error .rejected
      | some (hash, value) =>
        if hash = pindex.tail then .ok (undo, value)
        else
          match s.hashIndex pindex.tail with
          | none => .error .rejected
          | some value => .ok (undo, value)
  else .ok ([], {})

def reverseBlock (pindex : BlockPtr) (s : CoinStatsIndex F) :
    Except IndexError (CoinStatsIndex F) := do
  let (undo, readOut) ← env.readPrevious pindex s
  let muhash ← env.reverseTxs pindex undo 0 block.vtx s.members.muhash
  failIf (decide (readOut.muhash ≠ (env.finalize muhash).2)) .assertFailed
  failIf (decide (pindex.tail = [])) .nullPointer
  .ok { s with
    members := { readOut.toTotals with muhash := (env.finalize muhash).1 }
    currentBlockHash := pindex.tail }

/-- The loop of `CustomRewind`, from `iter_tip` down to the block above `newTip`. -/
def rewindLoop (newTip : BlockPtr) :
    BlockPtr → CoinStatsIndex F → Except IndexError (CoinStatsIndex F)
  | [], _ => .error .nullPointer
  | x :: b, s =>
    match env.readBlock (x :: b) with
    | none => .error .rejected
    | some block => do
      let s ← env.reverseBlock block (x :: b) s
      if b = newTip then .ok s else rewindLoop newTip b s

def customRewind (currentTip newTip : BlockPtr) (s : CoinStatsIndex F) :
    Except IndexError (CoinStatsIndex F) := do
  let batch ← copyHeightIndexToHashIndex s.heightIndex
    (nHeight currentTip - nHeight newTip + 1).toNat (nHeight newTip)
  env.rewindLoop newTip currentTip
    { s with hashIndex := write s.hashIndex (batch.map fun value => (value.1, some value.2)) }

end IndexEnv

end

/-! ## Lemmas -/

section
variable {F : Type} [CommGroupWithZero F] {env : IndexEnv F}

theorem toAmount_eq_ok {x y : Int} : toAmount x = .ok y ↔ (-2 ^ 63 ≤ x ∧ x < 2 ^ 63) ∧ x = y := by
  unfold toAmount
  grind

namespace IndexEnv

variable {s s' : Members F} {pindex : BlockPtr} {tx : CTransaction} {undo : CBlockUndo}

/-- The loop over the outputs multiplies a factor into the numerator, and the one of
`ReverseBlock` the same into the denominator. -/
theorem addOutputs_reversible {height j : Nat} {vout : List CTxOut}
    (h : env.addOutputs tx height j vout s = .ok s') :
    ∃ p : F, p ≠ 0 ∧ s'.muhash = s.muhash.scale p 1 ∧
      ∀ muhash, env.removeOutputs tx height j vout muhash = muhash.scale 1 p := by
  induction vout generalizing j s with
  | nil =>
    cases h
    exact ⟨1, one_ne_zero, (scale_one _).symm, fun _ => (scale_one _).symm⟩
  | cons out vout ih =>
    obtain ⟨s1, h1, h2⟩ := bind_eq_ok.1 h
    obtain ⟨p, hp, hs, hback⟩ := ih h2
    simp only [addOutput] at h1
    split at h1
    next hu =>
      obtain ⟨scripts, -, ⟨⟩⟩ := bind_eq_ok.1 h1
      exact ⟨p, hp, hs, fun muhash => by rw [removeOutputs, if_pos hu, hback]⟩
    next hu =>
    obtain ⟨amount, -, ⟨⟩⟩ := bind_eq_ok.1 h1
    refine ⟨env.toNum3072 ⟨tx.hash, j⟩ (newCoin tx height out) * p,
      mul_ne_zero (env.toNum3072_ne_zero _ _) hp, ?_, fun muhash => ?_⟩
    · rw [hs, applyCoinHash, scale_scale, mul_one]
    · rw [removeOutputs, if_neg hu, hback, removeCoinHash, scale_scale, mul_one]

theorem spendPrevouts_reversible {vin : List CTxIn} {vprevout : CTxUndo}
    (h : env.spendPrevouts vin vprevout s = .ok s') :
    ∃ q : F, q ≠ 0 ∧ s'.muhash = s.muhash.scale 1 q ∧
      ∀ muhash, env.restorePrevouts vin vprevout muhash = .ok (muhash.scale q 1) := by
  induction vprevout generalizing vin s with
  | nil =>
    cases vin <;> cases h <;>
      exact ⟨1, one_ne_zero, (scale_one _).symm, fun muhash => by
        rw [restorePrevouts, scale_one]⟩
  | cons coin vprevout ih =>
    cases vin with
    | nil => cases h
    | cons txin vin =>
      obtain ⟨s1, h1, h2⟩ := bind_eq_ok.1 h
      obtain ⟨q, hq, hs, hback⟩ := ih h2
      obtain ⟨amount, -, ⟨⟩⟩ := bind_eq_ok.1 h1
      refine ⟨env.toNum3072 txin.prevout coin * q,
        mul_ne_zero (env.toNum3072_ne_zero _ _) hq, ?_, fun muhash => ?_⟩
      · rw [hs, removeCoinHash, scale_scale, mul_one]
      · rw [restorePrevouts, hback, applyCoinHash, scale_scale, mul_one]

theorem appendTx_reversible {subsidy : Int} {i : Nat}
    (h : env.appendTx pindex undo subsidy i tx s = .ok s') :
    ∃ p q : F, p ≠ 0 ∧ q ≠ 0 ∧ s'.muhash = s.muhash.scale p q ∧
      ∀ muhash, env.reverseTx pindex undo i tx muhash = .ok (muhash.scale q p) := by
  unfold appendTx at h
  split at h
  · obtain ⟨bip30, -, ⟨⟩⟩ := bind_eq_ok.1 h
    refine ⟨1, 1, one_ne_zero, one_ne_zero, (scale_one _).symm, fun muhash => ?_⟩
    rw [reverseTx, if_pos (by rwa [Bool.and_comm]), scale_one]
  · obtain ⟨s1, hadd, h⟩ := bind_eq_ok.1 h
    obtain ⟨p, hp, hs1, hremove⟩ := addOutputs_reversible hadd
    have hback : ∀ muhash, env.reverseTx pindex undo i tx muhash =
        if tx.isCoinBase then .ok (muhash.scale 1 p)
        else txUndoAt undo i >>= fun txUndo =>
          env.restorePrevouts tx.vin txUndo (muhash.scale 1 p) := by
      intro muhash
      rw [reverseTx, if_neg (by rwa [Bool.and_comm]), hremove]
    split at h
    next hcb =>
      cases h
      exact ⟨p, 1, hp, one_ne_zero, hs1, fun muhash => by rw [hback, if_pos hcb]⟩
    next hcb =>
    obtain ⟨txUndo, hat, hspend⟩ := bind_eq_ok.1 h
    obtain ⟨q, hq, hs', hrestore⟩ := spendPrevouts_reversible hspend
    refine ⟨p, q, hp, hq, ?_, fun muhash => ?_⟩
    · rw [hs', hs1, scale_scale, mul_one, one_mul]
    · rw [hback, if_neg hcb]
      refine bind_eq_ok.2 ⟨txUndo, hat, ?_⟩
      rw [hrestore, scale_scale, mul_one, one_mul]

/-- **The transactions of a block**: what goes into the MuHash can be taken out. -/
theorem appendTxs_reversible {subsidy : Int} {i : Nat} {vtx : List CTransaction}
    (h : env.appendTxs pindex undo subsidy i vtx s = .ok s') :
    ∃ p q : F, p ≠ 0 ∧ q ≠ 0 ∧ s'.muhash = s.muhash.scale p q ∧
      ∀ muhash, env.reverseTxs pindex undo i vtx muhash = .ok (muhash.scale q p) := by
  induction vtx generalizing i s with
  | nil =>
    cases h
    exact ⟨1, 1, one_ne_zero, one_ne_zero, (scale_one _).symm, fun muhash => by
      rw [reverseTxs, scale_one]⟩
  | cons tx vtx ih =>
    obtain ⟨s1, h1, h2⟩ := bind_eq_ok.1 h
    obtain ⟨p1, q1, hp1, hq1, hs1, hback1⟩ := appendTx_reversible h1
    obtain ⟨p, q, hp, hq, hs, hback⟩ := ih h2
    refine ⟨p1 * p, q1 * q, mul_ne_zero hp1 hp, mul_ne_zero hq1 hq, ?_, fun muhash => ?_⟩
    · rw [hs, hs1, scale_scale]
    · refine bind_eq_ok.2 ⟨_, hback1 muhash, ?_⟩
      rw [hback, scale_scale]

theorem customAppend_eq_ok {block : CBlock} {s s' : CoinStatsIndex F} :
    env.customAppend pindex block s = .ok s' ↔
      (nHeight pindex > 0 → s.currentBlockHash = pindex.tail) ∧
        ∃ members value, env.appendBlock pindex block s.members = .ok (members, value) ∧
          s' = { s with
            members
            currentBlockHash := pindex
            heightIndex :=
              Function.update s.heightIndex (nHeight pindex) (some (pindex, value)) } := by
  have hguard : (decide (nHeight pindex > 0) && decide (s.currentBlockHash ≠ pindex.tail)) =
      false ↔ (nHeight pindex > 0 → s.currentBlockHash = pindex.tail) := by
    simp
  simp only [customAppend, bind_eq_ok, failIf_eq_ok, hguard]
  grind

theorem append_eq_ok {s s' : CoinStatsIndex F} : env.append pindex s = .ok s' ↔
      ∃ block, env.readBlock pindex = some block ∧ env.customAppend pindex block s = .ok s' := by
  unfold append
  split
  next h => simp [h]
  next block h => simp [h]

theorem append_of_appendBlock {block : CBlock} {s : CoinStatsIndex F} {members : Members F}
    {value : DBVal} (hblock : env.readBlock pindex = some block)
    (hprev : nHeight pindex > 0 → s.currentBlockHash = pindex.tail)
    (h : env.appendBlock pindex block s.members = .ok (members, value)) :
    ∃ s', env.append pindex s = .ok s' ∧ s'.members = members :=
  ⟨_, append_eq_ok.2 ⟨block, hblock, customAppend_eq_ok.2 ⟨hprev, members, value, h, rfl⟩⟩, rfl⟩

theorem appendChain_cons {x : CBlockHeader} {b : BlockPtr} {d : CoinStatsIndex F}
    (h : env.appendChain (x :: b) = .ok d) :
    ∃ d0 block value, env.appendChain b = .ok d0 ∧ env.readBlock (x :: b) = some block ∧
      env.appendBlock (x :: b) block d0.members = .ok (d.members, value) ∧
      d.currentBlockHash = x :: b := by
  obtain ⟨d0, h0, h⟩ := bind_eq_ok.1 h
  obtain ⟨block, hblock, h⟩ := append_eq_ok.1 h
  obtain ⟨-, members, value, happ, rfl⟩ := customAppend_eq_ok.1 h
  exact ⟨d0, block, value, h0, hblock, happ, rfl⟩

theorem appendChain_current {b : BlockPtr} {d : CoinStatsIndex F}
    (h : env.appendChain b = .ok d) : d.currentBlockHash = b := by
  cases b with
  | nil =>
    cases h
    rfl
  | cons x b =>
    obtain ⟨_, _, _, -, -, -, hcur⟩ := appendChain_cons h
    exact hcur

end IndexEnv

end

/-! ## Sample blocks -/

def indexHeader (nonce : Nat) : CBlockHeader where
  nVersion := 4
  hashMerkleRoot := 0
  nTime := 0
  nBits := 0
  nNonce := nonce

def indexCoinbase (nonce : Nat) : CTransaction where
  vin := [{ prevout := ⟨0, 0xffffffff⟩ }]
  vout := [⟨5000000000, [op1]⟩, ⟨0, [0x6a]⟩]
  hash := nonce
  witnessHash := nonce

/-- It spends the coinbase of a block and leaves a fee. -/
def indexSpend (nonce : Nat) : CTransaction where
  vin := [{ prevout := ⟨nonce, 0⟩ }]
  vout := [⟨4000000000, [op1]⟩]
  hash := 20
  witnessHash := 20

/-- The block with nonce 2 spends the coinbase below it. -/
def indexBlock : BlockPtr → CBlock
  | [] => ⟨[]⟩
  | [x] => ⟨[indexCoinbase x.nNonce]⟩
  | x :: y :: _ =>
    ⟨indexCoinbase x.nNonce :: if x.nNonce = 2 then [indexSpend y.nNonce] else []⟩

def indexUndo : BlockPtr → CBlockUndo
  | x :: y :: _ =>
    if x.nNonce = 2 then [[newCoin (indexCoinbase y.nNonce) 1 ⟨5000000000, [op1]⟩]] else []
  | _ => []

def sampleIndexEnv : IndexEnv Rat where
  readBlock b := some (indexBlock b)
  readBlockUndo b := some (indexUndo b)
  isBIP30Unspendable _ := false
  nSubsidyHalvingInterval := 210000
  interval_eq := .inl rfl
  toNum3072 outpoint coin := ((outpoint.hash + coin.nHeight + 1 : Nat) : Rat)
  toNum3072_ne_zero _ _ := Nat.cast_ne_zero.2 (by omega)
  getSHA256 x := x.num.natAbs

def indexChain (nonces : List Nat) : BlockPtr := nonces.map indexHeader

end BitcoinPurity
