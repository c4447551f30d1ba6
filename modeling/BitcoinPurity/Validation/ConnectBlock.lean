import BitcoinPurity.Consensus.Amount
import BitcoinPurity.Lib.Writes

/-!
# Connecting a block

The part of `Chainstate::ConnectBlock` that works on the UTXO set: the transaction checks of
`CheckBlock`, the BIP30 check, then for each transaction `CheckTxInputs`, the accumulated fee, the
checks that read the coins it spends, and `UpdateCoins`; at last the limit on the coinbase.

What does not touch the coins is an argument (`ConnectEnv`): the header, proof of work and merkle
checks, BIP68, the signature operation counts and the scripts, each free to reject.

`connectBlock_ok`: an accepted block connects its transactions one after another.
-/

namespace BitcoinPurity

open Calls Tighten List

/-! ## Algorithm -/

structure CBlock where
  vtx : List CTransaction
  deriving DecidableEq, Repr

/-- `CTxUndo`: the coins spent by the inputs, in order. -/
abbrev CTxUndo := List Coin

/-- `CBlockUndo`: the undo data of every transaction but the coinbase. -/
abbrev CBlockUndo := List CTxUndo

/-- What `ConnectBlock` and `DisconnectBlock` know about the block besides its transactions. -/
structure ConnectEnv where
  nHeight : Nat
  blockHash : Nat
  prevHash : Nat
  /-- The hash is `hashGenesisBlock`. -/
  isGenesis : Bool
  nSubsidyHalvingInterval : Nat
  /-- `fEnforceBIP30` of `ConnectBlock`, before the height limit is looked at. -/
  fEnforceBIP30 : Bool
  /-- `IsBIP30Unspendable`: the two blocks whose coinbases were overwritten. -/
  isBIP30Unspendable : Bool
  /-- `CheckTxInputsRules::OutputSizeLimit` -/
  outputSizeLimit : Bool
  /-- The answer of `CheckSignetCoinbaseOutputSizes`, where it is the one asked. -/
  signetCoinbaseOutputSizes : Option Bool
  /-- The checks of `CheckBlock` and of the start of `ConnectBlock` on the header, the merkle
  root and the signet solution. -/
  headerChecks : Bool
  legacySigOpCount : CTransaction → Nat
  /-- `SequenceLocks`, on the heights of the coins spent. -/
  sequenceLocks : CTransaction → List Nat → Bool
  /-- `GetTransactionSigOpCost`, on the coins spent. -/
  sigOpCost : CTransaction → List Coin → Nat
  /-- The verdict on the scripts, from `CheckInputScripts` or the check queue. -/
  inputScripts : CTransaction → List Coin → Bool

def maxBlockSigopsCost : Nat := 80000

def coinbaseMaturity : Nat := 100

def bip34ImpliesBip30Limit : Nat := 1983702

def blockSizeNoWitness (block : CBlock) : Nat :=
  80 + getSizeOfCompactSize block.vtx.length + (block.vtx.map serializeSizeNoWitness).sum

def checkTransactions : List CTransaction → Except BlockError Unit
  | [] => .ok ()
  | tx :: vtx => do
    checkTransaction tx
    checkTransactions vtx

def checkBlock (env : ConnectEnv) (block : CBlock) : Except BlockError Unit := do
  failIf (!env.headerChecks) (.invalid .otherBlockCheck)
  failIf (block.vtx.isEmpty || decide (block.vtx.length * witnessScaleFactor > maxBlockWeight) ||
    decide (blockSizeNoWitness block * witnessScaleFactor > maxBlockWeight)) (.invalid .badBlkLength)
  failIf (!(block.vtx.head?.any (·.isCoinBase))) (.invalid .badCbMissing)
  failIf (block.vtx.tail.any (·.isCoinBase)) (.invalid .badCbMultiple)
  checkTransactions block.vtx
  failIf (decide ((block.vtx.map env.legacySigOpCount).sum * witnessScaleFactor
    > maxBlockSigopsCost)) (.invalid .badBlkSigops)

/-- The BIP30 loop over the outputs of a transaction, from index `o` on. -/
def checkBip30Outputs (hash : Nat) : Nat → List CTxOut → CoinsProg Unit
  | _, [] => pure ()
  | o, _ :: vout => do
    let have' ← haveCoin ⟨hash, o⟩
    .stopIf have' (.invalid .badTxnsBIP30)
    checkBip30Outputs hash (o + 1) vout

def checkBip30Txs : List CTransaction → CoinsProg Unit
  | [] => pure ()
  | tx :: vtx => do
    checkBip30Outputs tx.hash 0 tx.vout
    checkBip30Txs vtx

def checkBip30 (env : ConnectEnv) (block : CBlock) : CoinsProg Unit :=
  if env.fEnforceBIP30 || decide (env.nHeight ≥ bip34ImpliesBip30Limit) then
    checkBip30Txs block.vtx
  else pure ()

def sumInputs (nSpendHeight : Nat) : Int → List CTxIn → CoinsProg Int
  | nValueIn, [] => pure nValueIn
  | nValueIn, txin :: vin => do
    let coin ← accessCoin txin.prevout
    let coin ← .getOr .assertFailed coin
    .stopIf (coin.fCoinBase && decide ((nSpendHeight : Int) - coin.nHeight < coinbaseMaturity))
      (.invalid .badTxnsPrematureSpendOfCoinbase)
    let nValueIn ← .ofExcept (int64 (nValueIn + coin.out.nValue))
    .stopIf (!moneyRange coin.out.nValue || !moneyRange nValueIn)
      (.invalid .badTxnsInputvaluesOutofrange)
    sumInputs nSpendHeight nValueIn vin

/-- `Consensus::CheckTxInputs`, which returns the fee. -/
def checkTxInputs (tx : CTransaction) (nSpendHeight : Nat) (outputSizeLimit : Bool) :
    CoinsProg Int := do
  let present ← haveInputs tx
  .stopIf (!present) (.invalid .badTxnsInputsMissingorspent)
  .stopIf (outputSizeLimit && !checkOutputSizes tx) (.invalid .badTxnsVoutScriptToolarge)
  let nValueIn ← sumInputs nSpendHeight 0 tx.vin
  let valueOut ← .ofExcept (getValueOut tx)
  .stopIf (decide (nValueIn < valueOut)) (.invalid .badTxnsInBelowout)
  let txfee ← .ofExcept (int64 (nValueIn - valueOut))
  .stopIf (!moneyRange txfee) (.invalid .badTxnsFeeOutofrange)
  pure txfee

def accessInputs : List CTxIn → CoinsProg (List Coin)
  | [] => pure []
  | txin :: vin => do
    let coin ← accessCoin txin.prevout
    let coins ← accessInputs vin
    pure (coin.getD .empty :: coins)

/-- The running totals of the transaction loop. -/
structure BlockTotals where
  nFees : Int := 0
  nSigOpsCost : Nat := 0

def blockReward (env : ConnectEnv) (nFees : Int) : Except BlockError Int :=
  int64 (nFees + getBlockSubsidy env.nHeight env.nSubsidyHalvingInterval)

/-- What follows when the state becomes invalid in the loop: it is left, and the reward is still
computed and compared.  An exception or a failed assertion is passed on. -/
def afterBreak {α : Type} (env : ConnectEnv) (coinbase : CTransaction) (nFees : Int) :
    BlockError → CoinsProg α
  | .invalid reason => do
    let _ ← .ofExcept (blockReward env nFees)
    let _ ← .ofExcept (getValueOut coinbase)
    .stop (.invalid reason)
  | e => .stop e

section

variable (env : ConnectEnv)

variable (coinbase : CTransaction)

variable (nFees : Int)

variable (tx : CTransaction)

/-- The fees with the one of this transaction, of a transaction that is not a coinbase. -/
def addFee : CoinsProg Int := do
  let txfee ← (checkTxInputs tx env.nHeight env.outputSizeLimit).onStop
    (afterBreak env coinbase nFees)
  .ofExcept (int64 (nFees + txfee))

def checkFees : CoinsProg Int :=
  if tx.isCoinBase then pure nFees else addFee env coinbase nFees tx

/-- The other checks on a transaction that is not a coinbase: the accumulated fee and BIP68. -/
def checkSpends : CoinsProg Unit := do
  .stopIf (!moneyRange nFees) (.invalid .badTxnsAccumulatedFeeOutofrange)
  let coins ← accessInputs tx.vin
  .stopIf (!env.sequenceLocks tx (coins.map (·.nHeight))) (.invalid .badTxnsNonfinal)

def checkFinal : CoinsProg Unit :=
  if tx.isCoinBase then pure () else checkSpends env nFees tx

def checkCosts (totals : BlockTotals) (nFees : Int) (tx : CTransaction) :
    CoinsProg BlockTotals := do
  checkFinal env nFees tx
  let coins ← accessInputs tx.vin
  let nSigOpsCost := totals.nSigOpsCost + env.sigOpCost tx coins
  .stopIf (decide (nSigOpsCost > maxBlockSigopsCost)) (.invalid .badBlkSigops)
  .stopIf (!tx.isCoinBase && !env.inputScripts tx coins) (.invalid .scriptVerifyFlagFailed)
  pure { nFees, nSigOpsCost }

def checkTx (totals : BlockTotals) (tx : CTransaction) : CoinsProg BlockTotals := do
  let nFees ← checkFees env coinbase totals.nFees tx
  (checkCosts env totals nFees tx).onStop (afterBreak env coinbase nFees)

end

def newCoin (tx : CTransaction) (nHeight : Nat) (txOut : CTxOut) : Coin :=
  { out := txOut, fCoinBase := tx.isCoinBase, nHeight }

/-- May the output overwrite a coin?  A coinbase always may, for the sake of the duplicate
coinbases before BIP30. -/
def mayOverwrite (tx : CTransaction) (check : Bool) (i : Nat) : CoinsProg Bool :=
  if check then haveCoin ⟨tx.hash, i⟩ else pure tx.isCoinBase

def addCoinsLoop (tx : CTransaction) (nHeight : Nat) (check : Bool) :
    Nat → List CTxOut → CoinsProg Unit
  | _, [] => pure ()
  | i, txOut :: vout => do
    let overwrite ← mayOverwrite tx check i
    addCoin ⟨tx.hash, i⟩ (newCoin tx nHeight txOut) overwrite
    addCoinsLoop tx nHeight check (i + 1) vout

def addCoins (tx : CTransaction) (nHeight : Nat) (check : Bool) : CoinsProg Unit :=
  addCoinsLoop tx nHeight check 0 tx.vout

def spendInputs : List CTxIn → CoinsProg CTxUndo
  | [] => pure []
  | txin :: vin => do
    let coin ← spendCoin txin.prevout
    let coin ← .getOr .assertFailed coin
    let vprevout ← spendInputs vin
    pure (coin :: vprevout)

def markSpent (tx : CTransaction) : CoinsProg CTxUndo :=
  if tx.isCoinBase then pure [] else spendInputs tx.vin

def updateCoins (tx : CTransaction) (nHeight : Nat) : CoinsProg CTxUndo := do
  let vprevout ← markSpent tx
  addCoins tx nHeight false
  pure vprevout

def connectTxs (env : ConnectEnv) (coinbase : CTransaction) :
    BlockTotals → List CTransaction → CoinsProg (BlockTotals × List CTxUndo)
  | totals, [] => pure (totals, [])
  | totals, tx :: vtx => do
    let totals ← checkTx env coinbase totals tx
    let txundo ← updateCoins tx env.nHeight
    let rest ← connectTxs env coinbase totals vtx
    pure (rest.1, txundo :: rest.2)

def coinbaseOutputSizes (env : ConnectEnv) (coinbase : CTransaction) : Bool :=
  !env.outputSizeLimit || env.signetCoinbaseOutputSizes.getD (checkOutputSizes coinbase)

def connectTransactions (env : ConnectEnv) (block : CBlock) : CoinsProg CBlockUndo := do
  let coinbase ← .getOr .assertFailed block.vtx.head?
  checkBip30 env block
  .stopIf (!coinbaseOutputSizes env coinbase) (.invalid .badTxnsVoutScriptToolarge)
  let (totals, undo) ← connectTxs env coinbase {} block.vtx
  let reward ← .ofExcept (blockReward env totals.nFees)
  let valueOut ← .ofExcept (getValueOut coinbase)
  .stopIf (decide (valueOut > reward)) (.invalid .badCbAmount)
  setBestBlock env.blockHash
  -- the first transaction has no undo data
  pure undo.tail

/-- `ConnectBlock`, which returns the undo data it writes to disk.  The transactions of the
genesis block are not connected. -/
def connectBlock (env : ConnectEnv) (block : CBlock) : CoinsProg CBlockUndo := do
  .ofExcept (checkBlock env block)
  if env.isGenesis then
    setBestBlock env.blockHash
    pure []
  else connectTransactions env block

/-! ## Blocks as writes -/

def spendWrites (vin : List CTxIn) : List (COutPoint × Option Coin) :=
  vin.map fun txin => (txin.prevout, none)

/-- Set the spendable outputs of a transaction, from index `i` on, to what `coin` says. -/
def outputWrites (hash : Nat) (coin : CTxOut → Option Coin) :
    Nat → List CTxOut → List (COutPoint × Option Coin)
  | _, [] => []
  | i, txOut :: vout =>
    if isUnspendable txOut.scriptPubKey then outputWrites hash coin (i + 1) vout
    else (⟨hash, i⟩, coin txOut) :: outputWrites hash coin (i + 1) vout

def addWrites (tx : CTransaction) (nHeight : Nat) : List (COutPoint × Option Coin) :=
  outputWrites tx.hash (fun txOut => some (newCoin tx nHeight txOut)) 0 tx.vout

def eraseWrites (tx : CTransaction) : List (COutPoint × Option Coin) :=
  outputWrites tx.hash (fun _ => none) 0 tx.vout

def txWrites (tx : CTransaction) (nHeight : Nat) : List (COutPoint × Option Coin) :=
  (if tx.isCoinBase then [] else spendWrites tx.vin) ++ addWrites tx nHeight

/-! ## Lemmas -/

open Writes

section
variable {hash : Nat} {coin : CTxOut → Option Coin} {i : Nat} {vout : List CTxOut}

theorem outputWrites_keys (coin' : CTxOut → Option Coin) :
    (outputWrites hash coin i vout).map (·.1) = (outputWrites hash coin' i vout).map (·.1) := by
  induction vout generalizing i with
  | nil => rfl
  | cons txOut vout ih =>
    simp only [outputWrites]
    split
    · exact ih
    · simp [ih]

variable {w : COutPoint × Option Coin}

theorem mem_outputWrites (h : w ∈ outputWrites hash coin i vout) :
    w.1.hash = hash ∧ i ≤ w.1.n ∧ ∃ txOut, vout[w.1.n - i]? = some txOut ∧
      isUnspendable txOut.scriptPubKey = false ∧ w.2 = coin txOut := by
  induction vout generalizing i with
  | nil => cases h
  | cons txOut vout ih =>
    have hrest : w ∈ outputWrites hash coin (i + 1) vout → w.1.hash = hash ∧ i ≤ w.1.n ∧
        ∃ t, (txOut :: vout)[w.1.n - i]? = some t ∧
          isUnspendable t.scriptPubKey = false ∧ w.2 = coin t := by grind
    simp only [outputWrites] at h
    grind

theorem outputWrites_ne (h : w ∈ outputWrites hash coin (i + 1) vout) : w.1 ≠ ⟨hash, i⟩ := by
  intro heq
  have := (mem_outputWrites h).2.1
  rw [heq] at this
  exact absurd this (by simp)

theorem outputWrites_nodup : ((outputWrites hash coin i vout).map (·.1)).Nodup := by
  induction vout generalizing i with
  | nil => exact nodup_nil
  | cons txOut vout ih =>
    simp only [outputWrites]
    split
    · exact ih
    rw [map_cons, nodup_cons]
    refine ⟨fun hmem => ?_, ih⟩
    obtain ⟨w, hw, heq⟩ := mem_map.1 hmem
    exact outputWrites_ne hw heq

end

variable {m m' : CoinsMap} {env : ConnectEnv} {tx : CTransaction} {vtx : List CTransaction}

theorem addCoinsLoop_ok {nHeight i : Nat} {vout : List CTxOut}
    {r : Unit × CoinsMap} (h : onMap (addCoinsLoop tx nHeight false i vout) m = .ok r) :
    r.2 = write m (outputWrites tx.hash (fun o => some (newCoin tx nHeight o)) i vout) ∧
      (∀ txOut ∈ vout, txOut.nValue ≠ -1) ∧
      (tx.isCoinBase = false →
        ∀ w ∈ outputWrites tx.hash (fun o => some (newCoin tx nHeight o)) i vout,
          m w.1 = none) := by
  induction vout generalizing i m with
  | nil =>
    cases h
    exact ⟨rfl, by simp, by simp [outputWrites]⟩
  | cons txOut vout ih =>
    obtain ⟨overwrite, m', h1, h⟩ := run_bind_ok.1 h
    cases h1
    obtain ⟨_, m1, hadd, h⟩ := run_bind_ok.1 h
    obtain ⟨hm, hval, hnone⟩ := ih h
    obtain ⟨hs, hadd⟩ := onMap_addCoin_eq_ok.1 hadd
    have hval' : ∀ t ∈ txOut :: vout, t.nValue ≠ -1 := by
      intro t ht
      rcases mem_cons.1 ht with rfl | ht
      · simpa [newCoin, Coin.isSpent] using hs
      · exact hval t ht
    rcases hadd with ⟨hu, heq⟩ | ⟨hu, hnew, heq⟩
    · subst heq
      have hu' : isUnspendable txOut.scriptPubKey := hu
      simp only [outputWrites, hu']
      exact ⟨hm, hval', hnone⟩
    · subst heq
      have hu' : isUnspendable txOut.scriptPubKey = false := hu
      simp only [outputWrites, hu']
      refine ⟨hm, hval', fun hcb w hw => ?_⟩
      grind

theorem spendInputs_ok {vin : List CTxIn} {coins : CTxUndo}
    (h : onMap (spendInputs vin) m = .ok (coins, m')) :
    m' = write m (spendWrites vin) ∧ (vin.map (·.prevout)).Nodup ∧
      List.Forall₂ (fun txin coin => m txin.prevout = some coin) vin coins := by
  induction vin generalizing m coins with
  | nil =>
    cases h
    exact ⟨rfl, by simp, .nil⟩
  | cons txin vin ih =>
    obtain ⟨x, m1, h1, h⟩ := run_bind_ok.1 h
    cases h1
    obtain ⟨coin, m2, h2, h⟩ := run_bind_ok.1 h
    obtain ⟨hcoin, rfl⟩ := run_getOr_eq_ok.1 h2
    obtain ⟨coins', m3, h3, ⟨⟩⟩ := run_bind_ok.1 h
    obtain ⟨hm, hnodup, hall⟩ := ih h3
    -- the head is spent, so no later input is the same outpoint
    have hne : ∀ t c, Function.update m txin.prevout none (CTxIn.prevout t) = some c →
        t.prevout ≠ txin.prevout ∧ m t.prevout = some c := by grind
    refine ⟨hm, ?_, .cons hcoin (hall.imp fun t c hc => (hne t c hc).2)⟩
    rw [map_cons, nodup_cons]
    refine ⟨fun hmem => ?_, hnodup⟩
    obtain ⟨t, ht, heq⟩ := mem_map.1 hmem
    obtain ⟨n, hn, rfl⟩ := mem_iff_getElem.1 ht
    have hn' : n < coins'.length := by rwa [← hall.length_eq]
    exact (hne _ _ (hall.get hn hn')).1 heq

/-- What it comes to when a transaction is connected. -/
structure TxConnected (nHeight : Nat) (m : CoinsMap) (tx : CTransaction) (txundo : CTxUndo)
    (m' : CoinsMap) : Prop where
  writes : m' = write m (txWrites tx nHeight)
  values : ∀ txOut ∈ tx.vout, txOut.nValue ≠ -1
  spent : tx.isCoinBase = false → (tx.vin.map (·.prevout)).Nodup ∧
    List.Forall₂ (fun txin coin => m txin.prevout = some coin) tx.vin txundo
  fresh : tx.isCoinBase = false →
    ∀ w ∈ addWrites tx nHeight, write m (spendWrites tx.vin) w.1 = none

/-- **`UpdateCoins`**: the undo data are the coins spent, and no output of a transaction other
than a coinbase overwrites a coin. -/
theorem updateCoins_ok {nHeight : Nat} {txundo : CTxUndo}
    (h : onMap (updateCoins tx nHeight) m = .ok (txundo, m')) :
    TxConnected nHeight m tx txundo m' := by
  obtain ⟨undo, m1, hspend, h⟩ := run_bind_ok.1 h
  obtain ⟨_, m2, hadd, ⟨⟩⟩ := run_bind_ok.1 h
  obtain ⟨hm, hval, hnone⟩ := addCoinsLoop_ok hadd
  cases hcb : tx.isCoinBase with
  | true =>
    rw [markSpent, hcb] at hspend
    cases hspend
    refine ⟨?_, hval, by simp [hcb], by simp [hcb]⟩
    rw [txWrites, hcb, if_pos rfl]
    exact hm
  | false =>
    rw [markSpent, hcb] at hspend
    obtain ⟨hm1, hnodup, hall⟩ := spendInputs_ok hspend
    subst hm1
    refine ⟨?_, hval, fun _ => ⟨hnodup, hall⟩, hnone⟩
    rw [txWrites, hcb, write_append]
    exact hm

/-- Transactions connected one after another. -/
inductive TxsConnected (nHeight : Nat) :
    CoinsMap → List CTransaction → List CTxUndo → CoinsMap → Prop
  | nil (m : CoinsMap) : TxsConnected nHeight m [] [] m
  | cons {m m₁ m' : CoinsMap} {tx : CTransaction} {vtx : List CTransaction} {txundo : CTxUndo}
      {undo : List CTxUndo} (h : TxConnected nHeight m tx txundo m₁)
      (hs : TxsConnected nHeight m₁ vtx undo m') :
      TxsConnected nHeight m (tx :: vtx) (txundo :: undo) m'

theorem readsOnly_sumInputs (nSpendHeight : Nat) (vin : List CTxIn) (nValueIn : Int) :
    ReadsOnly (sumInputs nSpendHeight nValueIn vin) := by
  induction vin generalizing nValueIn with
  | nil => exact .pure _
  | cons txin vin ih =>
    refine .bind (.accessCoin _) fun coin => ?_
    refine .bind (.getOr _ _) fun coin => ?_
    refine .bind (.stopIf _ _) fun _ => ?_
    refine .bind (.ofExcept _) fun nValueIn => ?_
    exact .bind (.stopIf _ _) fun _ => ih _

theorem readsOnly_checkTxInputs (tx : CTransaction) (nSpendHeight : Nat)
    (outputSizeLimit : Bool) : ReadsOnly (checkTxInputs tx nSpendHeight outputSizeLimit) := by
  refine .bind (.haveInputs _) fun present => ?_
  refine .bind (.stopIf _ _) fun _ => ?_
  refine .bind (.stopIf _ _) fun _ => ?_
  refine .bind (readsOnly_sumInputs _ _ _) fun nValueIn => ?_
  refine .bind (.ofExcept _) fun valueOut => ?_
  refine .bind (.stopIf _ _) fun _ => ?_
  refine .bind (.ofExcept _) fun txfee => ?_
  exact .bind (.stopIf _ _) fun _ => .pure _

theorem readsOnly_accessInputs (vin : List CTxIn) : ReadsOnly (accessInputs vin) := by
  induction vin with
  | nil => exact .pure _
  | cons txin vin ih => exact .bind (.accessCoin _) fun _ => .bind ih fun _ => .pure _

theorem afterBreak_ne_ok {α : Type} (env : ConnectEnv) (coinbase : CTransaction) (nFees : Int)
    (e : BlockError) (m : CoinsMap) (r : α × CoinsMap) :
    onMap (afterBreak env coinbase nFees e) m ≠ .ok r := by
  intro h
  cases e with
  | invalid reason =>
    obtain ⟨_, m1, -, h⟩ := run_bind_ok.1 h
    obtain ⟨_, m2, -, ⟨⟩⟩ := run_bind_ok.1 h
  | _ => cases h

theorem ReadsOnly.breaks {α : Type} {p : CoinsProg α} (hp : ReadsOnly p) (env : ConnectEnv)
    (coinbase : CTransaction) (nFees : Int) :
    ReadsOnly (p.onStop (afterBreak env coinbase nFees)) := fun m r h =>
  hp m r (run_onStop_eq_ok (afterBreak_ne_ok env coinbase nFees) h)

theorem readsOnly_checkTx (env : ConnectEnv) (coinbase : CTransaction) (totals : BlockTotals)
    (tx : CTransaction) : ReadsOnly (checkTx env coinbase totals tx) := by
  have hfees : ReadsOnly (checkFees env coinbase totals.nFees tx) := by
    unfold checkFees
    split
    · exact .pure _
    · exact .bind ((readsOnly_checkTxInputs _ _ _).breaks _ _ _) fun txfee => .ofExcept _
  have hfinal (nFees : Int) : ReadsOnly (checkFinal env nFees tx) := by
    unfold checkFinal
    split
    · exact .pure _
    · refine .bind (.stopIf _ _) fun _ => ?_
      exact .bind (readsOnly_accessInputs _) fun coins => .stopIf _ _
  refine .bind hfees fun nFees => ReadsOnly.breaks (.bind (hfinal nFees) fun _ => ?_) _ _ _
  refine .bind (readsOnly_accessInputs _) fun coins => ?_
  refine .bind (.stopIf _ _) fun _ => ?_
  exact .bind (.stopIf _ _) fun _ => .pure _

theorem readsOnly_checkBip30Outputs (hash o : Nat) (vout : List CTxOut) :
    ReadsOnly (checkBip30Outputs hash o vout) := by
  induction vout generalizing o with
  | nil => exact .pure _
  | cons txOut vout ih => exact .bind (.haveCoin _) fun _ => .bind (.stopIf _ _) fun _ => ih _

theorem readsOnly_checkBip30 (env : ConnectEnv) (block : CBlock) :
    ReadsOnly (checkBip30 env block) := by
  have htxs : ∀ vtx, ReadsOnly (checkBip30Txs vtx) := by
    intro vtx
    induction vtx with
    | nil => exact .pure _
    | cons tx vtx ih => exact .bind (readsOnly_checkBip30Outputs _ _ _) fun _ => ih
  unfold checkBip30
  split
  · exact htxs _
  · exact .pure _

theorem connectTxs_ok {coinbase : CTransaction} {totals totals' : BlockTotals} {undo : List CTxUndo}
    (h : onMap (connectTxs env coinbase totals vtx) m = .ok ((totals', undo), m')) :
    TxsConnected env.nHeight m vtx undo m' := by
  induction vtx generalizing totals undo m with
  | nil =>
    cases h
    exact .nil _
  | cons tx vtx ih =>
    obtain ⟨totals1, m1, hcheck, h⟩ := run_bind_ok.1 h
    have hm : m1 = m := readsOnly_checkTx env coinbase totals tx m (totals1, m1) hcheck
    rw [hm] at h
    obtain ⟨txundo, m2, hupdate, h⟩ := run_bind_ok.1 h
    obtain ⟨rest, m3, hrest, ⟨⟩⟩ := run_bind_ok.1 h
    exact .cons (updateCoins_ok hupdate) (ih hrest)

theorem checkTransactions_ok (h : checkTransactions vtx = .ok ()) :
    ∀ tx ∈ vtx, checkTransaction tx = .ok () := by
  induction vtx with
  | nil => simp
  | cons tx vtx ih =>
    obtain ⟨_, h1, h2⟩ := bind_eq_ok.1 h
    grind

/-- What `CheckBlock` guarantees: the first transaction is a coinbase, the others are not, and all
of them pass `CheckTransaction`. -/
theorem checkBlock_ok {block : CBlock} (h : checkBlock env block = .ok ()) :
    ∃ coinbase vtx, block.vtx = coinbase :: vtx ∧ coinbase.isCoinBase ∧
      (∀ tx ∈ vtx, tx.isCoinBase = false) ∧ ∀ tx ∈ block.vtx, checkTransaction tx = .ok () := by
  simp only [checkBlock, bind_eq_ok] at h
  obtain ⟨_, -, _, -, _, hfirst, _, hrest, _, htxs, -⟩ := h
  cases hvtx : block.vtx with
  | nil => simp [hvtx] at hfirst
  | cons coinbase vtx =>
    rw [hvtx] at hfirst hrest htxs
    refine ⟨coinbase, vtx, rfl, by simpa using hfirst, ?_, checkTransactions_ok htxs⟩
    simpa using hrest

/-- **An accepted block** connects its transactions one after another, and its undo data leave
out the coinbase. -/
theorem connectBlock_ok {block : CBlock} {undo : CBlockUndo} (hg : env.isGenesis = false)
    (h : onMap (connectBlock env block) m = .ok (undo, m')) :
    ∃ coinbase vtx cbUndo, block.vtx = coinbase :: vtx ∧ coinbase.isCoinBase ∧
      (∀ tx ∈ vtx, tx.isCoinBase = false) ∧
      TxsConnected env.nHeight m block.vtx (cbUndo :: undo) m' := by
  obtain ⟨_, m1, hcheck, h⟩ := run_bind_ok.1 h
  obtain ⟨hblock, hm1⟩ := run_ofExcept_eq_ok.1 hcheck
  obtain ⟨coinbase, vtx, hvtx, hcb, hnot, -⟩ := checkBlock_ok hblock
  rw [hg] at h
  obtain ⟨cb, m2, hhead, h⟩ := run_bind_ok.1 h
  obtain ⟨-, hm2⟩ := run_getOr_eq_ok.1 hhead
  obtain ⟨_, m3, hbip, h⟩ := run_bind_ok.1 h
  have hm3 := readsOnly_checkBip30 env block _ _ hbip
  obtain ⟨_, m4, hsizes, h⟩ := run_bind_ok.1 h
  obtain ⟨-, hm4⟩ := run_stopIf_eq_ok.1 hsizes
  obtain ⟨⟨totals, undos⟩, m5, htxs, h⟩ := run_bind_ok.1 h
  obtain ⟨reward, m6, hreward, h⟩ := run_bind_ok.1 h
  obtain ⟨-, hm6⟩ := run_ofExcept_eq_ok.1 hreward
  obtain ⟨valueOut, m7, hout, h⟩ := run_bind_ok.1 h
  obtain ⟨-, hm7⟩ := run_ofExcept_eq_ok.1 hout
  obtain ⟨_, m8, hlimit, h⟩ := run_bind_ok.1 h
  obtain ⟨-, hm8⟩ := run_stopIf_eq_ok.1 hlimit
  cases h
  simp only at hm1 hm2 hm3 hm4
  have hall := connectTxs_ok htxs
  rw [hvtx, hm4, hm3, hm2, hm1, ← hm6, ← hm7, ← hm8] at hall
  cases hall with
  | @cons _ _ _ _ _ cbUndo _ hcb' hrest =>
    refine ⟨coinbase, vtx, cbUndo, hvtx, hcb, hnot, ?_⟩
    rw [hvtx]
    exact .cons hcb' hrest

end BitcoinPurity
