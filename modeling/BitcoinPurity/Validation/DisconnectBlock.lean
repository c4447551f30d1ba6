import BitcoinPurity.Validation.ConnectBlock

/-!
# Disconnecting a block

`ApplyTxInUndo` and `Chainstate::DisconnectBlock`: transactions in reverse order, the outputs of
each one removed and its inputs put back, last input first.

* `disconnectBlock_connected`: on the map an accepted block left, the result is clean, and the
  map is the one before but for coins a coinbase overwrote.
* `disconnectBlock_undoes_connectBlock`: without such a coin it is the map before.
-/

namespace BitcoinPurity

open Calls Writes List Function

/-! ## Algorithm -/

/-- `DisconnectResult`; `DISCONNECT_FAILED` is `BlockError.disconnectFailed`. -/
inductive DisconnectResult
  | ok
  | unclean
  deriving DecidableEq, Repr

/-- An output takes eight bytes of value and one of script length. -/
def minTransactionOutputWeight : Nat := witnessScaleFactor * 9

def maxOutputsPerBlock : Nat := maxBlockWeight / minTransactionOutputWeight

/-- The loop of `AccessByTxid`, from index `n` on, with `left` indices left. -/
def accessByTxidLoop (txid : Nat) : Nat → Nat → CoinsProg (Option Coin)
  | 0, _ => pure none
  | left + 1, n => do
    match ← accessCoin ⟨txid, n⟩ with
    | some coin => pure (some coin)
    | none => accessByTxidLoop txid left (n + 1)

/-- `AccessByTxid`: an unspent output of the transaction. -/
def accessByTxid (txid : Nat) : CoinsProg (Option Coin) :=
  accessByTxidLoop txid maxOutputsPerBlock 0

/-- The coin to restore.  Older undo records lack height and coinbase flag, which are then taken
from another output of the same transaction. -/
def undoMetadata (undo : Coin) (out : COutPoint) : CoinsProg Coin :=
  if undo.nHeight = 0 then do
    let alternate ← accessByTxid out.hash
    let alternate ← .getOr .disconnectFailed alternate
    pure { undo with nHeight := alternate.nHeight, fCoinBase := alternate.fCoinBase }
  else pure undo

def applyTxInUndo (undo : Coin) (out : COutPoint) : CoinsProg DisconnectResult := do
  let overwrite ← haveCoin out
  let undo ← undoMetadata undo out
  addCoin out undo overwrite
  pure (if overwrite then .unclean else .ok)

/-- Is the coin taken out exactly the one the output made? -/
def outputMatches (env : ConnectEnv) (tx : CTransaction) (txOut : CTxOut) : Option Coin → Bool
  | none => false
  | some coin =>
    txOut == coin.out && env.nHeight == coin.nHeight && tx.isCoinBase == coin.fCoinBase

def disconnectOutputs (env : ConnectEnv) (tx : CTransaction) :
    Nat → List CTxOut → Bool → CoinsProg Bool
  | _, [], fClean => pure fClean
  | o, txOut :: vout, fClean =>
    if isUnspendable txOut.scriptPubKey then disconnectOutputs env tx (o + 1) vout fClean
    else do
      let coin ← spendCoin ⟨tx.hash, o⟩
      let isBip30Exception := tx.isCoinBase && env.isBIP30Unspendable
      disconnectOutputs env tx (o + 1) vout
        (fClean && (outputMatches env tx txOut coin || isBip30Exception))

def restoreInputs : List (CTxIn × Coin) → Bool → CoinsProg Bool
  | [], fClean => pure fClean
  | (txin, undo) :: rest, fClean => do
    let res ← applyTxInUndo undo txin.prevout
    restoreInputs rest (fClean && res != .unclean)

/-- One round of the loop over the transactions; the first one has no undo data. -/
def disconnectTx (env : ConnectEnv) (tx : CTransaction) (txundo : Option CTxUndo)
    (fClean : Bool) : CoinsProg Bool := do
  let fClean ← disconnectOutputs env tx 0 tx.vout fClean
  match txundo with
  | none => pure fClean
  | some vprevout =>
    if vprevout.length ≠ tx.vin.length then .stop .disconnectFailed
    else restoreInputs (tx.vin.zip vprevout).reverse fClean

def disconnectTxs (env : ConnectEnv) : List (CTransaction × Option CTxUndo) → Bool → CoinsProg Bool
  | [], fClean => pure fClean
  | (tx, txundo) :: rest, fClean => do
    let fClean ← disconnectTx env tx txundo fClean
    disconnectTxs env rest fClean

def undoOrder (block : CBlock) (undo : CBlockUndo) : List (CTransaction × Option CTxUndo) :=
  (block.vtx.zip (none :: undo.map some)).reverse

/-- `DisconnectBlock`, with the undo data read from disk. -/
def disconnectBlock (env : ConnectEnv) (block : CBlock) (undo : CBlockUndo) :
    CoinsProg DisconnectResult := do
  .stopIf (undo.length + 1 != block.vtx.length) .disconnectFailed
  let fClean ← disconnectTxs env (undoOrder block undo) true
  setBestBlock env.prevHash
  pure (if fClean then .ok else .unclean)

/-! ## Undoing as writes -/

/-- A coin that the undo loop puts back as it is: `AddCoin` takes it, and it has its height. -/
structure Coin.Restorable (coin : Coin) : Prop where
  unspent : coin.isSpent = false
  spendable : isUnspendable coin.out.scriptPubKey = false
  height : 0 < coin.nHeight

def restoreWrites (tx : CTransaction) (txundo : CTxUndo) : List (COutPoint × Option Coin) :=
  (tx.vin.zip txundo).reverse.map fun p => (p.1.prevout, some p.2)

def txUndoWrites (x : CTransaction × Option CTxUndo) : List (COutPoint × Option Coin) :=
  eraseWrites x.1 ++ (x.2.map (restoreWrites x.1)).getD []

def undoWrites (block : CBlock) (undo : CBlockUndo) : List (COutPoint × Option Coin) :=
  (undoOrder block undo).flatMap txUndoWrites

/-- The undo data of a transaction fit it. -/
def UndoFits (x : CTransaction × Option CTxUndo) : Prop :=
  ∀ txundo, x.2 = some txundo → txundo.length = x.1.vin.length ∧ ∀ coin ∈ txundo, coin.Restorable

/-! ## Lemmas -/

variable {env : ConnectEnv} {m m' : CoinsMap} {block : CBlock} {undo : CBlockUndo} {nHeight : Nat}
  {vtx : List CTransaction}

theorem outputMatches_iff {tx : CTransaction} {txOut : CTxOut} {coin : Option Coin} :
    outputMatches env tx txOut coin ↔ coin = some (newCoin tx env.nHeight txOut) := by
  cases coin with
  | none => simp [outputMatches]
  | some coin =>
    obtain ⟨out, cb, height⟩ := coin
    simp only [outputMatches, newCoin, Bool.and_eq_true, beq_iff_eq, Option.some.injEq,
      Coin.mk.injEq]
    tauto

theorem disconnectOutputs_run (env : ConnectEnv) (tx : CTransaction) (o : Nat)
    (vout : List CTxOut) (fClean : Bool) (m : CoinsMap) :
    ∃ b, onMap (disconnectOutputs env tx o vout fClean) m =
        .ok (b, write m (outputWrites tx.hash (fun _ => none) o vout)) ∧
      ((∀ w ∈ outputWrites tx.hash (fun t => some (newCoin tx env.nHeight t)) o vout,
        m w.1 = w.2) → b = fClean) := by
  induction vout generalizing o fClean m with
  | nil => exact ⟨fClean, rfl, fun _ => rfl⟩
  | cons txOut vout ih =>
    cases hu : isUnspendable txOut.scriptPubKey with
    | true =>
      simp only [disconnectOutputs, outputWrites, hu]
      exact ih (o + 1) fClean m
    | false =>
      simp only [disconnectOutputs, outputWrites, hu]
      obtain ⟨b, h1, h2⟩ := ih (o + 1) (fClean && (outputMatches env tx txOut (m ⟨tx.hash, o⟩) ||
        (tx.isCoinBase && env.isBIP30Unspendable))) (update m ⟨tx.hash, o⟩ none)
      refine ⟨b, h1, fun hall => ?_⟩
      have hhead : outputMatches env tx txOut (m ⟨tx.hash, o⟩) :=
        outputMatches_iff.2 (hall (⟨tx.hash, o⟩, some (newCoin tx env.nHeight txOut)) (by simp))
      rw [h2, hhead, Bool.true_or, Bool.and_true]
      intro w hw
      rw [update_of_ne (outputWrites_ne hw)]
      exact hall w (mem_cons_of_mem _ hw)

theorem applyTxInUndo_run {undo : Coin} (hr : undo.Restorable) (out : COutPoint) (m : CoinsMap) :
    onMap (applyTxInUndo undo out) m =
      .ok (if (m out).isSome then .unclean else .ok, update m out (some undo)) := by
  have hh : undo.nHeight ≠ 0 := Nat.pos_iff_ne_zero.1 hr.height
  have hadd : onMap (addCoin out undo (m out).isSome) m =
      .ok ((), update m out (some undo)) := by
    rw [onMap_addCoin_eq_ok]
    refine ⟨hr.unspent, .inr ⟨hr.spendable, ?_, rfl⟩⟩
    cases m out with
    | none => exact .inr rfl
    | some coin => exact .inl rfl
  simp [applyTxInUndo, undoMetadata, hh, hadd]

theorem restoreInputs_run {l : List (CTxIn × Coin)} (hl : ∀ p ∈ l, p.2.Restorable)
    (fClean : Bool) (m : CoinsMap) :
    ∃ b, onMap (restoreInputs l fClean) m =
        .ok (b, write m (l.map fun p => (p.1.prevout, some p.2))) ∧
      ((l.map (·.1.prevout)).Nodup → (∀ p ∈ l, m p.1.prevout = none) → b = fClean) := by
  induction l generalizing fClean m with
  | nil => exact ⟨fClean, rfl, fun _ _ => rfl⟩
  | cons p l ih =>
    obtain ⟨txin, undo⟩ := p
    simp only [restoreInputs, run_bind, applyTxInUndo_run (hl (txin, undo) (by simp)),
      map_cons]
    obtain ⟨b, h1, h2⟩ := ih (fun p hp => hl p (mem_cons_of_mem _ hp))
      (fClean && (if (m txin.prevout).isSome then DisconnectResult.unclean else .ok) != .unclean)
      (update m txin.prevout (some undo))
    refine ⟨b, h1, fun hnodup hnone => ?_⟩
    rw [nodup_cons] at hnodup
    have hhead : m txin.prevout = none := hnone (txin, undo) (by simp)
    grind

theorem mem_zip_restorable (vin : List CTxIn) {txundo : CTxUndo}
    (h : ∀ coin ∈ txundo, coin.Restorable) : ∀ p ∈ (vin.zip txundo).reverse, p.2.Restorable := by
  intro p hp
  rw [mem_reverse] at hp
  exact h p.2 (of_mem_zip hp).2

/-- **On every map** the undo loop writes the same values. -/
theorem disconnectTx_run (env : ConnectEnv) {x : CTransaction × Option CTxUndo} (hx : UndoFits x)
    (fClean : Bool) (m : CoinsMap) :
    ∃ b, onMap (disconnectTx env x.1 x.2 fClean) m = .ok (b, write m (txUndoWrites x)) := by
  obtain ⟨tx, txundo⟩ := x
  obtain ⟨b, h1, -⟩ := disconnectOutputs_run env tx 0 tx.vout fClean m
  simp only [disconnectTx, run_bind, h1]
  cases txundo with
  | none => exact ⟨b, by simp [txUndoWrites, eraseWrites]⟩
  | some vprevout =>
    obtain ⟨hlen, hall⟩ := hx vprevout rfl
    obtain ⟨b', h2, -⟩ := restoreInputs_run (mem_zip_restorable tx.vin hall) b
      (write m (outputWrites tx.hash (fun _ => none) 0 tx.vout))
    refine ⟨b', ?_⟩
    simp only [hlen, ne_eq, not_true, if_false, h2, txUndoWrites, write_append]
    rfl

variable {l : List (CTransaction × Option CTxUndo)}

theorem disconnectTxs_run (env : ConnectEnv)
    (hl : ∀ x ∈ l, UndoFits x) (fClean : Bool) (m : CoinsMap) :
    ∃ b, onMap (disconnectTxs env l fClean) m = .ok (b, write m (l.flatMap txUndoWrites)) := by
  induction l generalizing fClean m with
  | nil => exact ⟨fClean, rfl⟩
  | cons x l ih =>
    obtain ⟨b, h1⟩ := disconnectTx_run env (hl x (by simp)) fClean m
    obtain ⟨b', h2⟩ := ih (fun y hy => hl y (mem_cons_of_mem _ hy)) b (write m (txUndoWrites x))
    refine ⟨b', ?_⟩
    simp only [disconnectTxs, run_bind, h1, h2, flatMap_cons, write_append]

theorem disconnectTxs_append (env : ConnectEnv)
    {fClean b : Bool} (h : onMap (disconnectTxs env l fClean) m = .ok (b, m'))
    (l' : List (CTransaction × Option CTxUndo)) :
    onMap (disconnectTxs env (l ++ l') fClean) m = onMap (disconnectTxs env l' b) m' := by
  induction l generalizing fClean m with
  | nil =>
    cases h
    rfl
  | cons x l ih =>
    obtain ⟨b1, m1, h1, h2⟩ := run_bind_ok.1 h
    simp only [cons_append, disconnectTxs, run_bind, h1]
    exact ih h2

theorem disconnectBlock_run (env : ConnectEnv) (hlen : undo.length + 1 = block.vtx.length)
    (hfits : ∀ x ∈ undoOrder block undo, UndoFits x) (m : CoinsMap) :
    ∃ r, onMap (disconnectBlock env block undo) m = .ok (r, write m (undoWrites block undo)) := by
  obtain ⟨b, hrun⟩ := disconnectTxs_run env hfits true m
  have hsize : (undo.length + 1 != block.vtx.length) = false := by simp [hlen]
  refine ⟨if b then .ok else .unclean, ?_⟩
  simp [disconnectBlock, hsize, hrun, undoWrites]

/-! ## The map after an accepted block -/

def AllRestorable (m : CoinsMap) : Prop := ∀ o coin, m o = some coin → coin.Restorable

section
variable {nHeight : Nat} {m m' : CoinsMap} {tx : CTransaction} {txundo : CTxUndo}

theorem TxConnected.restorable (hh : 0 < nHeight) (h : TxConnected nHeight m tx txundo m')
    (hm : AllRestorable m) : AllRestorable m' := by
  have hws : ∀ w ∈ txWrites tx nHeight, ∀ coin, w.2 = some coin → coin.Restorable := by
    intro w hw coin hcoin
    rcases mem_append.1 hw with hw | hw
    · split at hw
      · cases hw
      · obtain ⟨txin, -, rfl⟩ := mem_map.1 hw
        cases hcoin
    obtain ⟨-, -, txOut, hmem, hu, hval⟩ := mem_outputWrites hw
    rw [hval] at hcoin
    cases hcoin
    refine ⟨?_, hu, hh⟩
    simpa [newCoin, Coin.isSpent] using h.values txOut (mem_of_getElem? hmem)
  intro o
  rw [h.writes]
  exact write_forall (Q := fun v => ∀ coin : Coin, v = some coin → coin.Restorable) hm hws o

theorem TxConnected.undo_restorable (hcb : tx.isCoinBase = false)
    (h : TxConnected nHeight m tx txundo m') (hm : AllRestorable m) :
    ∀ coin ∈ txundo, coin.Restorable := by
  obtain ⟨-, hall⟩ := h.spent hcb
  intro coin hcoin
  obtain ⟨n, hn, rfl⟩ := mem_iff_getElem.1 hcoin
  have hn' : n < tx.vin.length := by rwa [hall.length_eq]
  exact hm _ _ (hall.get hn' hn)

theorem addWrites_keys (tx : CTransaction) (nHeight : Nat) :
    (addWrites tx nHeight).map (·.1) = (eraseWrites tx).map (·.1) :=
  outputWrites_keys _

theorem write_addWrites (m : CoinsMap) (tx : CTransaction) (nHeight : Nat) :
    ∀ w ∈ addWrites tx nHeight, write m (addWrites tx nHeight) w.1 = w.2 := by
  have key : ∀ (vout : List CTxOut) i m,
      ∀ w ∈ outputWrites tx.hash (fun t => some (newCoin tx nHeight t)) i vout,
        write m (outputWrites tx.hash (fun t => some (newCoin tx nHeight t)) i vout) w.1 = w.2 := by
    intro vout
    induction vout with
    | nil => simp [outputWrites]
    | cons txOut vout ih =>
      intro i m w hw
      simp only [outputWrites] at hw ⊢
      split
      next hu =>
        rw [if_pos hu] at hw
        exact ih (i + 1) m w hw
      next hu =>
        rw [if_neg hu] at hw
        rw [write_cons]
        rcases mem_cons.1 hw with rfl | hw
        · rw [write_of_not_mem, update_self]
          intro hmem
          obtain ⟨w', hw', heq⟩ := mem_map.1 hmem
          exact outputWrites_ne hw' heq
        · exact ih (i + 1) _ w hw
  exact key tx.vout 0 m

theorem disconnectOutputs_connected (env : ConnectEnv) (m : CoinsMap) (tx : CTransaction)
    (fClean : Bool) :
    onMap (disconnectOutputs env tx 0 tx.vout fClean) (write m (addWrites tx env.nHeight)) =
      .ok (fClean, write m (eraseWrites tx)) := by
  obtain ⟨b, hrun, hclean⟩ := disconnectOutputs_run env tx 0 tx.vout fClean
    (write m (addWrites tx env.nHeight))
  have hb : b = fClean := hclean (write_addWrites m tx env.nHeight)
  rw [hrun, hb]
  show Except.ok (fClean, write (write m (addWrites tx env.nHeight)) (eraseWrites tx)) = _
  rw [write_write_of_subset (fun k hk => by rwa [addWrites_keys] at hk)]

variable {env : ConnectEnv}

theorem write_spendWrites (m : CoinsMap) {vin : List CTxIn} {txin : CTxIn} (h : txin ∈ vin) :
    write m (spendWrites vin) txin.prevout = none := by
  have hkey : txin.prevout ∈ (spendWrites vin).map (·.1) := by
    rw [spendWrites, map_map]
    exact mem_map.2 ⟨txin, h, rfl⟩
  obtain ⟨w, hw, -, hval⟩ := exists_write_of_mem hkey
  obtain ⟨t, -, rfl⟩ := mem_map.1 hw
  exact hval m

theorem restoreWrites_keys (hlen : txundo.length = tx.vin.length) :
    (tx.vin.zip txundo).reverse.map (·.1.prevout) = (tx.vin.map (·.prevout)).reverse := by
  have hfst := map_fst_zip (Nat.le_of_eq hlen.symm)
  calc (tx.vin.zip txundo).reverse.map (·.1.prevout)
      = (((tx.vin.zip txundo).map Prod.fst).map (·.prevout)).reverse := by
        rw [map_reverse, map_map]
        rfl
    _ = (tx.vin.map (·.prevout)).reverse := by rw [hfst]

section
variable (hcb : tx.isCoinBase = false)
include hcb

theorem TxConnected.write_eraseWrites
    (h : TxConnected nHeight m tx txundo m') :
    write (write m (spendWrites tx.vin)) (eraseWrites tx) = write m (spendWrites tx.vin) := by
  apply write_eq_self
  intro w hw
  obtain ⟨-, -, -, -, -, hnone⟩ := mem_outputWrites hw
  have hkey : w.1 ∈ (addWrites tx nHeight).map (·.1) := by
    rw [addWrites_keys]
    exact mem_map.2 ⟨w, hw, rfl⟩
  obtain ⟨w', hw', heq⟩ := mem_map.1 hkey
  rw [hnone, ← heq]
  exact h.fresh hcb w' hw'

theorem TxConnected.write_restoreWrites
    (h : TxConnected nHeight m tx txundo m') :
    write (write m (spendWrites tx.vin)) (restoreWrites tx txundo) = m := by
  obtain ⟨-, hall⟩ := h.spent hcb
  have hlen : txundo.length = tx.vin.length := hall.length_eq.symm
  have hkeys := restoreWrites_keys hlen
  rw [write_write_of_subset]
  · apply write_eq_self
    intro w hw
    obtain ⟨p, hp, rfl⟩ := mem_map.1 hw
    exact forall₂_zip hall (mem_reverse.1 hp)
  · intro k hk
    rw [restoreWrites, map_map]
    show k ∈ (tx.vin.zip txundo).reverse.map (·.1.prevout)
    rw [hkeys, mem_reverse]
    rwa [spendWrites, map_map] at hk

/-- **Step**: undoing a transaction that is not a coinbase is clean and restores the map. -/
theorem disconnectTx_connected
    (h : TxConnected env.nHeight m tx txundo m') (hm : AllRestorable m) (fClean : Bool) :
    onMap (disconnectTx env tx (some txundo) fClean) m' = .ok (fClean, m) := by
  obtain ⟨hnodup, hall⟩ := h.spent hcb
  have hlen : txundo.length = tx.vin.length := hall.length_eq.symm
  have hm' : m' = write (write m (spendWrites tx.vin)) (addWrites tx env.nHeight) := by
    rw [h.writes, txWrites, hcb, if_neg Bool.false_ne_true, write_append]
  obtain ⟨b, hrun, hclean⟩ := restoreInputs_run
    (mem_zip_restorable tx.vin (h.undo_restorable hcb hm)) fClean
    (write m (spendWrites tx.vin))
  have hb : b = fClean := by
    apply hclean
    · rw [restoreWrites_keys hlen]
      exact pairwise_reverse.2 (hnodup.imp fun hne => hne.symm)
    · intro p hp
      exact write_spendWrites m (of_mem_zip (mem_reverse.1 hp)).1
  have hback := h.write_restoreWrites hcb
  rw [restoreWrites] at hback
  simp only [disconnectTx, hm', run_bind, disconnectOutputs_connected, h.write_eraseWrites hcb,
    hlen, ne_eq, not_true, if_false, hrun, hb, hback]

end

end

variable {undo : List CTxUndo}

section

variable (h : TxsConnected nHeight m vtx undo m')
include h

theorem TxsConnected.length_eq : undo.length = vtx.length := by
  induction h with
  | nil => rfl
  | cons _ _ ih => simp [ih]

theorem TxsConnected.restorable (hh : 0 < nHeight) (hm : AllRestorable m) : AllRestorable m' := by
  induction h with
  | nil => exact hm
  | cons htx _ ih => exact ih (htx.restorable hh hm)

theorem TxsConnected.undoFits
    (hh : 0 < nHeight) (hnot : ∀ tx ∈ vtx, tx.isCoinBase = false) (hm : AllRestorable m) :
    ∀ x ∈ vtx.zip (undo.map some), UndoFits x := by
  induction h with
  | nil => simp
  | cons htx _ ih =>
    intro x hx txundo hundo
    have hcb := hnot _ mem_cons_self
    rw [map_cons, zip_cons_cons, mem_cons] at hx
    rcases hx with rfl | hx
    · cases hundo
      exact ⟨(htx.spent hcb).2.length_eq.symm, htx.undo_restorable hcb hm⟩
    · exact ih (fun tx ht => hnot tx (mem_cons_of_mem _ ht)) (htx.restorable hh hm) x hx
        txundo hundo

end

/-- **Run**: undoing connected transactions, last first, is clean and restores the map. -/
theorem disconnectTxs_connected (hh : 0 < env.nHeight)
    (h : TxsConnected env.nHeight m vtx undo m') (hnot : ∀ tx ∈ vtx, tx.isCoinBase = false)
    (hm : AllRestorable m) (fClean : Bool) :
    onMap (disconnectTxs env (vtx.zip (undo.map some)).reverse fClean) m' = .ok (fClean, m) := by
  induction h with
  | nil => rfl
  | cons htx _ ih =>
    have hcb := hnot _ mem_cons_self
    have hrest := ih (fun tx ht => hnot tx (mem_cons_of_mem _ ht)) (htx.restorable hh hm)
    rw [map_cons, zip_cons_cons, reverse_cons, disconnectTxs_append env hrest]
    simp [disconnectTxs, disconnectTx_connected hcb htx hm]

theorem undoOrder_fits (hg : env.isGenesis = false) (hh : 1 ≤ env.nHeight) (hm : AllRestorable m)
    (h : onMap (connectBlock env block) m = .ok (undo, m')) :
    undo.length + 1 = block.vtx.length ∧ ∀ x ∈ undoOrder block undo, UndoFits x := by
  obtain ⟨coinbase, vtx, cbUndo, hvtx, -, hnot, htxs⟩ := connectBlock_ok hg h
  refine ⟨htxs.length_eq, fun x hx => ?_⟩
  rw [hvtx] at htxs
  rw [undoOrder, hvtx, mem_reverse, zip_cons_cons, mem_cons] at hx
  cases htxs with
  | cons hfirst hrest =>
    rcases hx with rfl | hx
    · intro txundo hundo
      cases hundo
    · exact hrest.undoFits hh hnot (hfirst.restorable hh hm) x hx

/-- Undoing connected transactions is clean, and restores the map but for coins that the outputs
of the coinbase overwrote. -/
theorem disconnectBlock_txs {coinbase : CTransaction} {cbUndo : CTxUndo} (hh : 1 ≤ env.nHeight)
    (hm : AllRestorable m) (hvtx : block.vtx = coinbase :: vtx) (hcb : coinbase.isCoinBase)
    (hnot : ∀ tx ∈ vtx, tx.isCoinBase = false)
    (htxs : TxsConnected env.nHeight m block.vtx (cbUndo :: undo) m') :
    onMap (disconnectBlock env block undo) m' = .ok (.ok, write m (eraseWrites coinbase)) := by
  have hlen := htxs.length_eq
  rw [length_cons] at hlen
  rw [hvtx] at htxs
  cases htxs with
  | cons hfirst hrest =>
    have hundo := disconnectTxs_connected hh hrest hnot (hfirst.restorable hh hm) true
    have hwrites := hfirst.writes
    rw [txWrites, if_pos hcb, nil_append] at hwrites
    have hall : onMap (disconnectTxs env (undoOrder block undo) true) m' =
        .ok (true, write m (eraseWrites coinbase)) := by
      rw [undoOrder, hvtx, zip_cons_cons, reverse_cons, disconnectTxs_append env hundo]
      simp [disconnectTxs, disconnectTx, hwrites, disconnectOutputs_connected]
    have hsize : (undo.length + 1 != block.vtx.length) = false := by simp [hlen]
    simp [disconnectBlock, hsize, hall]

theorem disconnectBlock_connected (hg : env.isGenesis = false) (hh : 1 ≤ env.nHeight)
    (hm : AllRestorable m) (h : onMap (connectBlock env block) m = .ok (undo, m')) :
    ∃ coinbase ∈ block.vtx, coinbase.isCoinBase ∧
      onMap (disconnectBlock env block undo) m' = .ok (.ok, write m (eraseWrites coinbase)) := by
  obtain ⟨coinbase, vtx, cbUndo, hvtx, hcb, hnot, htxs⟩ := connectBlock_ok hg h
  exact ⟨coinbase, by simp [hvtx], hcb, disconnectBlock_txs hh hm hvtx hcb hnot htxs⟩

/-- No output of the block overwrites an unspent coin.  Only a coinbase has to be asked this:
for other transactions `AddCoin` throws. -/
def NoOverwrite (m : CoinsMap) (block : CBlock) : Prop :=
  ∀ tx ∈ block.vtx, tx.isCoinBase → ∀ (n : Nat) (txOut : CTxOut),
    tx.vout[n]? = some txOut → isUnspendable txOut.scriptPubKey = false → m ⟨tx.hash, n⟩ = none

theorem NoOverwrite.erase {coinbase : CTransaction} (h : NoOverwrite m block)
    (hmem : coinbase ∈ block.vtx) (hcb : coinbase.isCoinBase) :
    write m (eraseWrites coinbase) = m := by
  apply write_eq_self
  intro w hw
  obtain ⟨hhash, -, txOut, hout, hu, hnone⟩ := mem_outputWrites hw
  rw [hnone, ← h coinbase hmem hcb w.1.n txOut hout hu, ← hhash]

theorem disconnectBlock_restores (hg : env.isGenesis = false) (hh : 1 ≤ env.nHeight)
    (hm : AllRestorable m) (hno : NoOverwrite m block)
    (h : onMap (connectBlock env block) m = .ok (undo, m')) :
    onMap (disconnectBlock env block undo) m' = .ok (.ok, m) := by
  obtain ⟨coinbase, hmem, hcb, hrun⟩ := disconnectBlock_connected hg hh hm h
  rw [hrun, hno.erase hmem hcb]

/-! ## Top theorem -/

/-- A UTXO set: `AddCoin` lets neither a spent coin nor an unspendable output into a view. -/
structure UtxoSet where
  coins : CoinsMap
  unspent : ∀ o coin, coins o = some coin → coin.isSpent = false
  spendable : ∀ o coin, coins o = some coin → isUnspendable coin.out.scriptPubKey = false

/-- **Disconnecting undoes connecting**: after any block that the transaction loop of `ConnectBlock`
accepts on a UTXO set, `DisconnectBlock` with the undo data written returns `DISCONNECT_OK` and
gives the set back. -/
theorem disconnectBlock_undoes_connectBlock (U : UtxoSet)
    (hpos : ∀ o coin, U.coins o = some coin → 0 < coin.nHeight) {env : ConnectEnv}
    (hh : 1 ≤ env.nHeight) {block : CBlock} {coinbase : CTransaction} {vtx : List CTransaction}
    (hvtx : block.vtx = coinbase :: vtx) (hcb : coinbase.isCoinBase)
    (hnot : ∀ tx ∈ vtx, tx.isCoinBase = false) (hno : NoOverwrite U.coins block)
    {totals : BlockTotals} {undo : List CTxUndo} {m : CoinsMap}
    (h : onMap (connectTxs env coinbase {} block.vtx) U.coins = .ok ((totals, undo), m)) :
    onMap (disconnectBlock env block undo.tail) m = .ok (.ok, U.coins) := by
  have hm : AllRestorable U.coins := fun o coin hc =>
    ⟨U.unspent o coin hc, U.spendable o coin hc, hpos o coin hc⟩
  have htxs := connectTxs_ok h
  rw [← hno.erase (by simp [hvtx]) hcb]
  cases undo with
  | nil =>
    rw [hvtx] at htxs
    cases htxs
  | cons cbUndo undo => exact disconnectBlock_txs hh hm hvtx hcb hnot htxs

def sampleUtxo : UtxoSet where
  coins := fun o => if o = ⟨7, 0⟩ then some ⟨⟨50, [op1]⟩, false, 3⟩ else none
  unspent := by
    intro o coin h
    split at h
    · cases h
      rfl
    · cases h
  spendable := by
    intro o coin h
    split at h
    · cases h
      rfl
    · cases h

def sampleConnectEnv (nHeight : Nat) : ConnectEnv where
  nHeight := nHeight
  blockHash := nHeight
  prevHash := nHeight - 1
  isGenesis := false
  nSubsidyHalvingInterval := 210000
  fEnforceBIP30 := true
  isBIP30Unspendable := false
  outputSizeLimit := true
  signetCoinbaseOutputSizes := none
  headerChecks := true
  legacySigOpCount := fun _ => 0
  sequenceLocks := fun _ _ => true
  sigOpCost := fun _ _ => 0
  inputScripts := fun _ _ => true

def sampleCoinbase : CTransaction where
  vin := [{ prevout := ⟨0, 0xffffffff⟩, scriptSig := [op1, op1] }]
  vout := [⟨60, [op1]⟩, ⟨0, [opReturn]⟩]
  hash := 100
  witnessHash := 100

/-- The second transaction spends the coin into two outputs, the third one the first of them;
two outputs are unspendable. -/
def sampleBlock : CBlock where
  vtx :=
    [sampleCoinbase,
     { vin := [{ prevout := ⟨7, 0⟩ }]
       vout := [⟨30, [op1]⟩, ⟨15, [op1]⟩, ⟨0, [opReturn]⟩], hash := 101, witnessHash := 101 },
     { vin := [{ prevout := ⟨101, 0⟩ }]
       vout := [⟨25, [op1]⟩], hash := 102, witnessHash := 102 }]

theorem disconnectBlock_undoes_connectBlock_sample :
    ∃ totals undo m, onMap (connectTxs (sampleConnectEnv 5) sampleCoinbase {} sampleBlock.vtx)
        sampleUtxo.coins = .ok ((totals, undo), m) ∧
      m ⟨7, 0⟩ = none ∧ m ⟨101, 0⟩ = none ∧ m ⟨102, 0⟩ = some ⟨⟨25, [op1]⟩, false, 5⟩ ∧
      onMap (disconnectBlock (sampleConnectEnv 5) sampleBlock undo.tail) m =
        .ok (.ok, sampleUtxo.coins) := by
  refine ⟨_, _, _, rfl, rfl, rfl, rfl, ?_⟩
  refine disconnectBlock_undoes_connectBlock sampleUtxo ?_ (by decide) rfl rfl (by decide) ?_ rfl
  · intro o coin h
    simp only [sampleUtxo] at h
    split at h
    · cases h
      decide
    · cases h
  · intro tx htx hcb n txOut _ _
    simp only [mem_cons, not_mem_nil, or_false] at htx
    rcases htx with rfl | rfl | rfl
    · rfl
    · cases hcb
    · cases hcb

end BitcoinPurity
