import BitcoinPurity.Index.Events

/-!
# The accounts of the coin statistics index

On a valid chain the totals of the index track events that lead to the UTXO set (`Accounted`).  What
the blocks were allowed to issue and did not is the unclaimed reward: it is never negative, so the
subtraction of `CustomAppend` does not wrap, and adding it evens the balance (`Balanced`).

`CoinStatsIndex.accounts`: the totals after every block of a valid chain.
-/

namespace BitcoinPurity

open CoinEvent Tally Tighten Words Writes List IndexEnv

/-! ## Valid blocks -/

/-- The totals track events that lead to the UTXO set, each of an amount in range. -/
structure Accounted (m : CoinsMap) (s : Totals) (evs : List CoinEvent) : Prop where
  tracks : TracksCoins s evs
  valued : Valued m
  utxo : ∀ w, total w m = sumOver (flow w) evs
  range : ∀ e ∈ evs, 0 ≤ e.nValue ∧ e.nValue ≤ maxMoney

namespace Accounted
variable {m m' : CoinsMap} {s : Totals} {evs : List CoinEvent}

theorem held_nonneg (h : Accounted m s evs) : 0 ≤ sumOver (flow coinValue) evs := by
  rw [← h.utxo]
  exact total_nonneg h.valued.finite fun o coin hc => h.valued.nonneg o coin hc

theorem sum_nonneg (h : Accounted m s evs) {f : CoinEvent → Int}
    (hf : ∀ e, f e = 0 ∨ f e = e.nValue) : 0 ≤ sumOver f evs := by
  refine sumOver_nonneg fun e he => ?_
  rcases hf e with hz | hz
  · exact Int.le_of_eq hz.symm
  · rw [hz]
    exact (h.range e he).1

theorem burnt_nonneg (h : Accounted m s evs) : 0 ≤ sumOver burnt evs :=
  h.sum_nonneg fun e => by cases e <;> simp [burnt, CoinEvent.nValue]

end Accounted

theorem outputEvents_range {tx : CTransaction} (hv : ValuesOk tx.vout) (height : Nat) :
    ∀ e ∈ outputEvents tx height tx.vout, 0 ≤ e.nValue ∧ e.nValue ≤ maxMoney := by
  intro e he
  obtain ⟨out, hout, rfl⟩ := mem_map.1 he
  have := hv.each out hout
  unfold outputEvent
  split <;> exact this

section
variable {F : Type} [CommGroupWithZero F] {env : IndexEnv F} {evs : List CoinEvent}
  {m m' : CoinsMap} {s : Members F} {height : Nat}

variable {tx : CTransaction} {pindex : BlockPtr}

/-- **A transaction** that is not a coinbase. -/
theorem addTx_accounted (env : IndexEnv F) {txUndo : CTxUndo} {undo : CBlockUndo} {i : Nat}
    (h : Accounted m s.toTotals evs) (hcon : TxConnected height m tx txUndo m')
    (hcb : tx.isCoinBase = false) (hv : ValuesOk tx.vout)
    (hundo : txUndoAt undo i = .ok txUndo) (hroom : sumOver issued evs ≤ 2 * maxMoney) :
    ∃ s', env.addTx height undo i tx s = .ok s' ∧
      Accounted m' s'.toTotals (evs ++ txEvents height tx txUndo) ∧
      SameRewards s.toTotals s'.toTotals := by
  have hmax := maxMoney_eq
  have htotal := hv.total
  have hvalued := (hcon.value_le h.valued hv).1
  have hcoins := hcon.undo_range hcb h.valued
  have houts : ∀ out ∈ tx.vout, 0 ≤ out.nValue := fun out hout => (hv.each out hout).1
  have hutxo : ∀ w, total w m' = sumOver (flow w) (evs ++ txEvents height tx txUndo) := by
    intro w
    rw [hcon.total_eq hcb h.valued.finite, h.utxo, sumOver_append]
  have hrange : ∀ e ∈ evs ++ txEvents height tx txUndo, 0 ≤ e.nValue ∧ e.nValue ≤ maxMoney := by
    intro e he
    rcases mem_append.1 he with he | he
    · exact h.range e he
    rcases mem_append.1 he with he | he
    · exact outputEvents_range hv height e he
    · obtain ⟨coin, hcoin, rfl⟩ := mem_map.1 he
      exact hcoins coin hcoin
  obtain ⟨s1, h1, htracks, hsame⟩ := @addOutputs_tracks F _ env evs tx height 0 tx.vout s
    h.tracks h.held_nonneg h.burnt_nonneg houts (by omega)
  -- the coins are still held, and with the outputs they fit
  have hheld : undoValue txUndo ≤
      sumOver (flow coinValue) (evs ++ outputEvents tx height tx.vout) := by
    have hpost : 0 ≤ total coinValue m' :=
      total_nonneg hvalued.finite fun o coin hc => hvalued.nonneg o coin hc
    rw [hutxo, txEvents, ← append_assoc, sumOver_append, sumOver_flow_spend] at hpost
    rw [undoValue]
    omega
  have hfits : sumOver (flow coinValue) (evs ++ outputEvents tx height tx.vout) < 2 ^ 63 := by
    have hissued := sumOver_issued (outputEvents tx height tx.vout)
    have hburnt : 0 ≤ sumOver burnt (outputEvents tx height tx.vout) := by
      refine sumOver_nonneg fun e he => ?_
      obtain ⟨out, hout, rfl⟩ := mem_map.1 he
      exact (outputEvent_nonneg (houts out hout) tx height).2
    have hbefore := sumOver_issued evs
    have hburnt' := h.burnt_nonneg
    rw [sumOver_issued_outputEvents] at hissued
    rw [sumOver_append]
    omega
  obtain ⟨s', h2, htracks', hsame'⟩ := spendPrevouts_tracks
    htracks (Nat.le_of_eq (hcon.spent hcb).2.length_eq.symm) (fun c hc => (hcoins c hc).1)
    hheld hfits
  rw [append_assoc] at htracks'
  refine ⟨s', ?_, ⟨htracks', hvalued, hutxo, hrange⟩, hsame.trans hsame'⟩
  refine bind_eq_ok.2 ⟨s1, h1, ?_⟩
  rw [hcb]
  exact bind_eq_ok.2 ⟨txUndo, hundo, h2⟩

def txsEvents (height : Nat) : List CTransaction → List CTxUndo → List CoinEvent
  | tx :: vtx, txUndo :: undo => txEvents height tx txUndo ++ txsEvents height vtx undo
  | _, _ => []

def feesOf : List CTransaction → List CTxUndo → Int
  | tx :: vtx, txUndo :: undo => undoValue txUndo - valueSum tx.vout + feesOf vtx undo
  | _, _ => 0

theorem sumOver_issued_txEvents (height : Nat) (tx : CTransaction) (txUndo : CTxUndo) :
    sumOver issued (txEvents height tx txUndo) = valueSum tx.vout - undoValue txUndo := by
  rw [txEvents, sumOver_append, sumOver_issued_outputEvents, sumOver_issued_spend]
  omega

theorem sumOver_issued_txsEvents (height : Nat) (vtx : List CTransaction) (undo : List CTxUndo) :
    sumOver issued (txsEvents height vtx undo) = -feesOf vtx undo := by
  induction vtx generalizing undo with
  | nil => rfl
  | cons tx vtx ih =>
    cases undo with
    | nil => rfl
    | cons txUndo undo =>
      rw [txsEvents, feesOf, sumOver_append, sumOver_issued_txEvents, ih]
      omega

/-- **The transactions after the coinbase**, with fees that are not negative. -/
theorem appendTxs_accounted {vtx : List CTransaction} {undo : List CTxUndo}
    {subsidy : Int} (before : CBlockUndo)
    (hcon : TxsConnected (nHeight pindex).toNat m vtx undo m') (h : Accounted m s.toTotals evs)
    (hcb : ∀ tx ∈ vtx, tx.isCoinBase = false) (hv : ∀ tx ∈ vtx, ValuesOk tx.vout)
    (hfees : List.Forall₂ (fun tx txUndo => valueSum tx.vout ≤ undoValue txUndo) vtx undo)
    (hroom : sumOver issued evs ≤ 2 * maxMoney) :
    ∃ s', env.appendTxs pindex (before ++ undo) subsidy (before.length + 1) vtx s = .ok s' ∧
      Accounted m' s'.toTotals (evs ++ txsEvents (nHeight pindex).toNat vtx undo) ∧
      SameRewards s.toTotals s'.toTotals := by
  induction hcon generalizing s evs before with
  | nil m => exact ⟨s, rfl, by simpa [txsEvents] using h, .refl _⟩
  | @cons m m1 m' tx vtx txUndo undo hcon hcons ih =>
    obtain ⟨hfee, hfees⟩ := forall₂_cons.1 hfees
    have hat : txUndoAt (before ++ txUndo :: undo) (before.length + 1) = .ok txUndo := by
      simp [txUndoAt]
    obtain ⟨s1, h1, hacc, hsame⟩ := addTx_accounted env h hcon (hcb tx (by simp))
      (hv tx (by simp)) hat hroom
    have hroom' : sumOver issued (evs ++ txEvents (nHeight pindex).toNat tx txUndo) ≤
        2 * maxMoney := by
      rw [sumOver_append, sumOver_issued_txEvents]
      omega
    obtain ⟨s', h2, hacc', hsame'⟩ := ih (before ++ [txUndo]) hacc
      (fun t ht => hcb t (mem_cons_of_mem tx ht))
      (fun t ht => hv t (mem_cons_of_mem tx ht)) hfees hroom'
    rw [append_assoc, length_append] at h2
    rw [append_assoc] at hacc'
    refine ⟨s', bind_eq_ok.2 ⟨s1, ?_, h2⟩, hacc', hsame.trans hsame'⟩
    rw [appendTx, hcb tx (by simp), Bool.and_false, if_neg Bool.false_ne_true]
    exact h1

section

variable (env : IndexEnv F) (b : BlockPtr) (coinbase : CTransaction)

/-- The coins after the coinbase, which is skipped where BIP30 makes it unspendable. -/
def afterCoinbase (m : CoinsMap) : CoinsMap :=
  if env.isBIP30Unspendable b then m else write m (addWrites coinbase (nHeight b).toNat)

def coinbaseEvents : List CoinEvent :=
  if env.isBIP30Unspendable b then [] else outputEvents coinbase (nHeight b).toNat coinbase.vout

end

/-- A block above genesis that is valid on the coins `m` and leaves `m'`. -/
structure ValidBlock (env : IndexEnv F) (b : BlockPtr) (coinbase : CTransaction)
    (vtx : List CTransaction) (undo : CBlockUndo) (m m' : CoinsMap) : Prop where
  readBlock : env.readBlock b = some ⟨coinbase :: vtx⟩
  readBlockUndo : env.readBlockUndo b = some undo
  first : coinbase.isCoinBase
  others : ∀ tx ∈ vtx, tx.isCoinBase = false
  size : blockSizeNoWitness ⟨coinbase :: vtx⟩ * witnessScaleFactor ≤ maxBlockWeight
  /-- The values are in `MoneyRange`. -/
  values : ∀ tx ∈ coinbase :: vtx, ValuesOk tx.vout
  /-- No output overwrites a coin (BIP30). -/
  fresh : env.isBIP30Unspendable b = false →
    ∀ x ∈ addWrites coinbase (nHeight b).toNat, m x.1 = none
  /-- The undo data are the coins spent. -/
  connected : TxsConnected (nHeight b).toNat (afterCoinbase env b coinbase m) vtx undo m'
  fees : List.Forall₂ (fun tx txUndo => valueSum tx.vout ≤ undoValue txUndo) vtx undo
  /-- The coinbase claims at most subsidy plus fees. -/
  claimed : valueSum coinbase.vout ≤ env.blockSubsidy b + feesOf vtx undo

/-- The rewards after the coinbase: a skipped one counts as unspendable. -/
structure CoinbaseRewards (env : IndexEnv F) (b : BlockPtr) (s s' : Totals) : Prop where
  subsidy : s'.totalSubsidy = s.totalSubsidy
  genesis : s'.totalUnspendablesGenesisBlock = s.totalUnspendablesGenesisBlock
  bip30 : s'.totalUnspendablesBip30 =
    s.totalUnspendablesBip30 + if env.isBIP30Unspendable b then env.blockSubsidy b else 0
  unclaimed : s'.totalUnspendablesUnclaimedRewards = s.totalUnspendablesUnclaimedRewards

/-- **The coinbase.** -/
theorem appendCoinbase_accounted (env : IndexEnv F) {b : BlockPtr} {coinbase : CTransaction}
    {undo : CBlockUndo} (h : Accounted m s.toTotals evs) (hcb : coinbase.isCoinBase)
    (hv : ValuesOk coinbase.vout) (hfresh : env.isBIP30Unspendable b = false →
      ∀ x ∈ addWrites coinbase (nHeight b).toNat, m x.1 = none)
    (hbip30 : 0 ≤ s.totalUnspendablesBip30 ∧ s.totalUnspendablesBip30 ≤ maxMoney)
    (hroom : sumOver issued evs ≤ maxMoney) :
    ∃ s', env.appendTx b undo (env.blockSubsidy b) 0 coinbase s = .ok s' ∧
      Accounted (afterCoinbase env b coinbase m) s'.toTotals
        (evs ++ coinbaseEvents env b coinbase) ∧ CoinbaseRewards env b s.toTotals s'.toTotals := by
  have hmax := maxMoney_eq
  have hsubsidy := getBlockSubsidy_range (nHeight b).toNat env.nSubsidyHalvingInterval
  have htotal := hv.total
  cases hskip : env.isBIP30Unspendable b with
  | true =>
    have hsum : toAmount (s.totalUnspendablesBip30 + env.blockSubsidy b) =
        .ok (s.totalUnspendablesBip30 + env.blockSubsidy b) := by
      unfold blockSubsidy
      exact toAmount_of_range (by omega) (by omega)
    refine ⟨{ s with totalUnspendablesBip30 := s.totalUnspendablesBip30 + env.blockSubsidy b },
      ?_, ?_, ⟨rfl, rfl, by rw [hskip, if_pos rfl], rfl⟩⟩
    · rw [appendTx, hskip, hcb, Bool.and_self]
      exact bind_eq_ok.2 ⟨_, hsum, rfl⟩
    · rw [afterCoinbase, coinbaseEvents, hskip, if_pos rfl, if_pos rfl, append_nil]
      exact ⟨h.tracks.of_rewards _ _ _ _, h.valued, h.utxo, h.range⟩
  | false =>
    obtain ⟨s', hadd, htracks, hsame⟩ :=
      @addOutputs_tracks F _ env evs coinbase (nHeight b).toNat 0 coinbase.vout s h.tracks
        h.held_nonneg h.burnt_nonneg (fun out hout => (hv.each out hout).1) (by omega)
    refine ⟨s', ?_, ?_, ⟨hsame.subsidy, hsame.genesis, ?_, hsame.unclaimed⟩⟩
    · rw [appendTx, hskip, Bool.false_and]
      exact bind_eq_ok.2 ⟨s', hadd, by rw [hcb, if_pos rfl]⟩
    · rw [afterCoinbase, coinbaseEvents, hskip, if_neg Bool.false_ne_true,
        if_neg Bool.false_ne_true]
      refine ⟨htracks, h.valued.of_writes (addWrites_range hv), fun w => ?_, fun e he => ?_⟩
      · rw [total_addWrites h.valued.finite (hfresh hskip), h.utxo, sumOver_append]
      · rcases mem_append.1 he with he | he
        · exact h.range e he
        · exact outputEvents_range hv _ e he
    · rw [hsame.bip30, hskip, if_neg Bool.false_ne_true, Int.add_zero]

end

/-! ## The unclaimed reward -/

/-- The amounts of the balance. -/
structure Amounts (s : Totals) (evs : List CoinEvent) : Prop where
  genesis : 0 ≤ s.totalUnspendablesGenesisBlock
  bip30 : 0 ≤ s.totalUnspendablesBip30
  unclaimed : 0 ≤ s.totalUnspendablesUnclaimedRewards
  limit : s.totalSubsidy ≤ maxMoney
  /-- The counts are far from the limits of their words. -/
  cost : sumOver cost evs < 2 ^ 60
  /-- No more was issued than the subsidies allow. -/
  issued : sumOver issued evs + s.totalUnspendablesGenesisBlock + s.totalUnspendablesBip30 +
    s.totalUnspendablesUnclaimedRewards ≤ s.totalSubsidy

/-- `total_unspendable` as an integer. -/
def unspendableSum (s : Totals) : Int :=
  s.totalUnspendablesGenesisBlock + s.totalUnspendablesBip30 + s.totalUnspendablesScripts +
    s.totalUnspendablesUnclaimedRewards

section
variable {m : CoinsMap} {s : Totals} {evs : List CoinEvent}

theorem cost_nonneg (e : CoinEvent) : 0 ≤ cost e := by
  cases e <;> simp [cost]

section

variable (h : Accounted m s evs)
include h

theorem Accounted.sums : maxMoney = 2100000000000000 ∧ 0 ≤ sumOver (flow coinValue) evs ∧
    0 ≤ sumOver burnt evs ∧ s.totalUnspendablesScripts = sumOver burnt evs ∧
    sumOver issued evs = sumOver (flow coinValue) evs + sumOver burnt evs ∧
    sumOver (flow coinValue) evs =
      sumOver newOutputs evs + sumOver coinbase evs - sumOver spent evs :=
  ⟨maxMoney_eq, h.held_nonneg, h.burnt_nonneg, h.tracks.scripts, sumOver_issued evs,
    sumOver_held evs⟩

theorem Accounted.spent_le : sumOver spent evs ≤ maxMoney * sumOver cost evs := by
  have hmul : sumOver (fun e => maxMoney * cost e) evs = maxMoney * sumOver cost evs := by
    simp [sumOver, ← sum_map_mul_left]
  rw [← hmul]
  refine sumOver_le fun e he => ?_
  cases e with
  | spend coin => simpa [spent, cost, CoinEvent.nValue] using (h.range _ he).2
  | create coin => exact Int.mul_nonneg (by decide) (cost_nonneg _)
  | burn nValue => exact Int.mul_nonneg (by decide) (cost_nonneg _)

theorem Accounted.total_le {w : Coin → Int}
    (hw : ∀ coin, 0 ≤ w coin ∧ w coin ≤ coinBogoSize coin) :
    0 ≤ total w m ∧ total w m ≤ sumOver cost evs := by
  refine ⟨total_nonneg h.valued.finite fun _ coin _ => (hw coin).1, ?_⟩
  rw [h.utxo]
  refine sumOver_le fun e _ => ?_
  cases e with
  | create coin => exact (hw coin).2
  | burn nValue => exact Int.le_refl 0
  | spend coin =>
    have := (hw coin).1
    simp only [flow, cost]
    omega

theorem Accounted.flows_nonneg :
    0 ≤ sumOver spent evs ∧ 0 ≤ sumOver newOutputs evs ∧ 0 ≤ sumOver coinbase evs := by
  refine ⟨h.sum_nonneg fun e => ?_, h.sum_nonneg fun e => ?_, h.sum_nonneg fun e => ?_⟩
  · cases e <;> simp [spent, CoinEvent.nValue]
  · cases e with
    | create coin => cases hcb : coin.fCoinBase <;> simp [newOutputs, CoinEvent.nValue, hcb]
    | burn nValue => exact .inl rfl
    | spend coin => exact .inl rfl
  · cases e with
    | create coin => cases hcb : coin.fCoinBase <;> simp [coinbase, CoinEvent.nValue, hcb]
    | burn nValue => exact .inl rfl
    | spend coin => exact .inl rfl

theorem Accounted.wide_eq (ha : Amounts s evs) :
    (s.totalPrevoutSpentAmount : Int) = sumOver spent evs ∧
      (s.totalNewOutputsExCoinbaseAmount : Int) = sumOver newOutputs evs ∧
      (s.totalCoinbaseAmount : Int) = sumOver coinbase evs ∧ sumOver spent evs < 2 ^ 128 := by
  obtain ⟨h1, h2, h3⟩ := h.flows_nonneg
  have hle := h.spent_le
  obtain ⟨hg, hb, hu, hlimit, hcost, hissued⟩ := ha
  have hspent : sumOver spent evs < 2 ^ 128 := by
    rw [maxMoney_eq] at hle
    omega
  have hsums := h.sums
  rw [h.tracks.spent, h.tracks.newOutputs, h.tracks.coinbase]
  exact ⟨word_eq h1 (by omega), word_eq h2 (by omega), word_eq h3 (by omega), hspent⟩

theorem Accounted.totalUnspendable_eq (ha : Amounts s evs) :
    s.totalUnspendable = .ok (unspendableSum s) := by
  obtain ⟨h1, h2, h3, h4, -, h5⟩ := ha
  have hsums := h.sums
  simp only [Totals.totalUnspendable, bind_eq_ok, toAmount_eq_ok]
  exact ⟨_, ⟨⟨by omega, by omega⟩, rfl⟩, _, ⟨⟨by omega, by omega⟩, rfl⟩, ⟨by omega, by omega⟩, rfl⟩

/-- **The subtraction** of `CustomAppend`: no operand is reduced, and what was not issued is the
difference. -/
theorem Accounted.claimable_eq (ha : Amounts s evs) :
    (s.claimable : Int) = sumOver spent evs + s.totalSubsidy ∧
      (s.accounted (unspendableSum s) : Int) =
        sumOver newOutputs evs + sumOver coinbase evs + unspendableSum s ∧
      sumOver newOutputs evs + sumOver coinbase evs + unspendableSum s ≤
        sumOver spent evs + s.totalSubsidy ∧
      sumOver spent evs + s.totalSubsidy -
        (sumOver newOutputs evs + sumOver coinbase evs + unspendableSum s) ≤ maxMoney := by
  obtain ⟨hwide1, hwide2, hwide3, hspent⟩ := h.wide_eq ha
  obtain ⟨hg, hb, hu, hlimit, -, hissued⟩ := ha
  have hsums := h.sums
  have hsum : unspendableSum s = s.totalUnspendablesGenesisBlock + s.totalUnspendablesBip30 +
    s.totalUnspendablesScripts + s.totalUnspendablesUnclaimedRewards := rfl
  have hsub64 : (word 64 s.totalSubsidy) = s.totalSubsidy :=
    word_eq (by omega) (by omega)
  have hsum64 : (word 64 (unspendableSum s)) = unspendableSum s :=
    word_eq (by omega) (by omega)
  refine ⟨?_, ?_, by omega, by omega⟩
  · rw [Totals.claimable, hwide1, hsub64]
    exact word_eq (by omega) (by omega)
  · rw [Totals.accounted, word_add, hwide2, hwide3, hsum64]
    exact word_eq (by omega) (by omega)

end

theorem addUnclaimed_eq {F : Type} {s : Members F} (h : Accounted m s.toTotals evs)
    (ha : Amounts s.toTotals evs) :
    ∃ s', addUnclaimed s = .ok s' ∧ Accounted m s'.toTotals evs ∧ s'.totalSubsidy = s.totalSubsidy ∧
      s'.totalUnspendablesGenesisBlock = s.totalUnspendablesGenesisBlock ∧
      s'.totalUnspendablesBip30 = s.totalUnspendablesBip30 ∧
      s.totalUnspendablesUnclaimedRewards ≤ s'.totalUnspendablesUnclaimedRewards ∧
      s'.totalSubsidy = sumOver issued evs + s'.totalUnspendablesGenesisBlock +
        s'.totalUnspendablesBip30 + s'.totalUnspendablesUnclaimedRewards := by
  obtain ⟨hclaim, hacc, hle, hrange⟩ := h.claimable_eq ha
  have ⟨hg, hb, hu, hlimit, _, _⟩ := ha
  have hsums := h.sums
  have hsum : unspendableSum s.toTotals = s.totalUnspendablesGenesisBlock +
    s.totalUnspendablesBip30 + s.totalUnspendablesScripts +
    s.totalUnspendablesUnclaimedRewards := rfl
  -- the difference, before and after it is narrowed
  obtain ⟨missing, hmissing⟩ : ∃ missing, missing = sumOver spent evs + s.totalSubsidy -
    (sumOver newOutputs evs + sumOver coinbase evs + unspendableSum s.toTotals) := ⟨_, rfl⟩
  have hword : (word 256 (s.claimable - s.accounted (unspendableSum s.toTotals)) : Int) =
      missing := by
    rw [hclaim, hacc, ← hmissing]
    exact word_eq (by omega) (by omega)
  have hlow : (word 64 (word 256 (s.claimable - s.accounted (unspendableSum s.toTotals))) : Int) =
      missing := by
    rw [hword]
    exact word_eq (by omega) (by omega)
  have hissued : sumOver issued evs + s.totalUnspendablesGenesisBlock +
      s.totalUnspendablesBip30 + (s.totalUnspendablesUnclaimedRewards + missing) =
        s.totalSubsidy := by omega
  refine ⟨{ s with totalUnspendablesUnclaimedRewards :=
      s.totalUnspendablesUnclaimedRewards + missing }, ?_, ?_, rfl, rfl, rfl, ?_, ?_⟩
  · refine bind_eq_ok.2 ⟨_, h.totalUnspendable_eq ha, bind_eq_ok.2 ⟨(), ?_, ?_⟩⟩
    · rw [failIf_eq_ok, decide_eq_false_iff_not]
      omega
    · refine bind_eq_ok.2 ⟨s.totalUnspendablesUnclaimedRewards + missing, ?_, rfl⟩
      rw [hlow]
      exact toAmount_of_range (by omega) (by omega)
  · exact ⟨h.tracks.of_rewards _ _ _ _, h.valued, h.utxo, h.range⟩
  · grind
  · exact hissued.symm

end

/-! ## Sizes -/

theorem getSizeOfCompactSize_pos (n : Nat) : 1 ≤ getSizeOfCompactSize n := by
  unfold getSizeOfCompactSize
  split
  · omega
  split
  · omega
  · split <;> omega

theorem cost_outputEvents_le (tx : CTransaction) (height : Nat) (vout : List CTxOut) :
    sumOver cost (outputEvents tx height vout) ≤
      6 * ((vout.map fun txOut => 8 + scriptSize txOut.scriptPubKey).sum : Nat) := by
  induction vout with
  | nil => simp [outputEvents]
  | cons out vout ih =>
    have hpos := getSizeOfCompactSize_pos out.scriptPubKey.length
    have hout : cost (outputEvent tx height out) ≤
        6 * ((8 + scriptSize out.scriptPubKey) : Int) := by
      unfold outputEvent scriptSize
      split
      · simp only [cost]
        omega
      · simp only [cost, newCoin, getBogoSize]
        omega
    rw [outputEvents, map_cons, sumOver_cons, ← outputEvents, map_cons, sum_cons]
    omega

theorem cost_txEvents_le {tx : CTransaction} {txUndo : CTxUndo}
    (hlen : txUndo.length ≤ tx.vin.length) (height : Nat) :
    sumOver cost (txEvents height tx txUndo) ≤ 6 * (serializeSizeNoWitness tx : Int) := by
  have hout := cost_outputEvents_le tx height tx.vout
  have hspends : sumOver cost (txUndo.map .spend) = txUndo.length := by
    simp [sumOver, cost, Function.comp_def]
  have hin : tx.vin.length ≤ (tx.vin.map fun txin => 36 + scriptSize txin.scriptSig + 4).sum := by
    induction tx.vin with
    | nil => simp
    | cons txin vin ih =>
      rw [map_cons, sum_cons, length_cons]
      omega
  rw [txEvents, sumOver_append, serializeSizeNoWitness]
  omega

theorem cost_txsEvents_le {height : Nat} {m m' : CoinsMap} {vtx : List CTransaction}
    {undo : List CTxUndo} (h : TxsConnected height m vtx undo m')
    (hcb : ∀ tx ∈ vtx, tx.isCoinBase = false) :
    sumOver cost (txsEvents height vtx undo) ≤
      6 * ((vtx.map serializeSizeNoWitness).sum : Nat) := by
  induction h with
  | nil m => simp [txsEvents]
  | @cons m m1 m' tx vtx txUndo undo hcon _ ih =>
    have htx := cost_txEvents_le
      (Nat.le_of_eq (hcon.spent (hcb tx (by simp))).2.length_eq.symm) height
    have hrest := ih fun t ht => hcb t (mem_cons_of_mem tx ht)
    rw [txsEvents, sumOver_append, map_cons, sum_cons]
    omega

section
variable {F : Type} [CommGroupWithZero F] {env : IndexEnv F} {m m' : CoinsMap}

def blockEvents (env : IndexEnv F) (b : BlockPtr) (coinbase : CTransaction)
    (vtx : List CTransaction) (undo : CBlockUndo) : List CoinEvent :=
  coinbaseEvents env b coinbase ++ txsEvents (nHeight b).toNat vtx undo

variable {b : BlockPtr} {coinbase : CTransaction} {undo : CBlockUndo} {vtx : List CTransaction}
  {evs : List CoinEvent}

theorem ValidBlock.cost_le (h : ValidBlock env b coinbase vtx undo m m') :
    sumOver cost (blockEvents env b coinbase vtx undo) ≤ 6000000 := by
  have hcb : sumOver cost (coinbaseEvents env b coinbase) ≤
      6 * (serializeSizeNoWitness coinbase) := by
    unfold coinbaseEvents
    split
    · simp
    have := cost_outputEvents_le coinbase (nHeight b).toNat coinbase.vout
    rw [serializeSizeNoWitness]
    omega
  have htxs := cost_txsEvents_le h.connected h.others
  have hsize := h.size
  rw [blockSizeNoWitness, map_cons, sum_cons] at hsize
  simp only [witnessScaleFactor, maxBlockWeight] at hsize
  rw [blockEvents, sumOver_append]
  omega

theorem ValidBlock.issued_le (h : ValidBlock env b coinbase vtx undo m m') :
    sumOver issued (blockEvents env b coinbase vtx undo) +
      (if env.isBIP30Unspendable b then env.blockSubsidy b else 0) ≤ env.blockSubsidy b := by
  have hfees : 0 ≤ feesOf vtx undo := by
    have hall := h.fees
    clear h
    induction hall with
    | nil => exact Int.le_refl 0
    | cons hfee _ ih =>
      rw [feesOf]
      omega
  have hclaimed := h.claimed
  rw [blockEvents, sumOver_append, sumOver_issued_txsEvents, coinbaseEvents]
  split
  · rw [sumOver_nil]
    omega
  · rw [sumOver_issued_outputEvents]
    omega

/-- The accounts after the blocks of a chain. -/
structure Balanced (env : IndexEnv F) (tip : BlockPtr) (m : CoinsMap) (s : Totals)
    (evs : List CoinEvent) : Prop where
  accounted : Accounted m s evs
  subsidy : s.totalSubsidy =
    ∑ i ∈ Finset.range tip.length, getBlockSubsidy i env.nSubsidyHalvingInterval
  genesis : 0 ≤ s.totalUnspendablesGenesisBlock
  bip30 : 0 ≤ s.totalUnspendablesBip30
  unclaimed : 0 ≤ s.totalUnspendablesUnclaimedRewards
  cost : sumOver cost evs ≤ 6000000 * tip.length
  balance : s.totalSubsidy = sumOver issued evs + s.totalUnspendablesGenesisBlock +
    s.totalUnspendablesBip30 + s.totalUnspendablesUnclaimedRewards

/-- The subtraction in `CustomAppend` of a block does not wrap, and its result passes the
assertion. -/
def SubtractionFits (env : IndexEnv F) (pindex : BlockPtr) (block : CBlock) (s : Members F) :
    Prop :=
  ∃ s₁ totalUnspendable, env.appendTransactions pindex block s = .ok s₁ ∧
    s₁.totalUnspendable = .ok totalUnspendable ∧
    s₁.accounted totalUnspendable ≤ s₁.claimable ∧
    s₁.claimable - s₁.accounted totalUnspendable ≤ 2 ^ 63 - 1

theorem subsidies_le (env : IndexEnv F) (n : Nat) :
    ∑ i ∈ Finset.range n, getBlockSubsidy i env.nSubsidyHalvingInterval ≤ maxMoney := by
  rcases env.interval_eq with h | h
  · rw [h]
    exact sum_getBlockSubsidy_range_le (by decide) (by decide) n
  · rw [h]
    exact sum_getBlockSubsidy_range_le (by decide) (by decide) n

theorem Balanced.amounts {tip : BlockPtr} {s : Totals} (h : Balanced env tip m s evs)
    (hlen : tip.length ≤ 2 ^ 31) : Amounts s evs :=
  { h with
    limit := h.subsidy ▸ subsidies_le env tip.length
    cost := by
      have := h.cost
      omega
    issued := Int.le_of_eq h.balance.symm }

theorem appendBlock_balanced {block : CBlock} {s s1 : Members F}
    (htxs : env.appendTransactions b block s = .ok s1) (h : Accounted m s1.toTotals evs)
    (ha : Amounts s1.toTotals evs) (hsubsidy : s1.totalSubsidy =
      ∑ i ∈ Finset.range b.length, getBlockSubsidy i env.nSubsidyHalvingInterval)
    (hcost : sumOver cost evs ≤ 6000000 * b.length) :
    SubtractionFits env b block s ∧ ∃ s' value,
      env.appendBlock b block s = .ok (s', value) ∧ Balanced env b m s'.toTotals evs := by
  constructor
  · obtain ⟨hclaim, hacc, hle, hrange⟩ := h.claimable_eq ha
    have hmax := maxMoney_eq
    exact ⟨s1, _, htxs, h.totalUnspendable_eq ha, by omega, by omega⟩
  · obtain ⟨s2, hunclaimed, h2, hsub, hgen, hbip, hle, hbalance⟩ := addUnclaimed_eq h ha
    refine ⟨{ s2 with muhash := (env.finalize s2.muhash).1 }, _,
      bind_eq_ok.2 ⟨s1, htxs, bind_eq_ok.2 ⟨s2, hunclaimed, rfl⟩⟩, ?_⟩
    exact {
      accounted := h2
      subsidy := hsub.trans hsubsidy
      genesis := hgen ▸ ha.genesis
      bip30 := hbip ▸ ha.bip30
      unclaimed := ha.unclaimed.trans hle
      cost := hcost
      balance := hbalance }

theorem genesis_balanced (env : IndexEnv F) (g : CBlockHeader) (block : CBlock) :
    SubtractionFits env [g] block CoinStatsIndex.start.members ∧ ∃ s' value,
      env.appendBlock [g] block CoinStatsIndex.start.members = .ok (s', value) ∧
      Balanced env [g] (fun _ => none) s'.toTotals [] := by
  have hrange := getBlockSubsidy_range 0 env.nSubsidyHalvingInterval
  have hamount : toAmount (0 + env.blockSubsidy [g]) = .ok (0 + env.blockSubsidy [g]) :=
    toAmount_of_range (by rw [zero_add]; exact hrange.1)
      (by rw [zero_add]; exact Int.lt_of_le_of_lt hrange.2 (by decide))
  have htxs : env.appendTransactions [g] block CoinStatsIndex.start.members =
      .ok { CoinStatsIndex.start.members with
        totalSubsidy := 0 + env.blockSubsidy [g]
        totalUnspendablesGenesisBlock := 0 + env.blockSubsidy [g] } := by
    refine bind_eq_ok.2 ⟨_, hamount, ?_⟩
    exact (if_neg (by simp [nHeight])).trans (bind_eq_ok.2 ⟨_, hamount, rfl⟩)
  have hempty : TracksCoins {} [] := ⟨rfl, rfl, rfl, rfl, rfl, rfl, rfl⟩
  refine appendBlock_balanced htxs
    ⟨hempty.of_rewards _ _ _ _, .none, fun w => by simp, by simp⟩ ?_ ?_ (by simp)
  · refine ⟨?_, Int.le_refl 0, Int.le_refl 0, ?_, by simp, ?_⟩
    · rw [zero_add]
      exact hrange.1
    · rw [zero_add]
      exact hrange.2
    · show sumOver issued [] + (0 + env.blockSubsidy [g]) + 0 + 0 ≤ 0 + env.blockSubsidy [g]
      rw [sumOver_nil]
      omega
  · rw [zero_add, length_singleton, Finset.sum_range_one]
    rfl

theorem ValidBlock.appendTransactions {s : Members F}
    (hvalid : ValidBlock env b coinbase vtx undo m m') (hpos : nHeight b > 0)
    (h : Accounted m s.toTotals evs) (hissued : sumOver issued evs ≤ maxMoney)
    (hbip30 : 0 ≤ s.totalUnspendablesBip30 ∧ s.totalUnspendablesBip30 ≤ maxMoney)
    (hsubsidy : 0 ≤ s.totalSubsidy ∧ s.totalSubsidy + env.blockSubsidy b ≤ maxMoney) :
    ∃ s1, env.appendTransactions b ⟨coinbase :: vtx⟩ s = .ok s1 ∧
      Accounted m' s1.toTotals (evs ++ blockEvents env b coinbase vtx undo) ∧
      CoinbaseRewards env b
        { s.toTotals with totalSubsidy := s.totalSubsidy + env.blockSubsidy b } s1.toTotals := by
  have hmax := maxMoney_eq
  have hnonneg : 0 ≤ env.blockSubsidy b := (getBlockSubsidy_range _ _).1
  have hamount : toAmount (s.totalSubsidy + env.blockSubsidy b) =
      .ok (s.totalSubsidy + env.blockSubsidy b) := toAmount_of_range (by omega) (by omega)
  have h0 : Accounted m { s.toTotals with
      totalSubsidy := s.totalSubsidy + env.blockSubsidy b } evs :=
    ⟨h.tracks.of_rewards _ _ _ _, h.valued, h.utxo, h.range⟩
  have hv := hvalid.values
  obtain ⟨s1, hfirst, hacc, hrewards⟩ := @appendCoinbase_accounted F _ evs m
    { s with totalSubsidy := s.totalSubsidy + env.blockSubsidy b } env b coinbase undo h0
    hvalid.first (hv coinbase (by simp)) hvalid.fresh hbip30 hissued
  have hroom : sumOver issued (evs ++ coinbaseEvents env b coinbase) ≤ 2 * maxMoney := by
    have htotal := (hv coinbase (by simp)).total
    rw [sumOver_append, coinbaseEvents]
    split
    · rw [sumOver_nil]
      omega
    · rw [sumOver_issued_outputEvents]
      omega
  obtain ⟨s2, hrest, hacc', hsame⟩ := @appendTxs_accounted F _ env _ _ m' s1 b vtx undo
    (env.blockSubsidy b) [] hvalid.connected hacc hvalid.others
    (fun tx ht => hv tx (mem_cons_of_mem coinbase ht)) hvalid.fees hroom
  rw [append_assoc] at hacc'
  refine ⟨s2, bind_eq_ok.2 ⟨_, hamount, ?_⟩, hacc', ?_⟩
  · refine (if_pos hpos).trans ?_
    rw [hvalid.readBlockUndo]
    exact bind_eq_ok.2 ⟨s1, hfirst, hrest⟩
  · exact ⟨hsame.subsidy.trans hrewards.subsidy, hsame.genesis.trans hrewards.genesis,
      hsame.bip30.trans hrewards.bip30, hsame.unclaimed.trans hrewards.unclaimed⟩

/-- **One more block.** -/
theorem Balanced.block {x : CBlockHeader} {s : Members F} (h : Balanced env b m s.toTotals evs)
    (hb : b ≠ []) (hfits : nHeight (x :: b) < 2 ^ 31)
    (hvalid : ValidBlock env (x :: b) coinbase vtx undo m m') :
    SubtractionFits env (x :: b) ⟨coinbase :: vtx⟩ s ∧ ∃ s' value evs',
      env.appendBlock (x :: b) ⟨coinbase :: vtx⟩ s = .ok (s', value) ∧
      Balanced env (x :: b) m' s'.toTotals evs' := by
  have hlen : nHeight (x :: b) = b.length := by simp [nHeight]
  have hpos : nHeight (x :: b) > 0 := by
    have := length_pos_iff.2 hb
    omega
  have hsum : s.totalSubsidy + env.blockSubsidy (x :: b) =
      ∑ i ∈ Finset.range (x :: b).length, getBlockSubsidy i env.nSubsidyHalvingInterval := by
    rw [h.subsidy, length_cons, Finset.sum_range_succ, blockSubsidy, hlen, Int.toNat_natCast]
  have hlimit := subsidies_le env (x :: b).length
  rw [← hsum] at hlimit
  have hnonneg : 0 ≤ env.blockSubsidy (x :: b) := (getBlockSubsidy_range _ _).1
  have hsums := h.accounted.sums
  obtain ⟨hacc, -, hg, hbip, hu, hcost, hbalance⟩ := h
  obtain ⟨s1, htxs, hacc', hsub', hg', hbip', hu'⟩ := hvalid.appendTransactions hpos hacc
    (by omega) ⟨hbip, by omega⟩ ⟨by omega, hlimit⟩
  simp only at hsub' hg' hbip' hu'
  have hcost' : sumOver CoinEvent.cost (evs ++ blockEvents env (x :: b) coinbase vtx undo) ≤
      6000000 * (x :: b).length := by
    have := hvalid.cost_le
    rw [sumOver_append, length_cons]
    omega
  have hissued := hvalid.issued_le
  obtain ⟨hfit, s', value, happ, hbal⟩ := appendBlock_balanced htxs hacc'
    ⟨by omega, by omega, by omega, by omega, by rw [length_cons] at hcost'; omega,
      by rw [sumOver_append]; omega⟩ (hsub'.trans hsum) hcost'
  exact ⟨hfit, s', value, _, happ, hbal⟩

/-- A valid chain from genesis and the coins that it leaves, without the coinbases that BIP30 makes
unspendable.  Heights are of type `int`. -/
inductive ValidChain (env : IndexEnv F) : BlockPtr → CoinsMap → Prop
  | genesis {g : CBlockHeader} {block : CBlock} (hblock : env.readBlock [g] = some block) :
      ValidChain env [g] fun _ => none
  | block {x : CBlockHeader} {b : BlockPtr} {coinbase : CTransaction} {vtx : List CTransaction}
      {undo : CBlockUndo} {m m' : CoinsMap} (h : ValidChain env b m)
      (hfits : nHeight (x :: b) < 2 ^ 31)
      (hvalid : ValidBlock env (x :: b) coinbase vtx undo m m') : ValidChain env (x :: b) m'

theorem ValidChain.balanced {tip : BlockPtr} (h : ValidChain env tip m) :
    tip ≠ [] ∧ tip.length ≤ 2 ^ 31 ∧ ∃ d0 block d evs,
      env.appendChain tip.tail = .ok d0 ∧ env.readBlock tip = some block ∧
      SubtractionFits env tip block d0.members ∧ env.appendChain tip = .ok d ∧
      Balanced env tip m d.members.toTotals evs := by
  induction h with
  | @genesis g block hblock =>
    obtain ⟨hfit, s', value, happ, hbal⟩ := genesis_balanced env g block
    obtain ⟨d, hd, rfl⟩ := append_of_appendBlock hblock (fun _ => rfl) happ
    exact ⟨by simp, by simp, _, block, d, [], rfl, hblock, hfit, bind_eq_ok.2 ⟨_, rfl, hd⟩, hbal⟩
  | @block x b coinbase vtx undo m m' _ hfits hvalid ih =>
    obtain ⟨hne, -, _, _, d0, evs, -, -, -, hd0, hbal⟩ := ih
    obtain ⟨hfit, s', value, evs', happ, hbal'⟩ := hbal.block hne hfits hvalid
    have hlen : (x :: b).length ≤ 2 ^ 31 := by
      unfold nHeight at hfits
      omega
    obtain ⟨d, hd, rfl⟩ := append_of_appendBlock hvalid.readBlock
      (fun _ => appendChain_current hd0) happ
    exact ⟨by simp, hlen, d0, _, d, evs', hd0, hvalid.readBlock, hfit,
      bind_eq_ok.2 ⟨d0, hd0, hd⟩, hbal'⟩

/-- **The accounts**: on every valid chain the appends succeed, the subtraction in the last one does
not wrap, the three statistics of the UTXO set are its sums, and the balance is even. -/
theorem CoinStatsIndex.accounts {tip : BlockPtr} (h : ValidChain env tip m) :
    ∃ d₀ block d, env.appendChain tip.tail = .ok d₀ ∧ env.readBlock tip = some block ∧
      SubtractionFits env tip block d₀.members ∧ env.appendChain tip = .ok d ∧
      d.members.totalAmount = utxoValue m ∧
      (d.members.transactionOutputCount : Int) = utxoCount m ∧
      (d.members.bogoSize : Int) = utxoBogoSize m ∧
      d.members.totalSubsidy + d.members.totalPrevoutSpentAmount =
        d.members.totalNewOutputsExCoinbaseAmount + d.members.totalCoinbaseAmount +
          (d.members.totalUnspendablesGenesisBlock + d.members.totalUnspendablesBip30 +
            d.members.totalUnspendablesScripts + d.members.totalUnspendablesUnclaimedRewards) := by
  obtain ⟨-, hlen, d₀, block, d, evs, hd₀, hblock, hfit, hd, hbal⟩ := h.balanced
  have hacc := hbal.accounted
  have hamounts := hbal.amounts hlen
  have hcost := hamounts.cost
  obtain ⟨hspent, hnew, hcoinbase, -⟩ := hacc.wide_eq hamounts
  have hcount := hacc.total_le (w := fun _ => 1) fun coin => by
    simp only [coinBogoSize, getBogoSize]
    omega
  have hbogo := hacc.total_le (w := coinBogoSize) fun coin => by
    simp [coinBogoSize]
  refine ⟨d₀, block, d, hd₀, hblock, hfit, hd, ?_, ?_, ?_, ?_⟩
  · rw [hacc.tracks.amount, ← hacc.utxo]
    rfl
  · rw [hacc.tracks.count, ← hacc.utxo]
    exact word_eq hcount.1 (by omega)
  · rw [hacc.tracks.bogo, ← hacc.utxo]
    exact word_eq hbogo.1 (by omega)
  · have hbalance := hbal.balance
    rw [sumOver_issued, sumOver_held] at hbalance
    rw [hnew, hacc.tracks.scripts]
    omega

end

def indexCoins : CoinsMap :=
  afterCoinbase sampleIndexEnv (indexChain [1, 0]) (indexCoinbase 1) fun _ => none

theorem indexCoinbase_values (nonce : Nat) : ValuesOk (indexCoinbase nonce).vout := by
  show ValuesOk [⟨5000000000, [op1]⟩, ⟨0, [0x6a]⟩]
  exact ⟨by decide, by decide⟩

theorem validBlock_one : ValidBlock sampleIndexEnv (indexChain [1, 0]) (indexCoinbase 1) [] []
    (fun _ => none) indexCoins where
  readBlock := rfl
  readBlockUndo := rfl
  first := rfl
  others := by simp
  size := by decide
  values := by
    intro tx htx
    rw [mem_singleton.1 htx]
    exact indexCoinbase_values 1
  fresh _ _ _ := rfl
  connected := .nil _
  fees := .nil
  claimed := by decide

theorem validBlock_two : ValidBlock sampleIndexEnv (indexChain [2, 1, 0]) (indexCoinbase 2)
    [indexSpend 1] (indexUndo (indexChain [2, 1, 0])) indexCoins
    (write (afterCoinbase sampleIndexEnv (indexChain [2, 1, 0]) (indexCoinbase 2) indexCoins)
      (txWrites (indexSpend 1) 2)) where
  readBlock := rfl
  readBlockUndo := rfl
  first := rfl
  others := by decide
  size := by decide
  values := by
    intro tx htx
    rcases mem_cons.1 htx with rfl | htx
    · exact indexCoinbase_values 2
    · rw [mem_singleton.1 htx]
      exact ⟨by decide, by decide⟩
  fresh _ := by decide
  connected := by
    refine .cons ⟨rfl, by decide, fun _ => ⟨by decide, .cons ?_ .nil⟩, fun _ => by decide⟩ (.nil _)
    decide
  fees := .cons (by decide) .nil
  claimed := by decide

theorem CoinStatsIndex.accounts_three_blocks :
    ∃ m d, ValidChain sampleIndexEnv (indexChain [2, 1, 0]) m ∧
      sampleIndexEnv.appendChain (indexChain [2, 1, 0]) = .ok d ∧
      d.members.totalAmount = utxoValue m := by
  have hvalid : ValidChain sampleIndexEnv (indexChain [2, 1, 0]) _ :=
    .block (.block (.genesis rfl) (by decide) validBlock_one) (by decide)
      validBlock_two
  obtain ⟨-, -, d, -, -, -, hd, hamount, -⟩ := accounts hvalid
  exact ⟨_, d, hvalid, hd, hamount⟩

end BitcoinPurity
