import Mathlib.Algebra.BigOperators.Intervals
import BitcoinPurity.Lib.Runs
import BitcoinPurity.Lib.Tally
import BitcoinPurity.Validation.DisconnectBlock

/-!
# The money supply

What the blocks of a chain do to the sum of the values in the UTXO set.  A transaction adds its
outputs and a fee, together at most what its inputs held; the coinbase adds at most the fees and
the subsidy.  So a block adds at most its subsidy, and disconnecting it leaves no more than what
was there before.

`no_inflation`: so it is along every run of connections and disconnections from genesis, no
addition overflows, and the subsidies of all blocks together are at most `MAX_MONEY`.
-/

namespace BitcoinPurity

open Calls Tighten Writes Tally List BlockError

/-! ## Values -/

/-- The sum of the values in the UTXO set. -/
noncomputable def utxoValue (m : CoinsMap) : Int := total (fun coin : Coin => coin.out.nValue) m

/-- Finitely many coins, each of a value in range. -/
structure Valued (m : CoinsMap) : Prop where
  finite : IsFinite m
  range : ∀ o coin, m o = some coin → 0 ≤ coin.out.nValue ∧ coin.out.nValue ≤ maxMoney

def inputValue (m : CoinsMap) (vin : List CTxIn) : Int :=
  (vin.map fun txin => weight (fun coin : Coin => coin.out.nValue) (m txin.prevout)).sum

/-- The fee of a transaction; a coinbase has none. -/
def feeOf (m : CoinsMap) (tx : CTransaction) : Int :=
  if tx.isCoinBase then 0 else inputValue m tx.vin - valueSum tx.vout

/-- What a transaction adds beyond what it spends. -/
def created (tx : CTransaction) : Int := if tx.isCoinBase then valueSum tx.vout else 0

theorem Valued.none : Valued fun _ => none :=
  ⟨by simp [IsFinite], by simp⟩

variable {m m' : CoinsMap}

theorem Valued.of_sub (h : Valued m) (hsub : Sub m' m) : Valued m' :=
  ⟨h.finite.of_sub hsub, fun o coin hc => h.range o coin (hsub o coin hc)⟩

theorem Valued.nonneg (h : Valued m) (o : COutPoint) (coin : Coin)
    (hc : m o = some coin) : 0 ≤ coin.out.nValue := (h.range o coin hc).1

/-! ## What a transaction does to the sum -/

section
variable {m m' : CoinsMap} {tx : CTransaction} {nHeight : Nat} {txundo : CTxUndo}

theorem outputWrites_value {hash i : Nat} {vout : List CTxOut}
    (hv : ∀ txOut ∈ vout, 0 ≤ txOut.nValue) :
    ((outputWrites hash (fun t => some (newCoin tx nHeight t)) i vout).map fun x =>
      weight (fun coin : Coin => coin.out.nValue) x.2).sum ≤ valueSum vout := by
  induction vout generalizing i with
  | nil => simp [outputWrites]
  | cons txOut vout ih =>
    have hout : 0 ≤ txOut.nValue := hv txOut (by simp)
    have hrest := @ih (i + 1) fun t ht => hv t (mem_cons_of_mem _ ht)
    rw [valueSum_cons]
    unfold outputWrites
    split
    · omega
    rw [map_cons, sum_cons]
    show txOut.nValue + _ ≤ _
    omega

theorem addWrites_range (hv : ValuesOk tx.vout) :
    ∀ x ∈ addWrites tx nHeight, ∀ coin : Coin, x.2 = some coin →
      0 ≤ coin.out.nValue ∧ coin.out.nValue ≤ maxMoney := by
  intro x hx coin hcoin
  obtain ⟨-, -, txOut, hmem, -, hval⟩ := mem_outputWrites hx
  rw [hval] at hcoin
  cases hcoin
  exact hv.each txOut (mem_of_getElem? hmem)

theorem Valued.of_writes {ws : List (COutPoint × Option Coin)} (h : Valued m)
    (hws : ∀ x ∈ ws, ∀ coin : Coin, x.2 = some coin →
      0 ≤ coin.out.nValue ∧ coin.out.nValue ≤ maxMoney) : Valued (write m ws) := by
  refine ⟨h.finite.write ws, fun o => ?_⟩
  exact write_forall (Q := fun v => ∀ coin : Coin, v = some coin →
    0 ≤ coin.out.nValue ∧ coin.out.nValue ≤ maxMoney) h.range hws o

theorem Valued.spend (h : Valued m) (vin : List CTxIn) : Valued (write m (spendWrites vin)) := by
  refine h.of_writes fun x hx coin hcoin => ?_
  obtain ⟨txin, -, rfl⟩ := mem_map.1 hx
  cases hcoin

theorem utxoValue_addWrites (h : Valued m) (hv : ValuesOk tx.vout) (nHeight : Nat) :
    utxoValue (write m (addWrites tx nHeight)) ≤ utxoValue m + valueSum tx.vout := by
  have hle : utxoValue (write m (addWrites tx nHeight)) ≤ utxoValue m +
      ((addWrites tx nHeight).map fun x => weight (fun coin => coin.out.nValue) x.2).sum :=
    total_write_le h.finite h.nonneg fun x hx coin hc => (addWrites_range hv x hx coin hc).1
  have hsum := @outputWrites_value tx nHeight tx.hash 0 tx.vout fun t ht => (hv.each t ht).1
  exact hle.trans (Int.add_le_add_left hsum _)

/-- **A connected transaction** and its fee together add at most what it creates. -/
theorem TxConnected.value_le (h : TxConnected nHeight m tx txundo m') (hm : Valued m)
    (hv : ValuesOk tx.vout) : Valued m' ∧ utxoValue m' + feeOf m tx ≤ utxoValue m + created tx := by
  rw [h.writes, txWrites, feeOf, created]
  cases hcb : tx.isCoinBase with
  | true =>
    simp only [if_true, nil_append]
    have := utxoValue_addWrites hm hv nHeight
    exact ⟨hm.of_writes (addWrites_range hv), by omega⟩
  | false =>
    simp only [Bool.false_eq_true, if_false, write_append]
    have hspent : utxoValue (write m (spendWrites tx.vin)) = utxoValue m - inputValue m tx.vin := by
      have herase := total_erase (w := fun coin => coin.out.nValue) hm.finite (h.spent hcb).1
      rwa [map_map, map_map] at herase
    have hadd := utxoValue_addWrites (hm.spend tx.vin) hv nHeight
    exact ⟨(hm.spend tx.vin).of_writes (addWrites_range hv), by omega⟩

end

/-! ## No addition overflows -/

/-- From the map `m` the program returns with `Q`, or stops with an error other than an
overflow. -/
abbrev NoOverflow {α : Type} (m : CoinsMap) (p : CoinsProg α) (Q : α → CoinsMap → Prop) : Prop :=
  Meets ViewCall.onMap (· ≠ overflow) (fun m' => m' = m) p Q

theorem getBlockSubsidy_range (nHeight interval : Nat) :
    0 ≤ getBlockSubsidy nHeight interval ∧ getBlockSubsidy nHeight interval ≤ maxMoney := by
  have hcoin : 50 * COIN = 5000000000 := rfl
  unfold getBlockSubsidy
  rw [maxMoney_eq, hcoin]
  simp only
  split
  · omega
  rw [Int.shiftRight_eq_div_pow]
  have hpow : 1 ≤ ((2 ^ (nHeight / interval) : Nat) : Int) := by
    exact_mod_cast Nat.one_le_two_pow
  constructor
  · exact Int.ediv_nonneg (by omega) (by omega)
  · have := Int.ediv_le_self (a := 5000000000) ((2 ^ (nHeight / interval) : Nat) : Int) (by omega)
    omega

/-- Twice the range is what the accumulated fees can reach before they are checked. -/
theorem blockReward_no_overflow (env : ConnectEnv) {nFees : Int}
    (hn : 0 ≤ nFees ∧ nFees ≤ 2 * maxMoney) :
    blockReward env nFees =
      .ok (nFees + getBlockSubsidy env.nHeight env.nSubsidyHalvingInterval) := by
  have hs := getBlockSubsidy_range env.nHeight env.nSubsidyHalvingInterval
  rw [maxMoney_eq] at hn hs
  rw [blockReward, int64_eq_ok]
  omega

theorem afterBreak_meets {α : Type} (env : ConnectEnv) (coinbase : CTransaction) {nFees : Int}
    (hn : 0 ≤ nFees ∧ nFees ≤ 2 * maxMoney) {e : BlockError} (he : e ≠ .overflow)
    {P : CoinsMap → Prop} {Q : α → CoinsMap → Prop} :
    Meets ViewCall.onMap (· ≠ overflow) P (afterBreak env coinbase nFees e) Q := by
  cases e with
  | invalid reason =>
    refine .bind (.ofExcept fun e he => ?_) fun reward => ?_
    · simp [blockReward_no_overflow env hn] at he
    · refine .bind (.ofExcept fun e he heq => ?_) fun valueOut => .stop (by simp)
      exact getValueOut_no_overflow coinbase (heq ▸ he)
  | _ => exact .stop he

section
variable {m : CoinsMap} {tx coinbase : CTransaction} {env : ConnectEnv}

theorem accessCoin_meets (m : CoinsMap) (o : COutPoint) :
    NoOverflow m (accessCoin o) fun coin m' => coin = m o ∧ m' = m := by
  rintro m' rfl
  exact ⟨rfl, rfl⟩

theorem accessInputs_meets (m : CoinsMap) (vin : List CTxIn) :
    NoOverflow m (accessInputs vin) fun _ m' => m' = m := by
  induction vin with
  | nil => exact .pure fun _ hs => hs
  | cons txin vin ih =>
    refine .bind (accessCoin_meets m _) fun coin => .of_fact fun _ => ?_
    exact .bind ih fun coins => .pure fun _ hs => hs

theorem sumInputs_meets (hm : Valued m) (nSpendHeight : Nat) (vin : List CTxIn) {n : Int}
    (hn : 0 ≤ n ∧ n ≤ maxMoney) :
    NoOverflow m (sumInputs nSpendHeight n vin) fun r m' =>
      (r = n + inputValue m vin ∧ 0 ≤ r ∧ r ≤ maxMoney) ∧ m' = m := by
  induction vin generalizing n with
  | nil => exact .pure fun _ hs => ⟨⟨by simp [inputValue], hn⟩, hs⟩
  | cons txin vin ih =>
    refine .bind (accessCoin_meets m _) fun found => .of_fact fun hfound => ?_
    refine .bind (.getOr (by simp)) fun coin => .of_fact fun hcoin => ?_
    refine .bind (.stopIf (by simp)) fun _ => .of_fact fun _ => ?_
    have hc : m txin.prevout = some coin := by rw [← hfound, hcoin]
    have hval := hm.range _ coin hc
    refine .bind (.ofExcept fun e he => ?_) fun sum => .of_fact fun hsum => ?_
    · simp [int64_of_range hn hval] at he
    refine .bind (.stopIf (by simp)) fun _ => .of_fact fun hrange => ?_
    obtain ⟨-, rfl⟩ := int64_eq_ok.1 hsum
    simp only [Bool.or_eq_false_iff, Bool.not_eq_false', moneyRange_iff] at hrange
    refine (ih hrange.2).weaken (fun _ hs => hs) ?_
    rintro r s ⟨⟨hr, hle⟩, hs⟩
    refine ⟨⟨?_, hle⟩, hs⟩
    simp only [inputValue, map_cons, sum_cons, hc, weight_some] at hr ⊢
    omega

/-- **`CheckTxInputs`** returns the fee. -/
theorem checkTxInputs_meets (hm : Valued m) (hv : ValuesOk tx.vout) (nSpendHeight : Nat)
    (outputSizeLimit : Bool) :
    NoOverflow m (checkTxInputs tx nSpendHeight outputSizeLimit) fun fee m' =>
      (fee = inputValue m tx.vin - valueSum tx.vout ∧ 0 ≤ fee ∧ fee ≤ maxMoney) ∧ m' = m := by
  have hhave : NoOverflow m (haveInputs tx) fun _ m' => m' = m := fun _ hs => hs
  refine .bind hhave fun present => ?_
  refine .bind (.stopIf (by simp)) fun _ => .of_fact fun _ => ?_
  refine .bind (.stopIf (by simp)) fun _ => .of_fact fun _ => ?_
  refine .bind (sumInputs_meets hm _ _ (by decide)) fun nValueIn => .of_fact fun hin => ?_
  refine .bind (.ofExcept fun e he heq => ?_) fun valueOut => .of_fact fun hout => ?_
  · exact getValueOut_no_overflow tx (heq ▸ he)
  rw [getValueOut_eq hv] at hout
  cases hout
  have hsum : 0 ≤ valueSum tx.vout := valueSum_nonneg fun t ht => (hv.each t ht).1
  have htot := hv.total
  have hsub : int64 (nValueIn - valueSum tx.vout) = .ok (nValueIn - valueSum tx.vout) := by
    rw [int64_eq_ok]
    rw [maxMoney_eq] at hin htot
    omega
  refine .bind (.stopIf (by simp)) fun _ => .of_fact fun _ => ?_
  refine .bind (.ofExcept fun e he => ?_) fun txfee => .of_fact fun hfee => ?_
  · simp [hsub] at he
  simp [hsub] at hfee
  refine .bind (.stopIf (by simp)) fun _ => .of_fact fun hrange => .pure fun _ hs => ?_
  rw [Bool.not_eq_false', moneyRange_iff] at hrange
  refine ⟨⟨?_, hrange⟩, hs⟩
  omega

theorem checkFees_meets (hm : Valued m) (hv : ValuesOk tx.vout) {nFees : Int}
    (hn : 0 ≤ nFees ∧ nFees ≤ maxMoney) :
    NoOverflow m (checkFees env coinbase nFees tx) fun r m' =>
      (r = nFees + feeOf m tx ∧ 0 ≤ r ∧ r ≤ 2 * maxMoney) ∧ m' = m := by
  unfold checkFees feeOf
  cases tx.isCoinBase with
  | true =>
    refine .pure fun _ hs => ⟨⟨?_, hn.1, by omega⟩, hs⟩
    rw [if_pos rfl, Int.add_zero]
  | false =>
    simp only [Bool.false_eq_true, if_false]
    refine .bind (.onStop (checkTxInputs_meets hm hv _ _) fun e he => ?_) fun txfee =>
      .of_fact fun hfee => ?_
    · exact afterBreak_meets env coinbase ⟨hn.1, by omega⟩ he
    have hadd := int64_of_range hn hfee.2
    refine Meets.weaken (.ofExcept fun e he => ?_) (fun _ hs => hs) ?_
    · simp [hadd] at he
    · grind

variable {totals : BlockTotals} {P : CoinsMap → Prop} {m : CoinsMap}

/-- **The checks of a round**: the fees grow by the fee and stay in range. -/
theorem checkTx_meets (hm : Valued m) (hv : ValuesOk tx.vout)
    (hn : 0 ≤ totals.nFees ∧ totals.nFees ≤ maxMoney) :
    NoOverflow m (checkTx env coinbase totals tx) fun r m' =>
      (r.nFees = totals.nFees + feeOf m tx ∧ 0 ≤ r.nFees ∧ r.nFees ≤ maxMoney) ∧ m' = m := by
  refine .bind (checkFees_meets hm hv hn) fun nFees => .of_fact fun hfees => ?_
  have hcb : tx.isCoinBase → nFees ≤ maxMoney := by
    intro hcb
    rw [hfees.1, feeOf, if_pos hcb]
    omega
  refine .onStop ?_ fun e he => afterBreak_meets env coinbase hfees.2 he
  have hfinal : NoOverflow m (checkFinal env nFees tx) fun _ m' =>
      (0 ≤ nFees ∧ nFees ≤ maxMoney) ∧ m' = m := by
    unfold checkFinal
    split
    next h => exact .pure fun _ hs => ⟨⟨hfees.2.1, hcb h⟩, hs⟩
    next h =>
      refine .bind (.stopIf (by simp)) fun _ => .of_fact fun hrange => ?_
      rw [Bool.not_eq_false', moneyRange_iff] at hrange
      refine .bind (accessInputs_meets m _) fun coins => ?_
      exact Meets.weaken (.stopIf (by simp)) (fun _ hs => hs) fun _ _ hs => ⟨hrange, hs.2⟩
  refine .bind hfinal fun _ => .of_fact fun hrange => ?_
  refine .bind (accessInputs_meets m _) fun coins => ?_
  refine .bind (.stopIf (by simp)) fun _ => .of_fact fun _ => ?_
  refine .bind (.stopIf (by simp)) fun _ => .of_fact fun _ => .pure fun _ hs => ?_
  exact ⟨⟨hfees.1, hrange⟩, hs⟩

/-! `UpdateCoins` adds no amounts. -/

theorem call_meets (c : ViewCall) :
    Meets ViewCall.onMap (· ≠ overflow) P (.ask c) fun _ _ => True := by
  refine Meets.weaken (.ask fun m e _ he => ?_) (fun _ hs => hs) fun _ _ _ => trivial
  cases c with
  | addCoin o coin possibleOverwrite =>
    rintro rfl
    simp only [ViewCall.onMap] at he
    grind
  | _ => cases he

theorem spendInputs_meets (vin : List CTxIn) :
    Meets ViewCall.onMap (· ≠ overflow) P (spendInputs vin) fun _ _ => True := by
  induction vin generalizing P with
  | nil => exact .pure fun _ _ => trivial
  | cons txin vin ih =>
    refine .bind (call_meets _) fun coin => ?_
    refine .bind (.getOr (by simp)) fun coin => ?_
    exact .bind ih fun coins => .pure fun _ _ => trivial

theorem addCoinsLoop_meets (tx : CTransaction) (nHeight : Nat) (check : Bool) (i : Nat)
    (vout : List CTxOut) :
    Meets ViewCall.onMap (· ≠ overflow) P (addCoinsLoop tx nHeight check i vout)
      fun _ _ => True := by
  induction vout generalizing i P with
  | nil => exact .pure fun _ _ => trivial
  | cons txOut vout ih =>
    have hmay : Meets ViewCall.onMap (· ≠ overflow) P (mayOverwrite tx check i)
        fun _ _ => True := by
      unfold mayOverwrite
      split
      · exact call_meets _
      · exact .pure fun _ _ => trivial
    exact .bind hmay fun overwrite => .bind (call_meets _) fun _ => ih (i + 1)

theorem updateCoins_meets (m : CoinsMap) (tx : CTransaction) (nHeight : Nat) :
    NoOverflow m (updateCoins tx nHeight) fun txundo m' => TxConnected nHeight m tx txundo m' := by
  have hspend : Meets ViewCall.onMap (· ≠ overflow) (fun m' => m' = m)
      (markSpent tx) fun _ _ => True := by
    unfold markSpent
    split
    · exact .pure fun _ _ => trivial
    · exact spendInputs_meets _
  have hall : Meets ViewCall.onMap (· ≠ overflow) (fun m' => m' = m)
      (updateCoins tx nHeight) fun _ _ => True := by
    refine .bind hspend fun vprevout => ?_
    exact .bind (addCoinsLoop_meets _ _ _ _ _) fun _ => .pure fun _ _ => trivial
  refine hall.of_ok ?_
  rintro s r rfl hr
  exact updateCoins_ok hr

/-- **The transaction loop**: the set and the fees together grow by at most what the coinbases
create. -/
theorem connectTxs_meets {vtx : List CTransaction} (hv : ∀ tx ∈ vtx, ValuesOk tx.vout)
    (hm : Valued m)
    (hn : 0 ≤ totals.nFees ∧ totals.nFees ≤ maxMoney) :
    NoOverflow m (connectTxs env coinbase totals vtx) fun r m' =>
      (0 ≤ r.1.nFees ∧ r.1.nFees ≤ maxMoney) ∧ Valued m' ∧
        utxoValue m' + r.1.nFees ≤ utxoValue m + totals.nFees + (vtx.map created).sum := by
  induction vtx generalizing m totals with
  | nil =>
    refine .pure fun m' hs => ⟨hn, hs ▸ hm, ?_⟩
    rw [hs, map_nil, sum_nil, Int.add_zero]
  | cons tx vtx ih =>
    have hvtx : ValuesOk tx.vout := hv tx (by simp)
    refine .bind (checkTx_meets hm hvtx hn) fun totals1 => .of_fact fun hfees => ?_
    refine .bind (updateCoins_meets m tx _) fun txundo => .pointwise fun m1 hconn => ?_
    obtain ⟨hm1, hle⟩ := hconn.value_le hm hvtx
    refine .bind (ih (fun t ht => hv t (mem_cons_of_mem _ ht)) hm1 hfees.2) fun rest => ?_
    refine .pure fun m' hs => ⟨hs.1, hs.2.1, ?_⟩
    grind

section

variable (env : ConnectEnv) (block : CBlock)

theorem checkBlock_no_overflow : checkBlock env block ≠ .error .overflow := by
  have htxs : ∀ vtx, checkTransactions vtx ≠ .error .overflow := by
    intro vtx
    induction vtx with
    | nil => simp [checkTransactions]
    | cons tx vtx ih =>
      intro h
      rcases bind_eq_error.1 h with h | ⟨-, -, h⟩
      · exact checkTransaction_no_overflow tx h
      · exact ih h
  intro h
  simp only [checkBlock, bind_eq_error, failIf_eq_error, reduceCtorEq, and_false, false_or,
    exists_false, or_false] at h
  obtain ⟨-, -, -, -, -, -, -, -, h⟩ := h
  exact htxs _ h

theorem checkBip30_meets (m : CoinsMap) :
    NoOverflow m (checkBip30 env block) fun _ m' => m' = m := by
  have houtputs : ∀ (hash : Nat) vout o,
      NoOverflow m (checkBip30Outputs hash o vout) fun _ m' => m' = m := by
    intro hash vout
    induction vout with
    | nil => exact fun o => .pure fun _ hs => hs
    | cons txOut vout ih =>
      intro o
      have hhave : NoOverflow m (haveCoin ⟨hash, o⟩) fun _ m' => m' = m := fun _ hs => hs
      exact .bind hhave fun _ => .bind (.stopIf (by simp)) fun _ => .of_fact fun _ => ih (o + 1)
  have htxs : ∀ vtx, NoOverflow m (checkBip30Txs vtx) fun _ m' => m' = m := by
    intro vtx
    induction vtx with
    | nil => exact .pure fun _ hs => hs
    | cons tx vtx ih => exact .bind (houtputs _ _ _) fun _ => ih
  unfold checkBip30
  split
  · exact htxs _
  · exact .pure fun _ hs => hs

/-- **A block** adds at most its subsidy, and no addition overflows, accepted or not. -/
theorem connectBlock_meets (hm : Valued m) : NoOverflow m (connectBlock env block) fun _ m' =>
      Valued m' ∧ utxoValue m' ≤ utxoValue m +
        if env.isGenesis then 0 else getBlockSubsidy env.nHeight env.nSubsidyHalvingInterval := by
  refine .bind (.ofExcept fun e he heq => ?_) fun _ => .of_fact fun hblock => ?_
  · exact checkBlock_no_overflow env block (heq ▸ he)
  obtain ⟨first, vtx, hvtx, hfirst, hnot, hall⟩ := checkBlock_ok hblock
  have hv : ∀ tx ∈ block.vtx, ValuesOk tx.vout := fun tx ht => (checkTransaction_ok (hall tx ht)).1
  have hcreated : (block.vtx.map created).sum = valueSum first.vout := by
    have hrest : vtx.map created = vtx.map fun _ => 0 := by
      apply map_congr_left
      intro tx ht
      simp [created, hnot tx ht]
    rw [hvtx, map_cons, hrest, created, if_pos hfirst]
    simp
  split
  · have hset : NoOverflow m (setBestBlock env.blockHash) fun _ m' => m' = m := fun _ hs => hs
    refine .bind hset fun _ => .pure fun m' hs => ?_
    rw [hs, Int.add_zero]
    exact ⟨hm, Int.le_refl _⟩
  refine .bind (.getOr (by simp)) fun coinbase => .of_fact fun hhead => ?_
  rw [hvtx] at hhead
  cases hhead
  refine .bind (checkBip30_meets env block m) fun _ => ?_
  refine .bind (.stopIf (by simp)) fun _ => .of_fact fun _ => ?_
  refine .bind (connectTxs_meets hv hm (by decide)) fun r => .of_fact fun hfees => ?_
  have htwice : 0 ≤ r.1.nFees ∧ r.1.nFees ≤ 2 * maxMoney := by
    omega
  have hreward := blockReward_no_overflow env htwice
  refine .bind (.ofExcept fun e he => ?_) fun reward => .of_fact fun hr => ?_
  · simp [hreward] at he
  simp [hreward] at hr
  refine .bind (.ofExcept fun e he heq => ?_) fun valueOut => .of_fact fun hout => ?_
  · exact getValueOut_no_overflow _ (heq ▸ he)
  rw [getValueOut_eq (hv _ (by simp [hvtx]))] at hout
  cases hout
  refine .bind (.stopIf (by simp)) fun _ => .of_fact fun hlimit => .pointwise fun m1 hm1 => ?_
  have hset : NoOverflow m1 (setBestBlock env.blockHash) fun _ m' => m' = m1 := fun _ hs => hs
  refine .bind hset fun _ => .pure fun m' hs => ?_
  rw [decide_eq_false_iff_not] at hlimit
  rw [hs]
  refine ⟨hm1.1, ?_⟩
  have hle := hm1.2
  simp only at hle
  omega

end

end

/-! ## The subsidies of all blocks -/

/-- The subsidy after a number of halvings. -/
def halvedSubsidy (halvings : Nat) : Int := if halvings ≥ 64 then 0 else (50 * COIN) >>> halvings

theorem getBlockSubsidy_eq (nHeight interval : Nat) :
    getBlockSubsidy nHeight interval = halvedSubsidy (nHeight / interval) := rfl

theorem halvedSubsidy_nonneg (j : Nat) : 0 ≤ halvedSubsidy j := by
  have := (getBlockSubsidy_range j 1).1
  rwa [getBlockSubsidy_eq, Nat.div_one] at this

theorem sum_getBlockSubsidy_intervals (interval : Nat) (hpos : 0 < interval) (n : Nat) :
    ∑ i ∈ Finset.range (interval * n), getBlockSubsidy i interval =
      interval * ∑ j ∈ Finset.range n, halvedSubsidy j := by
  induction n with
  | zero => simp
  | succ n ih =>
    have hconst : ∀ i ∈ Finset.range interval,
        getBlockSubsidy (interval * n + i) interval = halvedSubsidy n := by
      intro i hi
      rw [getBlockSubsidy_eq, Nat.mul_add_div hpos, Nat.div_eq_of_lt (Finset.mem_range.1 hi),
        Nat.add_zero]
    rw [Nat.mul_succ, Finset.sum_range_add, ih, Finset.sum_congr rfl hconst, Finset.sum_const,
      Finset.card_range, Finset.sum_range_succ, nsmul_eq_mul, Int.mul_add]

theorem sum_halvedSubsidy_le (n : Nat) :
    ∑ j ∈ Finset.range n, halvedSubsidy j ≤ ∑ j ∈ Finset.range 64, halvedSubsidy j := by
  calc ∑ j ∈ Finset.range n, halvedSubsidy j
      ≤ ∑ j ∈ Finset.range (n + 64), halvedSubsidy j :=
        Finset.sum_le_sum_of_subset_of_nonneg (Finset.range_mono (by omega))
          fun j _ _ => halvedSubsidy_nonneg j
    _ = ∑ j ∈ Finset.range 64, halvedSubsidy j := by
        rw [Nat.add_comm, Finset.sum_range_add, add_eq_left]
        apply Finset.sum_eq_zero
        intro j _
        rw [halvedSubsidy, if_pos (by omega)]

theorem sum_getBlockSubsidy_range_le {interval : Nat} (hpos : 0 < interval)
    (hle : interval ≤ 210000) (n : Nat) :
    ∑ i ∈ Finset.range n, getBlockSubsidy i interval ≤ maxMoney := by
  have hsixtyfour : ∑ j ∈ Finset.range 64, halvedSubsidy j = 9999999989 := by decide +kernel
  have hsubset := Finset.range_mono (Nat.le_mul_of_pos_left n hpos)
  have hhalved : ∑ j ∈ Finset.range n, halvedSubsidy j ≤ 9999999989 :=
    hsixtyfour ▸ sum_halvedSubsidy_le n
  calc ∑ i ∈ Finset.range n, getBlockSubsidy i interval
      ≤ ∑ i ∈ Finset.range (interval * n), getBlockSubsidy i interval :=
        Finset.sum_le_sum_of_subset_of_nonneg hsubset
          fun i _ _ => (getBlockSubsidy_range i interval).1
    _ = interval * ∑ j ∈ Finset.range n, halvedSubsidy j :=
        sum_getBlockSubsidy_intervals interval hpos n
    _ ≤ 210000 * 9999999989 :=
        Int.mul_le_mul (by omega) hhalved (Finset.sum_nonneg fun j _ => halvedSubsidy_nonneg j)
          (by decide)
    _ ≤ maxMoney := by decide

/-- **The limit**: the subsidies of any number of blocks are at most `MAX_MONEY`. -/
theorem sum_getBlockSubsidy_le (h : Nat) :
    ∑ i ∈ Finset.Icc 1 h, getBlockSubsidy i 210000 ≤ maxMoney := by
  have hsubset : Finset.Icc 1 h ⊆ Finset.range (h + 1) := by grind
  calc ∑ i ∈ Finset.Icc 1 h, getBlockSubsidy i 210000
      ≤ ∑ i ∈ Finset.range (h + 1), getBlockSubsidy i 210000 :=
        Finset.sum_le_sum_of_subset_of_nonneg hsubset
          fun i _ _ => (getBlockSubsidy_range i 210000).1
    _ ≤ maxMoney := sum_getBlockSubsidy_range_le (by decide) (Nat.le_refl _) (h + 1)

/-! ## Runs -/

/-- A block of the active chain, with the undo data written when it was connected. -/
structure ConnectedBlock where
  env : ConnectEnv
  block : CBlock
  undo : CBlockUndo

/-- The active chain, tip first, and the UTXO set. -/
structure LedgerState where
  chain : List ConnectedBlock
  coins : CoinsMap

namespace LedgerState

def start : LedgerState where
  chain := []
  coins := fun _ => none

def height (s : LedgerState) : Nat := s.chain.length - 1

/-- May a block with this environment come next?  The block at height zero is the genesis
block. -/
def Next (s : LedgerState) (env : ConnectEnv) : Prop :=
  env.nHeight = s.chain.length ∧ env.isGenesis = s.chain.isEmpty ∧
    env.nSubsidyHalvingInterval = 210000

instance (s : LedgerState) (env : ConnectEnv) : Decidable (s.Next env) :=
  inferInstanceAs (Decidable (_ ∧ _ ∧ _))

inductive Step
  | connect (env : ConnectEnv) (block : CBlock)
  | disconnect

/-- `ConnectTip`, where the block is accepted, and `DisconnectTip`, which never takes the genesis
block.  An unclean result is let through here. -/
def step : Step → LedgerState → Option LedgerState
  | .connect env block, s =>
    if s.Next env then
      match onMap (connectBlock env block) s.coins with
      | .ok (undo, coins) => some { chain := ⟨env, block, undo⟩ :: s.chain, coins }
      | .error _ => none
    else none
  | .disconnect, s =>
    match s.chain with
    | tip :: pprev :: chain =>
      match onMap (disconnectBlock tip.env tip.block tip.undo) s.coins with
      | .ok (_, coins) => some { chain := pprev :: chain, coins }
      | .error _ => none
    | _ => none

end LedgerState

theorem connectBlock_genesis {env : ConnectEnv} {block : CBlock} {undo : CBlockUndo}
    {m m' : CoinsMap} (hg : env.isGenesis) (h : onMap (connectBlock env block) m = .ok (undo, m')) :
    m' = m := by
  obtain ⟨_, m1, hcheck, h⟩ := run_bind_ok.1 h
  obtain ⟨-, hm1⟩ := run_ofExcept_eq_ok.1 hcheck
  rw [hg] at h
  cases h
  exact hm1

/-- The set holds no more than what the blocks of the chain leave: a block is connected on a set
`pre` of this kind, and what is there now is part of the result.  Less is there once a coinbase
overwrote coins and was disconnected. -/
inductive Ledger : List ConnectedBlock → CoinsMap → Prop
  | empty : Ledger [] fun _ => none
  | block {chain : List ConnectedBlock} {pre post m : CoinsMap} {tip : ConnectedBlock}
      (h : Ledger chain pre) (hnext : LedgerState.Next ⟨chain, pre⟩ tip.env)
      (hc : onMap (connectBlock tip.env tip.block) pre = .ok (tip.undo, post))
      (hsub : Sub m post) : Ledger (tip :: chain) m

namespace Ledger
variable {chain : List ConnectedBlock} {m m' : CoinsMap}

theorem mono (h : Ledger chain m) (hsub : Sub m' m) : Ledger chain m' := by
  cases h with
  | empty =>
    have hm' : m' = fun _ => none := by
      funext o
      cases ho : m' o with
      | none => rfl
      | some coin => exact absurd (hsub o coin ho) (by simp)
    rw [hm']
    exact .empty
  | block h hnext hc hsub' => exact .block h hnext hc (hsub.trans hsub')

theorem restorable (h : Ledger chain m) : AllRestorable m := by
  induction h with
  | empty =>
    intro o coin hc
    cases hc
  | @block chain pre post m tip _ hnext hc hsub ih =>
    have hpost : AllRestorable post := by
      cases hg : tip.env.isGenesis with
      | true =>
        rw [connectBlock_genesis hg hc]
        exact ih
      | false =>
        obtain ⟨_, _, _, -, -, -, htxs⟩ := connectBlock_ok hg hc
        have hchain := hnext.2.1
        rw [hg] at hchain
        cases chain with
        | nil => cases hchain
        | cons b chain => exact htxs.restorable (by rw [hnext.1]; simp) ih
    exact fun o coin ho => hpost o coin (hsub o coin ho)

theorem value_le (h : Ledger chain m) :
    Valued m ∧ utxoValue m ≤ ∑ i ∈ Finset.Icc 1 (chain.length - 1), getBlockSubsidy i 210000 := by
  induction h with
  | empty => exact ⟨.none, by simp [utxoValue]⟩
  | @block chain pre post m tip _ hnext hc hsub ih =>
    obtain ⟨hpost, hle⟩ := (connectBlock_meets tip.env tip.block ih.1).ok rfl hc
    refine ⟨hpost.of_sub hsub, (total_le_of_sub hpost.finite hpost.nonneg hsub).trans (hle.trans ?_)⟩
    obtain ⟨hheight, hgenesis, hinterval⟩ := hnext
    have hpre := ih.2
    rw [hheight, hgenesis, hinterval]
    cases chain with
    | nil => simpa using hpre
    | cons b chain =>
      simp only [length_cons, Nat.add_sub_cancel, isEmpty_cons, Bool.false_eq_true,
        if_false] at hpre ⊢
      rw [Finset.sum_Icc_succ_top (by omega)]
      omega

theorem disconnect {tip pprev : ConnectedBlock} {r : DisconnectResult}
    (h : Ledger (tip :: pprev :: chain) m)
    (hd : onMap (disconnectBlock tip.env tip.block tip.undo) m = .ok (r, m')) :
    Ledger (pprev :: chain) m' := by
  cases h with
  | @block _ pre post _ _ h hnext hc hsub =>
    have hg : tip.env.isGenesis = false := hnext.2.1
    have hh : 1 ≤ tip.env.nHeight := by
      rw [hnext.1]
      simp
    obtain ⟨hlen, hfits⟩ := undoOrder_fits hg hh h.restorable hc
    -- the same values are written into every map, so compare with the set after the block
    obtain ⟨r1, h1⟩ := disconnectBlock_run tip.env hlen hfits m
    obtain ⟨r2, h2⟩ := disconnectBlock_run tip.env hlen hfits post
    obtain ⟨coinbase, -, -, h3⟩ := disconnectBlock_connected hg hh h.restorable hc
    rw [h1] at hd
    rw [h2] at h3
    simp only [Except.ok.injEq, Prod.mk.injEq] at hd h3
    have hsub' := hsub.write (undoWrites tip.block tip.undo)
    rw [hd.2, h3.2] at hsub'
    refine h.mono (hsub'.trans (sub_write_of_erases fun x hx => ?_))
    obtain ⟨-, -, -, -, -, hnone⟩ := mem_outputWrites hx
    exact hnone

end Ledger

theorem LedgerState.step_ledger {s s' : LedgerState} (a : Step) (h : Ledger s.chain s.coins)
    (hs : step a s = some s') : Ledger s'.chain s'.coins := by
  cases a with
  | connect env block =>
    simp only [step] at hs
    split at hs
    next hnext =>
      split at hs
      next undo coins hc =>
        cases hs
        exact .block h hnext hc (.refl _)
      · cases hs
    · cases hs
  | disconnect =>
    obtain ⟨chain, coins⟩ := s
    simp only [step] at hs
    split at hs
    next tip pprev chain =>
      split at hs
      next r coins hd =>
        cases hs
        exact h.disconnect hd
      · cases hs
    · cases hs

/-! ## Top theorem -/

/-- **No inflation.**  Along every run of accepted blocks and disconnections from genesis, the
values in the UTXO set sum to at most the subsidies of the heights up to the tip, these to at most
`MAX_MONEY`, and no block that is offered makes an addition of amounts overflow. -/
theorem no_inflation {s : LedgerState} (h : Runs.Reach LedgerState.step LedgerState.start s) :
    IsFinite s.coins ∧ utxoValue s.coins ≤ ∑ i ∈ Finset.Icc 1 s.height, getBlockSubsidy i 210000 ∧
      ∑ i ∈ Finset.Icc 1 s.height, getBlockSubsidy i 210000 ≤ maxMoney ∧
      ∀ env block, s.Next env → onMap (connectBlock env block) s.coins ≠ .error .overflow := by
  have hledger : Ledger s.chain s.coins :=
    h.invariant .empty
      fun _ a _ hI hs => LedgerState.step_ledger a hI hs
  obtain ⟨hvalued, hle⟩ := hledger.value_le
  refine ⟨hvalued.finite, hle, sum_getBlockSubsidy_le s.height, ?_⟩
  intro env block _ hr
  exact (connectBlock_meets env block hvalued).error rfl hr rfl

def coinbaseBlock (hash : Nat) : CBlock where
  vtx := [{ vin := [{ prevout := ⟨0, 0xffffffff⟩, scriptSig := [op1, op1] }]
            vout := [⟨5000000000, [op1]⟩], hash := hash, witnessHash := hash }]

/-- Genesis, a block, its disconnection, and two blocks of another branch. -/
def reorganization : List LedgerState.Step :=
  [.connect { sampleConnectEnv 0 with isGenesis := true } (coinbaseBlock 0),
    .connect (sampleConnectEnv 1) (coinbaseBlock 1), .disconnect,
    .connect (sampleConnectEnv 1) (coinbaseBlock 2),
    .connect (sampleConnectEnv 2) (coinbaseBlock 3)]

theorem no_inflation_reorganized :
    ∃ s, Runs.Reach LedgerState.step LedgerState.start s ∧ s.height = 2 ∧
      s.coins ⟨1, 0⟩ = none ∧ s.coins ⟨2, 0⟩ = some ⟨⟨5000000000, [op1]⟩, true, 1⟩ ∧
      utxoValue s.coins ≤ ∑ i ∈ Finset.Icc 1 s.height, getBlockSubsidy i 210000 := by
  have hall : Runs.runAll LedgerState.step reorganization LedgerState.start = some _ := rfl
  have hrun := Runs.reach_of_runAll hall
  exact ⟨_, hrun, rfl, rfl, rfl, (no_inflation hrun).2.1⟩

end BitcoinPurity
