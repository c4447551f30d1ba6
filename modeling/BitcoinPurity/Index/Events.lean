import BitcoinPurity.Index.CoinStats
import BitcoinPurity.Validation.Supply

/-!
# Coins as events

The blocks of a chain as a list of events on coins: an output is created, an unspendable one is
burnt, a coin is spent.  Each total that the loops of `CustomAppend` change is the sum of one
measure over the events, reduced to its word (`TracksCoins`), and every total over the UTXO set is a sum
over the same events.

`TxConnected.total_eq`: what a connected transaction does to a total over the UTXO set.
-/

namespace BitcoinPurity

open Tally Tighten Words Writes List

/-! ## Events -/

/-- What happens to one coin. -/
inductive CoinEvent
  | create (coin : Coin)
  | burn (nValue : Int)
  | spend (coin : Coin)

namespace CoinEvent

def nValue : CoinEvent → Int
  | create coin => coin.out.nValue
  | burn nValue => nValue
  | spend coin => coin.out.nValue

def flow (w : Coin → Int) : CoinEvent → Int
  | create coin => w coin
  | burn _ => 0
  | spend coin => -w coin

def spent : CoinEvent → Int
  | spend coin => coin.out.nValue
  | _ => 0

def newOutputs : CoinEvent → Int
  | create coin => if coin.fCoinBase then 0 else coin.out.nValue
  | _ => 0

def coinbase : CoinEvent → Int
  | create coin => if coin.fCoinBase then coin.out.nValue else 0
  | _ => 0

def burnt : CoinEvent → Int
  | burn nValue => nValue
  | _ => 0

/-- The value of the outputs less what they spend. -/
def issued : CoinEvent → Int
  | create coin => coin.out.nValue
  | burn nValue => nValue
  | spend coin => -coin.out.nValue

/-- A bound on the share of an event in the counts. -/
def cost : CoinEvent → Int
  | create coin => getBogoSize coin.out.scriptPubKey
  | burn _ => 0
  | spend _ => 1

end CoinEvent

open CoinEvent

def coinValue (coin : Coin) : Int := coin.out.nValue

def coinBogoSize (coin : Coin) : Int := getBogoSize coin.out.scriptPubKey

section

variable (f : CoinEvent → Int)

def sumOver (evs : List CoinEvent) : Int := (evs.map f).sum

@[simp] theorem sumOver_nil : sumOver f [] = 0 := rfl

@[simp] theorem sumOver_cons (e : CoinEvent) (evs : List CoinEvent) :
    sumOver f (e :: evs) = f e + sumOver f evs := by
  simp [sumOver]

@[simp] theorem sumOver_append (evs evs' : List CoinEvent) :
    sumOver f (evs ++ evs') = sumOver f evs + sumOver f evs' := by
  simp [sumOver]

end

variable {evs : List CoinEvent}

theorem sumOver_le {f g : CoinEvent → Int} (h : ∀ e ∈ evs, f e ≤ g e) :
    sumOver f evs ≤ sumOver g evs := by
  induction evs with
  | nil => simp
  | cons e evs ih =>
    rw [sumOver_cons, sumOver_cons]
    exact Int.add_le_add (h e (by simp)) (ih fun e' he' => h e' (mem_cons_of_mem e he'))

theorem sumOver_nonneg {f : CoinEvent → Int} (h : ∀ e ∈ evs, 0 ≤ f e) : 0 ≤ sumOver f evs := by
  apply sum_nonneg
  intro x hx
  obtain ⟨e, he, rfl⟩ := mem_map.1 hx
  exact h e he

theorem sumOver_issued (evs : List CoinEvent) :
    sumOver issued evs = sumOver (flow coinValue) evs + sumOver burnt evs := by
  induction evs with
  | nil => rfl
  | cons e evs ih =>
    simp only [sumOver_cons, ih]
    cases e <;> simp only [issued, flow, burnt, coinValue] <;> omega

theorem sumOver_held (evs : List CoinEvent) : sumOver (flow coinValue) evs =
      sumOver newOutputs evs + sumOver coinbase evs - sumOver spent evs := by
  induction evs with
  | nil => rfl
  | cons e evs ih =>
    simp only [sumOver_cons, ih]
    cases e with
    | create coin =>
      cases hcb : coin.fCoinBase <;>
        simp only [flow, newOutputs, coinbase, spent, coinValue, hcb, if_true,
          Bool.false_eq_true, if_false] <;> omega
    | burn nValue => simp only [flow, newOutputs, coinbase, spent]; omega
    | spend coin => simp only [flow, newOutputs, coinbase, spent, coinValue]; omega

/-! ## Totals that track events -/

/-- The totals that the loops change are the sums over the events, as words. -/
structure TracksCoins (s : Totals) (evs : List CoinEvent) : Prop where
  count : s.transactionOutputCount = word 64 (sumOver (flow fun _ => 1) evs)
  bogo : s.bogoSize = word 64 (sumOver (flow coinBogoSize) evs)
  amount : s.totalAmount = sumOver (flow coinValue) evs
  spent : s.totalPrevoutSpentAmount = word 256 (sumOver spent evs)
  newOutputs : s.totalNewOutputsExCoinbaseAmount = word 256 (sumOver newOutputs evs)
  coinbase : s.totalCoinbaseAmount = word 256 (sumOver coinbase evs)
  scripts : s.totalUnspendablesScripts = sumOver burnt evs

theorem TracksCoins.of_rewards {s : Totals} (h : TracksCoins s evs)
    (subsidy genesis bip30 unclaimed : Int) :
    TracksCoins { s with
      totalSubsidy := subsidy
      totalUnspendablesGenesisBlock := genesis
      totalUnspendablesBip30 := bip30
      totalUnspendablesUnclaimedRewards := unclaimed } evs :=
  { h with }

/-- The totals that the loops leave alone, but for the BIP30 one. -/
structure SameRewards (s s' : Totals) : Prop where
  subsidy : s'.totalSubsidy = s.totalSubsidy
  genesis : s'.totalUnspendablesGenesisBlock = s.totalUnspendablesGenesisBlock
  bip30 : s'.totalUnspendablesBip30 = s.totalUnspendablesBip30
  unclaimed : s'.totalUnspendablesUnclaimedRewards = s.totalUnspendablesUnclaimedRewards

theorem SameRewards.refl (s : Totals) : SameRewards s s := ⟨rfl, rfl, rfl, rfl⟩

theorem SameRewards.trans {s1 s2 s3 : Totals} (h : SameRewards s1 s2) (h' : SameRewards s2 s3) :
    SameRewards s1 s3 :=
  ⟨h'.subsidy.trans h.subsidy, h'.genesis.trans h.genesis, h'.bip30.trans h.bip30,
    h'.unclaimed.trans h.unclaimed⟩

theorem addAmount_word {x v : Int} (h0 : 0 ≤ v) (h : v < 2 ^ 63) :
    addAmount (word 256 x) v = word 256 (x + v) := by
  have hv : (word 64 v : Int) = v := word_eq h0 (by omega)
  rw [addAmount, hv, word_add]

theorem toAmount_of_range {x : Int} (h0 : 0 ≤ x) (h : x < 2 ^ 63) : toAmount x = .ok x :=
  toAmount_eq_ok.2 ⟨⟨by omega, h⟩, rfl⟩

section
variable {F : Type} [CommGroupWithZero F] {env : IndexEnv F} {evs : List CoinEvent}

def outputEvent (tx : CTransaction) (height : Nat) (out : CTxOut) : CoinEvent :=
  if isUnspendable out.scriptPubKey then .burn out.nValue else .create (newCoin tx height out)

theorem addOutput_tracks (env : IndexEnv F) (tx : CTransaction) (height j : Nat) {out : CTxOut}
    {s : Members F} (h : TracksCoins s.toTotals evs) (hheld : 0 ≤ sumOver (flow coinValue) evs)
    (hburnt : 0 ≤ sumOver burnt evs) (hv : 0 ≤ out.nValue)
    (hroom : sumOver issued evs + out.nValue < 2 ^ 63) :
    ∃ s', env.addOutput tx height j out s = .ok s' ∧
      TracksCoins s'.toTotals (evs ++ [outputEvent tx height out]) ∧
      SameRewards s.toTotals s'.toTotals := by
  rw [sumOver_issued] at hroom
  by_cases hu : isUnspendable out.scriptPubKey = true
  · have hscripts : toAmount (s.totalUnspendablesScripts + out.nValue) =
        .ok (s.totalUnspendablesScripts + out.nValue) :=
      toAmount_of_range (by rw [h.scripts]; omega) (by rw [h.scripts]; omega)
    refine ⟨{ s with totalUnspendablesScripts := s.totalUnspendablesScripts + out.nValue },
      ?_, ?_, ⟨rfl, rfl, rfl, rfl⟩⟩
    · exact (if_pos hu).trans (bind_eq_ok.2 ⟨_, hscripts, rfl⟩)
    · rw [outputEvent, if_pos hu]
      exact {
        count := by simp [flow, h.count]
        bogo := by simp [flow, h.bogo]
        amount := by simp [flow, h.amount]
        spent := by simp [CoinEvent.spent, h.spent]
        newOutputs := by simp [CoinEvent.newOutputs, h.newOutputs]
        coinbase := by simp [CoinEvent.coinbase, h.coinbase]
        scripts := by simp [burnt, h.scripts] }
  · have hamount : toAmount (s.totalAmount + out.nValue) = .ok (s.totalAmount + out.nValue) :=
      toAmount_of_range (by rw [h.amount]; omega) (by rw [h.amount]; omega)
    have hv63 : out.nValue < 2 ^ 63 := by omega
    refine ⟨_, (if_neg hu).trans (bind_eq_ok.2 ⟨_, hamount, rfl⟩), ?_, ⟨rfl, rfl, rfl, rfl⟩⟩
    rw [outputEvent, if_neg hu]
    exact {
      count := by simp [flow, h.count, word_add]
      bogo := by simp [flow, h.bogo, word_add, coinBogoSize, newCoin]
      amount := by simp [flow, h.amount, coinValue, newCoin]
      spent := by simp [CoinEvent.spent, h.spent]
      newOutputs := by
        cases hcb : tx.isCoinBase <;>
          simp [CoinEvent.newOutputs, newCoin, hcb, h.newOutputs, addAmount_word hv hv63]
      coinbase := by
        cases hcb : tx.isCoinBase <;>
          simp [CoinEvent.coinbase, newCoin, hcb, h.coinbase, addAmount_word hv hv63]
      scripts := by simp [burnt, h.scripts] }

def outputEvents (tx : CTransaction) (height : Nat) (vout : List CTxOut) : List CoinEvent :=
  vout.map (outputEvent tx height)

theorem issued_outputEvent (tx : CTransaction) (height : Nat) (out : CTxOut) :
    issued (outputEvent tx height out) = out.nValue := by
  unfold outputEvent
  split <;> rfl

theorem outputEvent_nonneg {out : CTxOut} (hv : 0 ≤ out.nValue) (tx : CTransaction) (height : Nat) :
    0 ≤ flow coinValue (outputEvent tx height out) ∧ 0 ≤ burnt (outputEvent tx height out) := by
  unfold outputEvent
  split
  · exact ⟨Int.le_refl 0, hv⟩
  · exact ⟨hv, Int.le_refl 0⟩

theorem sumOver_issued_outputEvents (tx : CTransaction) (height : Nat) (vout : List CTxOut) :
    sumOver issued (outputEvents tx height vout) = valueSum vout := by
  induction vout with
  | nil => rfl
  | cons out vout ih =>
    rw [outputEvents, map_cons, sumOver_cons, issued_outputEvent, valueSum_cons, ← ih, outputEvents]

theorem addOutputs_tracks {tx : CTransaction} {height j : Nat} {vout : List CTxOut}
    {s : Members F} (h : TracksCoins s.toTotals evs) (hheld : 0 ≤ sumOver (flow coinValue) evs)
    (hburnt : 0 ≤ sumOver burnt evs) (hv : ∀ out ∈ vout, 0 ≤ out.nValue)
    (hroom : sumOver issued evs + valueSum vout < 2 ^ 63) :
    ∃ s', env.addOutputs tx height j vout s = .ok s' ∧
      TracksCoins s'.toTotals (evs ++ outputEvents tx height vout) ∧
      SameRewards s.toTotals s'.toTotals := by
  induction vout generalizing j s evs with
  | nil => exact ⟨s, rfl, by simpa [outputEvents] using h, .refl _⟩
  | cons out vout ih =>
    have hrest : ∀ t ∈ vout, 0 ≤ t.nValue := fun t ht => hv t (mem_cons_of_mem out ht)
    have hsum := valueSum_nonneg hrest
    have hout := hv out (by simp)
    have hev := outputEvent_nonneg hout tx height
    rw [valueSum_cons] at hroom
    obtain ⟨s1, h1, htracks, hsame⟩ :=
      addOutput_tracks env tx height j h hheld hburnt hout (by omega)
    obtain ⟨s', h2, htracks', hsame'⟩ := @ih (evs ++ [outputEvent tx height out]) (j + 1) s1 htracks
      (by rw [sumOver_append, sumOver_cons, sumOver_nil]; omega)
      (by rw [sumOver_append, sumOver_cons, sumOver_nil]; omega) hrest
      (by rw [sumOver_append, sumOver_cons, sumOver_nil, issued_outputEvent]; omega)
    refine ⟨s', bind_eq_ok.2 ⟨s1, h1, h2⟩, ?_, hsame.trans hsame'⟩
    rwa [append_assoc] at htracks'

def undoValue (vprevout : CTxUndo) : Int := (vprevout.map coinValue).sum

@[simp] theorem undoValue_cons (coin : Coin) (vprevout : CTxUndo) :
    undoValue (coin :: vprevout) = coinValue coin + undoValue vprevout := by
  simp [undoValue]

variable {vprevout : CTxUndo}

theorem sumOver_flow_spend (w : Coin → Int) (vprevout : CTxUndo) :
    sumOver (flow w) (vprevout.map .spend) = -(vprevout.map w).sum := by
  induction vprevout with
  | nil => rfl
  | cons coin vprevout ih =>
    rw [map_cons, sumOver_cons, ih, map_cons, sum_cons, flow]
    omega

theorem sumOver_issued_spend (vprevout : CTxUndo) :
    sumOver issued (vprevout.map .spend) = -undoValue vprevout := by
  have hburnt : sumOver burnt (vprevout.map .spend) = 0 := by
    simp [sumOver, burnt, Function.comp_def]
  rw [sumOver_issued, sumOver_flow_spend, hburnt, Int.add_zero, undoValue]

theorem spendPrevout_tracks (env : IndexEnv F) (txin : CTxIn) {coin : Coin} {s : Members F}
    (h : TracksCoins s.toTotals evs) (hv : 0 ≤ coinValue coin)
    (hheld : coinValue coin ≤ sumOver (flow coinValue) evs)
    (hroom : sumOver (flow coinValue) evs < 2 ^ 63) :
    ∃ s', env.spendPrevout txin coin s = .ok s' ∧
      TracksCoins s'.toTotals (evs ++ [.spend coin]) ∧ SameRewards s.toTotals s'.toTotals := by
  have hamount : toAmount (s.totalAmount - coin.out.nValue) =
      .ok (s.totalAmount - coin.out.nValue) :=
    toAmount_of_range (by rw [h.amount]; exact Int.sub_nonneg_of_le hheld)
      (by rw [h.amount]; exact Int.lt_of_le_of_lt (Int.sub_le_self _ hv) hroom)
  have hv63 : coinValue coin < 2 ^ 63 := by omega
  refine ⟨_, bind_eq_ok.2 ⟨_, hamount, rfl⟩, ?_, ⟨rfl, rfl, rfl, rfl⟩⟩
  exact {
    count := by simp [flow, h.count, word_add, sub_eq_add_neg]
    bogo := by simp [flow, h.bogo, word_sub, coinBogoSize, ← sub_eq_add_neg]
    amount := by simp [flow, h.amount, coinValue, sub_eq_add_neg]
    spent := by
      simp only [h.spent, sumOver_append, sumOver_cons, sumOver_nil, CoinEvent.spent, add_zero]
      exact addAmount_word hv hv63
    newOutputs := by simp [CoinEvent.newOutputs, h.newOutputs]
    coinbase := by simp [CoinEvent.coinbase, h.coinbase]
    scripts := by simp [burnt, h.scripts] }

theorem spendPrevouts_tracks {vin : List CTxIn} {s : Members F}
    (h : TracksCoins s.toTotals evs) (hlen : vprevout.length ≤ vin.length)
    (hv : ∀ coin ∈ vprevout, 0 ≤ coinValue coin)
    (hheld : undoValue vprevout ≤ sumOver (flow coinValue) evs)
    (hroom : sumOver (flow coinValue) evs < 2 ^ 63) :
    ∃ s', env.spendPrevouts vin vprevout s = .ok s' ∧
      TracksCoins s'.toTotals (evs ++ vprevout.map .spend) ∧ SameRewards s.toTotals s'.toTotals := by
  induction vprevout generalizing vin s evs with
  | nil =>
    refine ⟨s, ?_, by simpa using h, .refl _⟩
    cases vin <;> rfl
  | cons coin vprevout ih =>
    cases vin with
    | nil => simp at hlen
    | cons txin vin =>
      have hrest : ∀ c ∈ vprevout, 0 ≤ coinValue c :=
        fun c hc => hv c (mem_cons_of_mem coin hc)
      have hcoin := hv coin (by simp)
      have hsum : 0 ≤ undoValue vprevout := sum_nonneg (forall_mem_map.2 hrest)
      rw [undoValue_cons] at hheld
      obtain ⟨s1, h1, htracks, hsame⟩ :=
        spendPrevout_tracks env txin h hcoin (by omega) hroom
      have hflow : sumOver (flow coinValue) (evs ++ [.spend coin]) =
          sumOver (flow coinValue) evs - coinValue coin := by
        rw [sumOver_append, sumOver_cons, sumOver_nil, flow]
        omega
      obtain ⟨s', h2, htracks', hsame'⟩ := @ih (evs ++ [.spend coin]) vin s1 htracks
        (by simpa using hlen) hrest (by omega) (by omega)
      refine ⟨s', bind_eq_ok.2 ⟨s1, h1, h2⟩, ?_, hsame.trans hsame'⟩
      rwa [append_assoc] at htracks'

end

/-! ## The UTXO set -/

noncomputable def utxoCount (m : CoinsMap) : Int := total (fun _ : Coin => 1) m

noncomputable def utxoBogoSize (m : CoinsMap) : Int := total coinBogoSize m

def txEvents (height : Nat) (tx : CTransaction) (txUndo : CTxUndo) : List CoinEvent :=
  outputEvents tx height tx.vout ++ txUndo.map .spend

section
variable {m m' : CoinsMap} {tx : CTransaction} {height : Nat} {txUndo : CTxUndo}

theorem sum_outputWrites (w : Coin → Int) (hash i : Nat) (vout : List CTxOut) :
    ((outputWrites hash (fun out => some (newCoin tx height out)) i vout).map fun x =>
      weight w x.2).sum = sumOver (flow w) (outputEvents tx height vout) := by
  induction vout generalizing i with
  | nil => rfl
  | cons out vout ih =>
    rw [outputEvents, map_cons, sumOver_cons, ← outputEvents, ← ih (i + 1), outputEvent]
    simp only [outputWrites]
    split
    · rw [flow, zero_add]
    · rw [map_cons, sum_cons, weight_some, flow]

theorem total_addWrites (hm : IsFinite m) (hfresh : ∀ x ∈ addWrites tx height, m x.1 = none)
    (w : Coin → Int) :
    total w (write m (addWrites tx height)) =
      total w m + sumOver (flow w) (outputEvents tx height tx.vout) := by
  have hnodup : ((addWrites tx height).map (·.1)).Nodup := outputWrites_nodup
  rw [total_write_fresh hm hnodup hfresh]
  congr 1
  exact sum_outputWrites w tx.hash 0 tx.vout

variable {vin : List CTxIn}

theorem map_weight_prevouts {coins : CTxUndo} (w : Coin → Int)
    (h : List.Forall₂ (fun txin coin => m (CTxIn.prevout txin) = some coin) vin coins) :
    ((vin.map (·.prevout)).map fun o => weight w (m o)) = coins.map w := by
  induction h with
  | nil => rfl
  | cons hcoin _ ih =>
    rw [map_cons, map_cons, map_cons, ih, hcoin, weight_some]

/-- **A connected transaction** changes every total by its events. -/
theorem TxConnected.total_eq (h : TxConnected height m tx txUndo m')
    (hcb : tx.isCoinBase = false) (hm : IsFinite m) (w : Coin → Int) :
    total w m' = total w m + sumOver (flow w) (txEvents height tx txUndo) := by
  obtain ⟨hnodup, hspent⟩ := h.spent hcb
  have hspend : spendWrites tx.vin = (tx.vin.map (·.prevout)).map fun o => (o, none) := by
    simp [spendWrites]
  rw [h.writes, txWrites, hcb, if_neg Bool.false_ne_true, write_append,
    total_addWrites (hm.write _) (h.fresh hcb), hspend, total_erase hm hnodup,
    map_weight_prevouts w hspent, txEvents, sumOver_append, sumOver_flow_spend]
  omega

theorem TxConnected.undo_range (h : TxConnected height m tx txUndo m')
    (hcb : tx.isCoinBase = false) (hm : Valued m) :
    ∀ coin ∈ txUndo, 0 ≤ coinValue coin ∧ coinValue coin ≤ maxMoney := by
  have hspent := (h.spent hcb).2
  clear h
  generalize tx.vin = vin at hspent
  induction hspent with
  | nil => simp
  | cons hcoin _ ih => exact forall_mem_cons.2 ⟨hm.range _ _ hcoin, ih⟩

end

end BitcoinPurity
