import BitcoinPurity.Coins.Refinement
import BitcoinPurity.Lib.Calls

/-!
# Programs over a coins view

The functions of `validation.cpp` that process blocks take a `CCoinsViewCache&` and touch the
UTXO set only through its methods.  They are modelled as programs over those calls, which have
two meanings: on one plain map (`ViewCall.onMap`) and on a stack of caches (`ViewCall.onCache`).

`run_onCache` says that the second one refines the first, for every program; so what is proved
about a function on maps holds of the caches it runs on.
-/

namespace BitcoinPurity

open Calls

/-! ## Algorithm -/

/-- The reject reasons of `CheckBlock`, `CheckTransaction`, `CheckTxInputs` and `ConnectBlock`,
under their texts. -/
inductive RejectReason
  | badBlkLength
  | badCbMissing
  | badCbMultiple
  | badTxnsVinEmpty
  | badTxnsVoutEmpty
  | badTxnsOversize
  | badTxnsVoutNegative
  | badTxnsVoutToolarge
  | badTxnsTxouttotalToolarge
  | badTxnsInputsDuplicate
  | badCbLength
  | badTxnsPrevoutNull
  | badTxnsBIP30
  | badTxnsInputsMissingorspent
  | badTxnsVoutScriptToolarge
  | badTxnsPrematureSpendOfCoinbase
  | badTxnsInputvaluesOutofrange
  | badTxnsInBelowout
  | badTxnsFeeOutofrange
  | badTxnsAccumulatedFeeOutofrange
  | badTxnsNonfinal
  | badBlkSigops
  | badCbAmount
  | scriptVerifyFlagFailed
  | otherBlockCheck
  deriving DecidableEq, Repr

/-- How block processing ends early: the block is invalid, the undo data does not fit
(`DISCONNECT_FAILED`), a block cannot be read, the heads of the database are unknown, the view
throws, `GetValueOut` throws, an assertion fails, or an `int64_t` addition overflows, which is
undefined behaviour. -/
inductive BlockError
  | invalid (reason : RejectReason)
  | disconnectFailed
  | readFailed
  | unknownHeads
  | coins (e : CoinsError)
  | valueOutOfRange
  | assertFailed
  | overflow
  deriving DecidableEq, Repr

/-- The methods of the view that are called. -/
inductive ViewCall
  | haveCoin (o : COutPoint)
  | accessCoin (o : COutPoint)
  | haveInputs (tx : CTransaction)
  | addCoin (o : COutPoint) (coin : Coin) (possibleOverwrite : Bool)
  | spendCoin (o : COutPoint)
  | setBestBlock (hashBlock : Nat)

/-- What they return.  `AccessCoin` and `SpendCoin` can hand out a spent coin; it has the null
output, which is no output of a transaction, and counts as none. -/
abbrev ViewCall.Answer : ViewCall → Type
  | .haveCoin _ => Bool
  | .accessCoin _ => Option Coin
  | .haveInputs _ => Bool
  | .addCoin _ _ _ => Unit
  | .spendCoin _ => Option Coin
  | .setBestBlock _ => Unit

abbrev CoinsProg := Prog ViewCall ViewCall.Answer BlockError

def ViewCall.onMap : Handler ViewCall ViewCall.Answer BlockError CoinsMap
  | .haveCoin o, m => .ok ((m o).isSome, m)
  | .accessCoin o, m => .ok (m o, m)
  | .haveInputs tx, m =>
    .ok (tx.isCoinBase || tx.vin.all fun txin => (m txin.prevout).isSome, m)
  | .addCoin o coin possibleOverwrite, m =>
    if coin.isSpent then .error (.coins .assertFailed)
    else if isUnspendable coin.out.scriptPubKey then .ok ((), m)
    else if !possibleOverwrite && (m o).isSome then .error (.coins .overwriteUnspent)
    else .ok ((), Function.update m o (some coin))
  | .spendCoin o, m => .ok (m o, Function.update m o none)
  | .setBestBlock _, m => .ok ((), m)

def ViewCall.onCache : Handler ViewCall ViewCall.Answer BlockError CoinsStack
  | .haveCoin o, s => .ok (s.haveCoin o)
  | .accessCoin o, s => .ok ((s.accessCoin o).1.unspent, (s.accessCoin o).2)
  | .haveInputs tx, s => .ok (s.haveInputs tx)
  | .addCoin o coin possibleOverwrite, s =>
    match s.top.addCoin o coin possibleOverwrite with
    | .ok top => .ok ((), { s with top })
    | .error e => .error (.coins e)
  | .spendCoin o, s => .ok ((s.spendCoin o).1.bind Coin.unspent, (s.spendCoin o).2)
  | .setBestBlock hashBlock, s => .ok ((), { s with top := { s.top with hashBlock } })

variable (o : COutPoint)

def haveCoin : CoinsProg Bool := .ask (ViewCall.haveCoin o)

def accessCoin : CoinsProg (Option Coin) := .ask (ViewCall.accessCoin o)

def haveInputs (tx : CTransaction) : CoinsProg Bool := .ask (ViewCall.haveInputs tx)

def addCoin (coin : Coin) (possibleOverwrite : Bool) : CoinsProg Unit :=
  .ask (ViewCall.addCoin o coin possibleOverwrite)

def spendCoin : CoinsProg (Option Coin) := .ask (ViewCall.spendCoin o)

def setBestBlock (hashBlock : Nat) : CoinsProg Unit := .ask (ViewCall.setBestBlock hashBlock)

abbrev onMap {α : Type} (p : CoinsProg α) (m : CoinsMap) : Except BlockError (α × CoinsMap) :=
  p.run ViewCall.onMap m

abbrev onCache {α : Type} (p : CoinsProg α) (s : CoinsStack) : Except BlockError (α × CoinsStack) :=
  p.run ViewCall.onCache s

/-! ## Lemmas -/

section
variable (m : CoinsMap) (o : COutPoint)

@[simp] theorem onMap_haveCoin : onMap (haveCoin o) m = .ok ((m o).isSome, m) := rfl

@[simp] theorem onMap_spendCoin : onMap (spendCoin o) m = .ok (m o, Function.update m o none) := rfl

@[simp] theorem onMap_setBestBlock (hashBlock : Nat) :
    onMap (setBestBlock hashBlock) m = .ok ((), m) := rfl

theorem onMap_addCoin (coin : Coin) (possibleOverwrite : Bool) :
    onMap (addCoin o coin possibleOverwrite) m = if coin.isSpent then .error (.coins .assertFailed)
      else if isUnspendable coin.out.scriptPubKey then .ok ((), m)
      else if !possibleOverwrite && (m o).isSome then .error (.coins .overwriteUnspent)
      else .ok ((), Function.update m o (some coin)) :=
  run_ask (ViewCall.addCoin o coin possibleOverwrite)

end

theorem onMap_addCoin_eq_ok {m : CoinsMap} {o : COutPoint} {coin : Coin}
    {possibleOverwrite : Bool} {r : Unit × CoinsMap} :
    onMap (addCoin o coin possibleOverwrite) m = .ok r ↔ coin.isSpent = false ∧
        (isUnspendable coin.out.scriptPubKey ∧ r.2 = m ∨
          isUnspendable coin.out.scriptPubKey = false ∧ (possibleOverwrite ∨ m o = none) ∧
            r.2 = Function.update m o (some coin)) := by
  rw [onMap_addCoin]
  cases hs : coin.isSpent with
  | true => simp
  | false =>
    cases hu : isUnspendable coin.out.scriptPubKey with
    | true => simp [Prod.ext_iff, eq_comm]
    | false =>
      cases possibleOverwrite with
      | true => simp [Prod.ext_iff, eq_comm]
      | false =>
        cases hm : m o with
        | none => simp [Prod.ext_iff, eq_comm]
        | some c => simp

/-! Programs that only read leave the map as it is. -/

def ReadsOnly {α : Type} (p : CoinsProg α) : Prop := ∀ m r, onMap p m = .ok r → r.2 = m

namespace ReadsOnly
variable {α β : Type}

theorem pure (a : α) : ReadsOnly (Pure.pure a) := by
  intro m r h
  cases h
  rfl

theorem bind {p : CoinsProg α} {f : α → CoinsProg β} (hp : ReadsOnly p)
    (hf : ∀ a, ReadsOnly (f a)) : ReadsOnly (p >>= f) := by
  intro m r h
  obtain ⟨a, m', h1, h2⟩ := run_bind_ok.1 h
  rw [hf a m' r h2]
  exact hp m (a, m') h1

theorem ofExcept (x : Except BlockError α) : ReadsOnly (.ofExcept x) :=
  fun _ _ h => (run_ofExcept_eq_ok.1 h).2

theorem stopIf (c : Bool) (e : BlockError) : ReadsOnly (.stopIf c e) :=
  fun _ _ h => (run_stopIf_eq_ok.1 h).2

theorem getOr (e : BlockError) (x : Option α) : ReadsOnly (.getOr e x) :=
  fun _ _ h => (run_getOr_eq_ok.1 h).2

theorem haveCoin (o : COutPoint) : ReadsOnly (haveCoin o) := by
  intro m r h
  cases h
  rfl

theorem accessCoin (o : COutPoint) : ReadsOnly (accessCoin o) := by
  intro m r h
  cases h
  rfl

theorem haveInputs (tx : CTransaction) : ReadsOnly (haveInputs tx) := by
  intro m r h
  cases h
  rfl

end ReadsOnly

/-- A consistent stack of caches that shows the map. -/
def Shows (m : CoinsMap) (s : CoinsStack) : Prop := Consistent s.view ∧ s.view.visible = m

theorem ViewCall.onCache_simulates (c : ViewCall) {m m' : CoinsMap} {s : CoinsStack}
    {out : c.Answer} (h : Shows m s) (hr : c.onMap m = .ok (out, m')) :
    ∃ s', c.onCache s = .ok (out, s') ∧ Shows m' s' := by
  obtain ⟨hc, rfl⟩ := h
  cases c with
  | haveCoin o =>
    cases hr
    obtain ⟨s', h1, h2, h3, -⟩ := @CoinsOp.run_refines s hc (.haveCoin o) trivial
    simp only [CoinsOp.run, CoinsOp.answer, Except.ok.injEq, Prod.mk.injEq,
      CoinsOutput.bool.injEq] at h1
    obtain ⟨h1, rfl⟩ := h1
    exact ⟨_, by rw [← h1]; rfl, h2, h3⟩
  | accessCoin o =>
    cases hr
    obtain ⟨s', h1, h2, h3, -⟩ := @CoinsOp.run_refines s hc (.accessCoin o) trivial
    simp only [CoinsOp.run, CoinsOp.answer, Except.ok.injEq, Prod.mk.injEq,
      CoinsOutput.coin.injEq] at h1
    obtain ⟨h1, rfl⟩ := h1
    exact ⟨_, by rw [← h1]; rfl, h2, h3⟩
  | haveInputs tx =>
    cases hr
    obtain ⟨s', h1, h2, h3, -⟩ := @CoinsOp.run_refines s hc (.haveInputs tx) trivial
    simp only [CoinsOp.run, CoinsOp.answer, Except.ok.injEq, Prod.mk.injEq,
      CoinsOutput.bool.injEq] at h1
    obtain ⟨h1, rfl⟩ := h1
    exact ⟨_, by rw [← h1]; rfl, h2, h3⟩
  | addCoin o coin possibleOverwrite =>
    have hadd : Prog.run onMap (BitcoinPurity.addCoin o coin possibleOverwrite) s.view.visible =
        .ok (out, m') := by
      rw [← hr]
      exact run_ask (ViewCall.addCoin o coin possibleOverwrite)
    rw [onMap_addCoin_eq_ok] at hadd
    obtain ⟨hs, ⟨hu, hm⟩ | ⟨hu, hnew, hm⟩⟩ := hadd
    · refine ⟨s, ?_, hc, hm.symm⟩
      simp [onCache, CCoinsViewCache.addCoin, hs, hu]
    · have hnew' : possibleOverwrite = false → s.view.visible o = none := by
        intro hp
        exact hnew.resolve_left (by simp [hp])
      obtain ⟨top, h1, h2, h3⟩ := addCoin_spec hc hs hnew'
      refine ⟨{ s with top }, by simp [onCache, h1], h2, ?_⟩
      rw [show CoinsStack.view { s with top } = .cache top s.base from rfl, h3]
      simp only at hm
      simp [CoinsOp.apply, hu, hm]
  | spendCoin o =>
    cases hr
    obtain ⟨s', h1, h2, h3, -⟩ := @CoinsOp.run_refines s hc (.spendCoin o) trivial
    simp only [CoinsOp.run, CoinsOp.answer, Except.ok.injEq, Prod.mk.injEq,
      CoinsOutput.coin.injEq] at h1
    obtain ⟨h1, rfl⟩ := h1
    exact ⟨_, by rw [← h1]; rfl, h2, h3⟩
  | setBestBlock hashBlock =>
    cases hr
    exact ⟨{ s with top := { s.top with hashBlock } }, rfl, ⟨hc.1, hc.2.setHash hashBlock⟩, rfl⟩

/-- **Programs on caches refine programs on maps**: what succeeds on the map succeeds on every
consistent stack that shows it, with the same result. -/
theorem run_onCache {α : Type} (p : CoinsProg α) {m m' : CoinsMap} {s : CoinsStack} {a : α}
    (h : Shows m s) (hr : onMap p m = .ok (a, m')) :
    ∃ s', onCache p s = .ok (a, s') ∧ Shows m' s' :=
  run_simulates (fun c _ _ _ _ hR hc => c.onCache_simulates hR hc) p h hr

/-! The base of a stack of one cache is only read. -/

section
variable {s : CoinsStack} {coins : CoinsMap} {hashBlock : Nat}

theorem CoinsStack.fetchCoin_base (h : s.base = .base coins hashBlock) (o : COutPoint) :
    (s.fetchCoin o).base = .base coins hashBlock := by
  unfold fetchCoin
  split
  · exact h
  · simp [h, CoinsView.getCoin]

theorem CoinsStack.haveAll_base (h : s.base = .base coins hashBlock) (os : List COutPoint) :
    (s.haveAll os).2.base = .base coins hashBlock := by
  induction os generalizing s with
  | nil => exact h
  | cons o os ih =>
    unfold haveAll
    have hf : (s.haveCoin o).2.base = .base coins hashBlock := fetchCoin_base h o
    grind

theorem ViewCall.onCache_base (c : ViewCall) {r : c.Answer × CoinsStack}
    (h : s.base = .base coins hashBlock) (hr : c.onCache s = .ok r) :
    r.2.base = .base coins hashBlock := by
  cases c with
  | haveCoin o =>
    cases hr
    exact CoinsStack.fetchCoin_base h o
  | accessCoin o =>
    cases hr
    exact CoinsStack.fetchCoin_base h o
  | haveInputs tx =>
    cases hr
    unfold CoinsStack.haveInputs
    split
    · exact h
    · exact CoinsStack.haveAll_base h _
  | addCoin o coin possibleOverwrite =>
    simp only [onCache] at hr
    split at hr
    · cases hr
      exact h
    · cases hr
  | spendCoin o =>
    cases hr
    simp only [CoinsStack.spendCoin]
    cases (s.fetchCoin o).top.cacheCoins o with
    | none => exact CoinsStack.fetchCoin_base h o
    | some e => exact CoinsStack.fetchCoin_base h o
  | setBestBlock hash =>
    cases hr
    exact h

end

end BitcoinPurity
