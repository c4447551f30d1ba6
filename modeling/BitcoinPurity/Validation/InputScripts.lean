import BitcoinPurity.Lib.Runs
import BitcoinPurity.Primitives.Transaction
import BitcoinPurity.Script.SoftFork
import BitcoinPurity.Versionbits.Signaling

/-!
# The script execution cache

`CheckInputScripts` of `validation.cpp` with the cache of successful script executions, and its
callers: the mempool, which checks all inputs under one set of flags, and `ConnectBlock`, which
relaxes the flags of the inputs that spend coins older than the RDTS boundary.  The cache is
keyed by the wtxid and the *unrelaxed* flags.

`checkInputScripts_transparent`: after any sequence of calls, erasures and evictions, a call
without `pvChecks` succeeds exactly when every input passes `VerifyScript` under its own flags.
A hit is sound because only results obtained under one set of flags are stored, and because the
relaxed flags are a subset of them (`verifyScript_tightens`).
-/

namespace BitcoinPurity

open Tighten List

/-! ## Algorithm -/

def mandatoryScriptVerifyFlags : ScriptFlags :=
  scriptVerifyP2SH ||| scriptVerifyDerSig ||| scriptVerifyNullDummy |||
    scriptVerifyCheckLockTimeVerify ||| scriptVerifyCheckSequenceVerify ||| scriptVerifyWitness |||
    scriptVerifyTaproot

def standardScriptVerifyFlags : ScriptFlags :=
  mandatoryScriptVerifyFlags ||| scriptVerifyStrictEnc ||| scriptVerifyMinimalData |||
    scriptVerifyDiscourageUpgradableNops ||| scriptVerifyCleanStack ||| scriptVerifyMinimalIf |||
    scriptVerifyNullFail ||| scriptVerifyLowS ||| scriptVerifyDiscourageUpgradableWitnessProgram |||
    scriptVerifyWitnessPubkeyType ||| scriptVerifyConstScriptCode |||
    scriptVerifyDiscourageUpgradableTaprootVersion ||| scriptVerifyDiscourageOpSuccess |||
    scriptVerifyDiscourageUpgradablePubkeyType ||| reducedDataMandatoryVerifyFlags

def standardNotMandatoryVerifyFlags : ScriptFlags :=
  standardScriptVerifyFlags &&& ~~~mandatoryScriptVerifyFlags

/-- The functions the checks rest on: the signature checker of an input, given the outputs the
transaction spends, and the salted hash that makes a cache key. -/
structure ScriptEnv where
  crypto : Crypto
  checker : CTransaction → (nIn : Nat) → (spentOutputs : List CTxOut) → BaseSignatureChecker
  cacheKey : (wtxid : Nat) → ScriptFlags → Nat

/-- A check of one input that is still to run. -/
structure CScriptCheck where
  txOut : CTxOut
  tx : CTransaction
  nIn : Nat
  nFlags : ScriptFlags
  spentOutputs : List CTxOut

def CScriptCheck.run (env : ScriptEnv) (check : CScriptCheck) : Result Unit :=
  let txin := check.tx.vin.getD check.nIn default
  verifyScript env.crypto (env.checker check.tx check.nIn check.spentOutputs) check.nFlags
    txin.scriptSig check.txOut.scriptPubKey (some txin.scriptWitness)

/-- The cuckoo cache as the set of its entries and of those it may drop first.  An entry is
dropped by an eviction only, which may happen at any time. -/
structure ScriptCache where
  table : List Nat := []
  erasable : List Nat := []

section

variable (cache : ScriptCache) (key : Nat)

/-- `contains`, with its request to erase a matched entry. -/
def ScriptCache.contains (erase : Bool) : Bool × ScriptCache :=
  if key ∈ cache.table then
    (true, if erase then { cache with erasable := key :: cache.erasable } else cache)
  else (false, cache)

def ScriptCache.insert : ScriptCache :=
  { table := key :: cache.table, erasable := cache.erasable.filter (· ≠ key) }

def ScriptCache.evict : ScriptCache :=
  { cache with table := cache.table.filter (· ≠ key) }

end

inductive TxValidationResult
  | txConsensus | txNotStandard
  deriving DecidableEq, Repr

/-- The return value of `CheckInputScripts` with the `state` it sets. -/
inductive CheckResult
  | valid
  | invalid (result : TxValidationResult) (e : ScriptError)
  deriving DecidableEq, Repr

/-- The arguments of a call; `txdata` holds the spent outputs if they are ready. -/
structure ScriptCall where
  tx : CTransaction
  inputs : COutPoint → Option Coin
  flags : ScriptFlags
  cacheFullScriptStore : Bool
  txdata : Option (List CTxOut)
  pvChecks : Bool
  flagsPerInput : List ScriptFlags

/-- The flags of input `i`: `flags_per_input[i]` when given, `flags` otherwise. -/
def ScriptCall.effectiveFlags (call : ScriptCall) (i : Nat) : ScriptFlags :=
  if call.flagsPerInput.isEmpty then call.flags else call.flagsPerInput.getD i 0

/-- The outputs of the coins being spent; a spent coin fails the assertion. -/
def ScriptCall.spentOutputs (call : ScriptCall) : Option (List CTxOut) :=
  match call.txdata with
  | some outs => some outs
  | none => call.tx.vin.mapM fun txin => (call.inputs txin.prevout).map (·.out)

def ScriptCall.checks (call : ScriptCall) (outs : List CTxOut) : List CScriptCheck :=
  (List.range call.tx.vin.length).map fun i =>
    { txOut := outs.getD i default, tx := call.tx, nIn := i, nFlags := call.effectiveFlags i
      spentOutputs := outs }

/-- Run the checks in order, up to the first failure.  A failed assertion gives no result. -/
def runChecks (env : ScriptEnv) : List CScriptCheck → Option CheckResult
  | [] => some .valid
  | check :: checks =>
    match check.run env with
    | .ok () => runChecks env checks
    | .error (.script e) =>
      if hasFlag check.nFlags standardNotMandatoryVerifyFlags then some (.invalid .txNotStandard e)
      else some (.invalid .txConsensus e)
    | .error .abort => none

section

variable (env : ScriptEnv) (call : ScriptCall)

def ScriptCall.key : Nat :=
  env.cacheKey call.tx.witnessHash call.flags

/-- What `CheckInputScripts` does once the cache has missed: the result, the cache, and the
checks pushed onto `pvChecks`. -/
def checkUncached (cache : ScriptCache) : Option (CheckResult × ScriptCache × List CScriptCheck) :=
  match call.spentOutputs with
  | none => none
  | some outs =>
    if outs.length ≠ call.tx.vin.length then none
    else if ¬ (call.flagsPerInput.isEmpty ∨ call.flagsPerInput.length = call.tx.vin.length) then none
    else if call.pvChecks then some (.valid, cache, call.checks outs)
    else
      match runChecks env (call.checks outs) with
      | none => none
      | some .valid =>
        some (.valid, if call.cacheFullScriptStore ∧ call.flagsPerInput.isEmpty
          then cache.insert (call.key env) else cache, [])
      | some r => some (r, cache, [])

def checkInputScripts (cache : ScriptCache) :
    Option (CheckResult × ScriptCache × List CScriptCheck) :=
  if call.tx.isCoinBase then some (.valid, cache, [])
  else
    let (hit, cache) := cache.contains (call.key env) (!call.cacheFullScriptStore)
    if hit then some (.valid, cache, []) else checkUncached env call cache

end

/-- The flags that remain for an input that spends a coin older than the RDTS boundary. -/
def relaxedFlags (flags : ScriptFlags) : ScriptFlags := flags &&& ~~~reducedDataMandatoryVerifyFlags

/-- The loop of `ConnectBlock` over the heights of the spent coins, from input `j` on. -/
def flagsPerInputLoop (flags : ScriptFlags) (startHeight : Int) (n : Nat) :
    List Int → Nat → List ScriptFlags → List ScriptFlags
  | [], _, acc => acc
  | h :: hs, j, acc =>
    flagsPerInputLoop flags startHeight n hs (j + 1)
      (if h < startHeight then
        (acc ++ List.replicate (n - acc.length) flags).set j (relaxedFlags flags)
      else acc)

/-- `view.AccessCoin(prevout).nHeight` for each input; a missing coin reads as height 0. -/
def prevHeights (tx : CTransaction) (view : COutPoint → Option Coin) : List Int :=
  tx.vin.map fun txin => ((view txin.prevout).map fun coin => (coin.nHeight : Int)).getD 0

/-- A step of the node that touches the cache. -/
inductive CacheStep
  /-- A mempool check, under policy flags or under those of the next block. -/
  | mempool (tx : CTransaction) (view : COutPoint → Option Coin) (flags : ScriptFlags)
      (cacheFullScriptStore : Bool) (txdata : Option (List CTxOut))
  /-- The check of a transaction in `ConnectBlock` for a block after `pindexPrev`. -/
  | block (params : DeploymentParams) (pindexPrev : BlockPtr) (tx : CTransaction)
      (view : COutPoint → Option Coin) (flags : ScriptFlags) (fJustCheck parallel : Bool)
  /-- The cache makes room. -/
  | evict (key : Nat)

def CacheStep.call : CacheStep → Option ScriptCall
  | .mempool tx view flags store txdata =>
    some { tx, inputs := view, flags, cacheFullScriptStore := store, txdata, pvChecks := false
           flagsPerInput := [] }
  | .block params pindexPrev tx view flags fJustCheck parallel =>
    some { tx, inputs := view, flags, cacheFullScriptStore := fJustCheck, txdata := none
           pvChecks := parallel
           flagsPerInput := flagsPerInputLoop flags
             (getReducedDataGrandfatherHeight params pindexPrev) tx.vin.length
             (prevHeights tx view) 0 [] }
  | .evict _ => none

def CacheStep.run (env : ScriptEnv) (step : CacheStep) (cache : ScriptCache) : Option ScriptCache :=
  match step with
  | .evict key => some (cache.evict key)
  | step => step.call.bind fun call => (checkInputScripts env call cache).map (·.2.1)

/-! ## Flags of the inputs -/

/-- Before input `j`: either no input so far was relaxed and no list was made, or the list has
an entry for every input and the relaxed ones are those before `j` below the boundary. -/
def PerInputInv (flags : ScriptFlags) (startHeight : Int) (heights : List Int) (j : Nat)
    (acc : List ScriptFlags) : Prop :=
  (acc = [] ∧ ∀ i < j, ¬ heights.getD i 0 < startHeight) ∨
    (acc.length = heights.length ∧ ∀ i < heights.length,
      acc.getD i 0 = if i < j ∧ heights.getD i 0 < startHeight then relaxedFlags flags else flags)

variable {flags : ScriptFlags} {env : ScriptEnv} {outOf : COutPoint → CTxOut}

theorem PerInputInv.step {startHeight : Int} {heights : List Int} {j : Nat}
    {acc : List ScriptFlags} (hj : j < heights.length)
    (hinv : PerInputInv flags startHeight heights j acc) :
    PerInputInv flags startHeight heights (j + 1) (if heights.getD j 0 < startHeight then
        (acc ++ replicate (heights.length - acc.length) flags).set j (relaxedFlags flags)
      else acc) := by
  split
  next hlow =>
    refine .inr ⟨?_, fun i hi => ?_⟩
    · rcases hinv with ⟨rfl, -⟩ | ⟨hlen, -⟩
      · simp
      · simp [hlen]
    · by_cases hij : i = j
      · grind
      · rcases hinv with ⟨rfl, hhigh⟩ | ⟨hlen, hacc⟩
        · grind
        · grind
  next hlow =>
    rcases hinv with ⟨rfl, hhigh⟩ | ⟨hlen, hacc⟩
    · refine .inl ⟨rfl, fun i hi => ?_⟩
      grind
    refine .inr ⟨hlen, fun i hi => ?_⟩
    grind

theorem flagsPerInputLoop_inv (flags : ScriptFlags) (startHeight : Int) (heights hs : List Int)
    (j : Nat) (acc : List ScriptFlags) (hdrop : heights.drop j = hs)
    (hinv : PerInputInv flags startHeight heights j acc) :
    ∃ j', heights.length ≤ j' ∧ PerInputInv flags startHeight heights j'
      (flagsPerInputLoop flags startHeight heights.length hs j acc) := by
  induction hs generalizing j acc with
  | nil => exact ⟨j, drop_eq_nil_iff.1 hdrop, hinv⟩
  | cons h hs ih =>
    have hj : j < heights.length := by
      by_contra hge
      rw [drop_eq_nil_of_le (by omega)] at hdrop
      cases hdrop
    have hget : heights.getD j 0 = h := by
      have := congrArg head? hdrop
      rw [head?_drop] at this
      simp [this]
    have hdrop' : heights.drop (j + 1) = hs := by
      rw [← tail_drop, hdrop, tail_cons]
    have hstep := hinv.step hj
    rw [hget] at hstep
    exact ih (j + 1) _ hdrop' hstep

/-- What the proof needs to know of a call's flags: a list of the right length, and every input
under the flags of the call or their relaxation. -/
structure Relaxes (call : ScriptCall) : Prop where
  length : call.flagsPerInput.isEmpty ∨ call.flagsPerInput.length = call.tx.vin.length
  effective : ∀ i < call.tx.vin.length,
    call.effectiveFlags i = call.flags ∨ call.effectiveFlags i = relaxedFlags call.flags

theorem CacheStep.call_relaxes {step : CacheStep} {call : ScriptCall}
    (h : step.call = some call) : Relaxes call := by
  cases step with
  | evict key => cases h
  | mempool tx view flags store txdata =>
    cases h
    exact ⟨.inl rfl, fun _ _ => .inl rfl⟩
  | block params pindexPrev tx view flags fJustCheck parallel =>
    cases h
    have hlen : (prevHeights tx view).length = tx.vin.length := by simp [prevHeights]
    obtain ⟨j, hj, hinv⟩ := flagsPerInputLoop_inv flags
      (getReducedDataGrandfatherHeight params pindexPrev) (prevHeights tx view)
      (prevHeights tx view) 0 [] rfl (.inl ⟨rfl, fun i hi => absurd hi (by omega)⟩)
    rw [hlen] at hinv
    rcases hinv with ⟨hnil, -⟩ | ⟨hl, hget⟩
    · constructor
      · simp [hnil]
      · simp [ScriptCall.effectiveFlags, hnil]
    rw [hlen] at hl hget
    refine ⟨.inr hl, fun i hi => ?_⟩
    have hne : (flagsPerInputLoop flags (getReducedDataGrandfatherHeight params pindexPrev)
        tx.vin.length (prevHeights tx view) 0 []).isEmpty = false := by grind
    simp only [ScriptCall.effectiveFlags, hne, Bool.false_eq_true, if_false]
    grind

theorem relaxedFlags_coherent (h : CoherentFlags flags) : CoherentFlags (relaxedFlags flags) := by
  have hp : hasFlag (relaxedFlags flags) scriptVerifyP2SH = hasFlag flags scriptVerifyP2SH :=
    hasFlag_mask (by decide)
  have hw : hasFlag (relaxedFlags flags) scriptVerifyWitness = hasFlag flags scriptVerifyWitness :=
    hasFlag_mask (by decide)
  have hc : hasFlag (relaxedFlags flags) scriptVerifyCleanStack =
      hasFlag flags scriptVerifyCleanStack :=
    hasFlag_mask (by decide)
  constructor
  · rw [hp, hw]
    exact h.witness
  · rw [hp, hw, hc]
    exact h.cleanStack

/-! ## Soundness of the cache -/

/-- The outputs that the prevouts of a transaction commit to. -/
def committedOutputs (outOf : COutPoint → CTxOut) (tx : CTransaction) : List CTxOut :=
  tx.vin.map fun txin => outOf txin.prevout

/-- Every coin the call spends is there and has the output its outpoint commits to. -/
structure Committed (outOf : COutPoint → CTxOut) (call : ScriptCall) : Prop where
  inputs : ∀ txin ∈ call.tx.vin, ∃ coin, call.inputs txin.prevout = some coin ∧
    coin.out = outOf txin.prevout
  txdata : ∀ outs, call.txdata = some outs → outs = committedOutputs outOf call.tx

/-- Input `i` passes `VerifyScript` under the given flags. -/
def InputPasses (env : ScriptEnv) (outOf : COutPoint → CTxOut) (tx : CTransaction)
    (flags : ScriptFlags) (i : Nat) : Prop :=
  CScriptCheck.run env
    { txOut := (committedOutputs outOf tx).getD i default, tx, nIn := i, nFlags := flags
      spentOutputs := committedOutputs outOf tx } = .ok ()

theorem mapM_eq_some_map {α β : Type} {f : α → Option β} {g : α → β} {l : List α}
    (h : ∀ a ∈ l, f a = some (g a)) : l.mapM f = some (l.map g) := by
  induction l with
  | nil => rfl
  | cons a l ih => grind

theorem Committed.spentOutputs {call : ScriptCall}
    (h : Committed outOf call) : call.spentOutputs = some (committedOutputs outOf call.tx) := by
  unfold ScriptCall.spentOutputs
  cases htx : call.txdata with
  | some outs => simp only [h.txdata outs htx]
  | none =>
    refine mapM_eq_some_map fun txin hmem => ?_
    obtain ⟨coin, hcoin, hout⟩ := h.inputs txin hmem
    simp [hcoin, hout]

theorem runChecks_valid_iff {checks : List CScriptCheck} :
    runChecks env checks = some .valid ↔ ∀ check ∈ checks, check.run env = .ok () := by
  induction checks with
  | nil => simp [runChecks]
  | cons check checks ih =>
    simp only [runChecks, forall_mem_cons]
    grind

theorem ScriptCache.contains_table (cache : ScriptCache) (key : Nat) (erase : Bool) :
    (cache.contains key erase).2.table = cache.table := by
  unfold ScriptCache.contains
  by_cases hk : key ∈ cache.table
  · cases erase <;> simp [hk]
  · simp [hk]

theorem runChecks_checks_iff {call : ScriptCall} :
    runChecks env (call.checks (committedOutputs outOf call.tx)) = some .valid ↔
      ∀ i < call.tx.vin.length, InputPasses env outOf call.tx (call.effectiveFlags i) i := by
  rw [runChecks_valid_iff]
  simp [ScriptCall.checks, InputPasses]

/-- No two of the calls have the same cache key unless they have the same transaction and
flags. -/
def NoCollision (env : ScriptEnv) (calls : List ScriptCall) : Prop :=
  ∀ c ∈ calls, ∀ c' ∈ calls, c.key env = c'.key env → c.tx = c'.tx ∧ c.flags = c'.flags

/-- Every entry is the key of one of the calls, whose transaction passes under its flags. -/
def Sound (env : ScriptEnv) (outOf : COutPoint → CTxOut) (calls : List ScriptCall)
    (cache : ScriptCache) : Prop :=
  ∀ key ∈ cache.table, ∃ c ∈ calls, key = c.key env ∧
    ∀ i < c.tx.vin.length, InputPasses env outOf c.tx c.flags i

section

variable {env : ScriptEnv} {outOf : COutPoint → CTxOut} {calls : List ScriptCall}
  {call : ScriptCall} {cache : ScriptCache}

theorem Sound.hit (hs : Sound env outOf calls cache) (hno : NoCollision env calls)
    (hmem : call ∈ calls) (hrel : Relaxes call) (hkey : call.key env ∈ cache.table) :
    ∀ i < call.tx.vin.length, InputPasses env outOf call.tx (call.effectiveFlags i) i := by
  intro i hi
  obtain ⟨c, hc, hck, hpass⟩ := hs _ hkey
  obtain ⟨htx, hflags⟩ := hno call hmem c hc hck
  have hstrict : InputPasses env outOf call.tx call.flags i := by
    rw [htx, hflags]
    exact hpass i (htx ▸ hi)
  rcases hrel.effective i hi with he | he
  · rwa [he]
  · rw [he]
    exact verifyScript_tightens (FlagsSubset.of_mask _ _) _ _ _
      (relaxedFlags_coherent (coherent_of_verifyScript hstrict)) () hstrict

theorem checkInputScripts_eq (hcom : Committed outOf call) (hrel : Relaxes call) :
    checkInputScripts env call cache = if call.tx.isCoinBase then some (.valid, cache, [])
      else if call.key env ∈ cache.table then
        some (.valid, (cache.contains (call.key env) (!call.cacheFullScriptStore)).2, [])
      else if call.pvChecks then
        some (.valid, cache, call.checks (committedOutputs outOf call.tx))
      else match runChecks env (call.checks (committedOutputs outOf call.tx)) with
        | none => none
        | some .valid =>
          some (.valid, if call.cacheFullScriptStore ∧ call.flagsPerInput.isEmpty
            then cache.insert (call.key env) else cache, [])
        | some r => some (r, cache, []) := by
  have hlen : (committedOutputs outOf call.tx).length = call.tx.vin.length := by
    simp [committedOutputs]
  unfold checkInputScripts
  by_cases hcb : call.tx.isCoinBase
  · simp [hcb]
  by_cases hkey : call.key env ∈ cache.table
  · simp [ScriptCache.contains, hkey]
  · simp only [ScriptCache.contains, hkey, checkUncached, hcom.spentOutputs, hlen, hrel.length]
    simp

section
variable (hs : Sound env outOf calls cache)
include hs

theorem Sound.valid_iff (hno : NoCollision env calls)
    (hmem : call ∈ calls) (hcom : Committed outOf call) (hrel : Relaxes call)
    (hpv : call.pvChecks = false) :
    (∃ r, checkInputScripts env call cache = some (.valid, r)) ↔ call.tx.isCoinBase ∨
        ∀ i < call.tx.vin.length, InputPasses env outOf call.tx (call.effectiveFlags i) i := by
  rw [checkInputScripts_eq hcom hrel]
  by_cases hcb : call.tx.isCoinBase
  · simp [hcb]
  by_cases hkey : call.key env ∈ cache.table
  · have hpass := hs.hit hno hmem hrel hkey
    simp only [hcb, hkey, Bool.false_eq_true, false_or]
    exact ⟨fun _ => hpass, fun _ => ⟨_, rfl⟩⟩
  rw [← @runChecks_checks_iff env outOf]
  simp only [hcb, hkey, hpv, Bool.false_eq_true, if_false, false_or]
  constructor
  · grind
  · intro hval
    simp [hval]

/-- **Step**: a call keeps the cache sound, since it stores only what it has just run under one
set of flags. -/
theorem Sound.checkInputScripts (hmem : call ∈ calls)
    (hcom : Committed outOf call) (hrel : Relaxes call) {r : CheckResult} {cache' : ScriptCache}
    {checks : List CScriptCheck} (h : checkInputScripts env call cache = some (r, cache', checks)) :
    Sound env outOf calls cache' := by
  rw [checkInputScripts_eq hcom hrel] at h
  split at h
  · cases h
    exact hs
  split at h
  · cases h
    show ∀ key ∈ (cache.contains _ _).2.table, _
    rw [ScriptCache.contains_table]
    exact hs
  split at h
  · cases h
    exact hs
  split at h
  · cases h
  next hval =>
    cases h
    split
    next hstore =>
      intro key hkey
      rcases mem_cons.1 hkey with rfl | hkey
      · refine ⟨call, hmem, rfl, fun i hi => ?_⟩
        have hpass := runChecks_checks_iff.1 hval i hi
        simpa [ScriptCall.effectiveFlags, hstore.2] using hpass
      · exact hs key hkey
    · exact hs
  · cases h
    exact hs

theorem Sound.evict (key : Nat) : Sound env outOf calls (cache.evict key) :=
  fun k hk => hs k (mem_filter.1 hk).1

end

end

/-! ## Top theorem -/

/-- **The cache is transparent**: after any completed sequence of steps from an empty cache, in
which keys do not collide and outpoints commit to their outputs, a call without `pvChecks`
succeeds exactly when every input passes under its effective flags.  (A coinbase has no script
to check.) -/
theorem checkInputScripts_transparent (env : ScriptEnv) (outOf : COutPoint → CTxOut)
    (steps : List CacheStep) (cache : ScriptCache)
    (hrun : Runs.runAll (CacheStep.run env) steps {} = some cache)
    (last : CacheStep) (call : ScriptCall) (hcall : last.call = some call)
    (hno : NoCollision env ((steps ++ [last]).filterMap CacheStep.call))
    (hcom : ∀ c ∈ (steps ++ [last]).filterMap CacheStep.call, Committed outOf c)
    (hpv : call.pvChecks = false) :
    (∃ r, checkInputScripts env call cache = some (.valid, r)) ↔ call.tx.isCoinBase ∨
        ∀ i < call.tx.vin.length, InputPasses env outOf call.tx (call.effectiveFlags i) i := by
  have hmem : ∀ step ∈ steps ++ [last], ∀ c, step.call = some c →
      c ∈ (steps ++ [last]).filterMap CacheStep.call :=
    fun step hs c hc => mem_filterMap.2 ⟨step, hs, hc⟩
  have hsound : Sound env outOf ((steps ++ [last]).filterMap CacheStep.call) cache := by
    refine Runs.runAll_invariant hrun (fun key hkey => by cases hkey) ?_
    intro step hstep s s' hs hrun'
    have hin : step ∈ steps ++ [last] := mem_append_left _ hstep
    -- only an eviction makes no call
    cases hc : step.call with
    | none =>
      cases step with
      | evict key =>
        cases hrun'
        exact hs.evict key
      | mempool => cases hc
      | block => cases hc
    | some c =>
      have hrun' : (checkInputScripts env c s).map (·.2.1) = some s' := by
        cases step with
        | evict key => cases hc
        | mempool =>
          cases hc
          exact hrun'
        | block =>
          cases hc
          exact hrun'
      obtain ⟨⟨r, cache', checks⟩, hcheck, rfl⟩ := Option.map_eq_some_iff.1 hrun'
      have hc' := hmem step hin c hc
      exact hs.checkInputScripts hc' (hcom c hc') (CacheStep.call_relaxes hc) hcheck
  have hlast := hmem last (by simp) call hcall
  exact hsound.valid_iff hno hlast (hcom call hlast) (CacheStep.call_relaxes hcall) hpv

def anyoneCoin : Coin := { out := ⟨1, [op1]⟩, fCoinBase := false, nHeight := 5 }

def anyoneSpend : CTransaction :=
  { vin := [{ prevout := ⟨7, 0⟩ }], vout := [], hash := 8, witnessHash := 9 }

def sampleEnv : ScriptEnv where
  crypto := sampleCrypto
  checker _ _ _ := sampleChecker
  cacheKey wtxid flags := wtxid * 2 ^ 32 + flags.toNat

def grandfatherParams : DeploymentParams where
  nRuleChangeActivationThreshold := 2
  nMinerConfirmationWindow := 2
  vDeployments _ := {}
  nPurityActivationHeight := 0
  nReducedDataGrandfatherHeight := 10
  nReducedDataGrandfatherFixHeight := 0

def rdtsFlags : ScriptFlags :=
  scriptVerifyP2SH ||| scriptVerifyWitness ||| reducedDataMandatoryVerifyFlags

/-- The mempool stores the spend under the strict flags; the block check of its exempt input
hits that entry, and the input passes under the relaxed flags. -/
theorem checkInputScripts_transparent_grandfathered :
    InputPasses sampleEnv (fun _ => anyoneCoin.out) anyoneSpend (relaxedFlags rdtsFlags) 0 := by
  have hpass := (checkInputScripts_transparent sampleEnv (fun _ => anyoneCoin.out)
    [.mempool anyoneSpend (fun _ => some anyoneCoin) rdtsFlags true none]
    { table := [sampleEnv.cacheKey 9 rdtsFlags] } (by rfl)
    (.block grandfatherParams [] anyoneSpend (fun _ => some anyoneCoin) rdtsFlags false false)
    _ rfl ?_ ?_ rfl).1 ⟨_, by rfl⟩
  · rcases hpass with hcb | hpass
    · exact absurd hcb (by decide)
    · exact hpass 0 (by decide)
  · intro c hc c' hc' _
    simp only [cons_append, nil_append, filterMap_cons, filterMap_nil,
      CacheStep.call, mem_cons, not_mem_nil, or_false] at hc hc'
    rcases hc with rfl | rfl <;> rcases hc' with rfl | rfl <;> exact ⟨rfl, rfl⟩
  · intro c hc
    simp only [cons_append, nil_append, filterMap_cons, filterMap_nil,
      CacheStep.call, mem_cons, not_mem_nil, or_false] at hc
    rcases hc with rfl | rfl
    · exact ⟨fun txin _ => ⟨anyoneCoin, rfl, rfl⟩, fun outs h => by cases h⟩
    · exact ⟨fun txin _ => ⟨anyoneCoin, rfl, rfl⟩, fun outs h => by cases h⟩

end BitcoinPurity
