import BitcoinPurity.Primitives.Transaction

/-!
# The coins cache

`CCoinsViewCache` of `coins.cpp`: a layer of cached coins with `DIRTY` and `FRESH` flags over
another view, which is again such a layer or the base.  Reading through a layer fills it and the
layers below (`FetchCoin`); `Sync` and `Flush` hand the flagged entries to `BatchWrite` of the
view below.

A map is a function, and the linked list of flagged entries is the list of their outpoints in
the order in which they were flagged.  The base is a map of unspent coins that writes dirty
entries as `CCoinsViewDB::BatchWrite` does.
-/

namespace BitcoinPurity

/-! ## Algorithm -/

abbrev CoinsMap := COutPoint → Option Coin

structure CCoinsCacheEntry where
  coin : Coin
  dirty : Bool := false
  fresh : Bool := false
  deriving DecidableEq, Repr

def CCoinsCacheEntry.unspent (e : CCoinsCacheEntry) : Option Coin := e.coin.unspent

/-- On the linked list of the cache. -/
def CCoinsCacheEntry.isFlagged (e : CCoinsCacheEntry) : Bool := e.dirty || e.fresh

structure CCoinsViewCache where
  cacheCoins : COutPoint → Option CCoinsCacheEntry := fun _ => none
  flagged : List COutPoint := []
  hashBlock : Nat := 0

/-- A stack of caches over a base. -/
inductive CoinsView
  | base (coins : CoinsMap) (hashBlock : Nat)
  | cache (c : CCoinsViewCache) (base : CoinsView)

/-- The exceptions and the assertion of `coins.cpp`. -/
inductive CoinsError
  | overwriteUnspent
  | freshMisapplied
  | notAllCleared
  | assertFailed
  deriving DecidableEq, Repr

namespace CCoinsViewCache

variable (c : CCoinsViewCache)

variable (o : COutPoint)

/-- Write an entry.  `AddFlags` links it at the end of the list if it was not on it, and
`SetClean` unlinks it. -/
def put (e : CCoinsCacheEntry) : CCoinsViewCache :=
  { c with
    cacheCoins := Function.update c.cacheCoins o (some e)
    flagged := if e.isFlagged then (if o ∈ c.flagged then c.flagged else c.flagged ++ [o])
      else c.flagged.erase o }

/-- Erase an entry; its destructor unlinks it. -/
def erase : CCoinsViewCache :=
  { c with cacheCoins := Function.update c.cacheCoins o none, flagged := c.flagged.erase o }

/-- The rest of `FetchCoin` once the base has answered for an outpoint not in the cache. -/
def fill : Option Coin → CCoinsViewCache
  | none => c
  | some coin => c.put o { coin, fresh := coin.isSpent }

def flaggedEntries : List (COutPoint × CCoinsCacheEntry) :=
  c.flagged.filterMap fun o => (c.cacheCoins o).map (o, ·)

/-- One round of the loop of `CCoinsViewCache::BatchWrite`, for the child's entry `it`. -/
def batchWriteEntry (us : CCoinsViewCache) (o : COutPoint) (it : CCoinsCacheEntry) :
    Except CoinsError CCoinsViewCache :=
  if it.dirty then
    match us.cacheCoins o with
    | none =>
      if it.fresh && it.coin.isSpent then .ok us
      else .ok (us.put o { coin := it.coin, dirty := true, fresh := it.fresh })
    | some itUs =>
      if it.fresh && !itUs.coin.isSpent then .error .freshMisapplied
      else if itUs.fresh && it.coin.isSpent then .ok (us.erase o)
      else .ok (us.put o { itUs with coin := it.coin, dirty := true })
  else .ok us

section

variable (c : CCoinsViewCache) (o : COutPoint)

/-- `NextAndMaybeErase` of a cursor that will not erase the whole map. -/
def nextAndMaybeErase : CCoinsViewCache :=
  match c.cacheCoins o with
  | none => c
  | some e => if e.coin.isSpent then c.erase o else c.put o { coin := e.coin }

def addCoin (coin : Coin) (possibleOverwrite : Bool) : Except CoinsError CCoinsViewCache :=
  if coin.isSpent then .error .assertFailed
  else if isUnspendable coin.out.scriptPubKey then .ok c
  else
    let e := (c.cacheCoins o).getD { coin := .empty }
    if !possibleOverwrite && !e.coin.isSpent then .error .overwriteUnspent
    else
      -- a spent coin that is dirty has not been flushed yet, so it cannot become fresh
      .ok (c.put o { coin, dirty := true, fresh := e.fresh || !possibleOverwrite && !e.dirty })

def uncache : CCoinsViewCache :=
  match c.cacheCoins o with
  | none => c
  | some e => if e.dirty || e.fresh then c else c.erase o

end

end CCoinsViewCache

namespace CoinsView

/-- `GetCoin`, which fills every layer it passes through. -/
def getCoin : CoinsView → COutPoint → Option Coin × CoinsView
  | .base coins hashBlock, o => (coins o, .base coins hashBlock)
  | .cache c below, o =>
    match c.cacheCoins o with
    | some e => (e.unspent, .cache c below)
    | none =>
      let r := below.getCoin o
      let c := c.fill o r.1
      ((c.cacheCoins o).bind (·.unspent), .cache c r.2)

/-- `BatchWrite` of the flagged entries of a child. -/
def batchWrite (v : CoinsView) (entries : List (COutPoint × CCoinsCacheEntry))
    (hashBlock : Nat) : Except CoinsError CoinsView :=
  match v with
  | .base coins _ =>
    .ok (.base (entries.foldl (fun coins it =>
      if it.2.dirty then Function.update coins it.1 it.2.unspent else coins) coins) hashBlock)
  | .cache c below => do
    let c ← entries.foldlM (fun c it => c.batchWriteEntry it.1 it.2) c
    .ok (.cache { c with hashBlock } below)

end CoinsView

/-- A cache with the view it rests on: the object whose methods are called. -/
structure CoinsStack where
  top : CCoinsViewCache
  base : CoinsView

namespace CoinsStack

variable (s : CoinsStack)

def view : CoinsView := .cache s.top s.base

def onTop (v : CoinsView) : CoinsStack := { top := {}, base := v }

section

variable (s : CoinsStack) (o : COutPoint)

/-- `FetchCoin`; the iterator it returns is the entry of the new cache. -/
def fetchCoin : CoinsStack :=
  match s.top.cacheCoins o with
  | some _ => s
  | none =>
    let r := s.base.getCoin o
    { top := s.top.fill o r.1, base := r.2 }

def getCoin : Option Coin × CoinsStack :=
  let s := s.fetchCoin o
  ((s.top.cacheCoins o).bind (·.unspent), s)

/-- `AccessCoin`, which may return a spent coin. -/
def accessCoin : Coin × CoinsStack :=
  let s := s.fetchCoin o
  (((s.top.cacheCoins o).map (·.coin)).getD .empty, s)

def haveCoin : Bool × CoinsStack :=
  let s := s.fetchCoin o
  (((s.top.cacheCoins o).bind (·.unspent)).isSome, s)

end

def haveAll (s : CoinsStack) : List COutPoint → Bool × CoinsStack
  | [] => (true, s)
  | o :: os =>
    let r := s.haveCoin o
    if r.1 then r.2.haveAll os else (false, r.2)

def haveInputs (tx : CTransaction) : Bool × CoinsStack :=
  if tx.isCoinBase then (true, s) else s.haveAll (tx.vin.map (·.prevout))

/-- `SpendCoin`: the coin moved out, if the call returns true. -/
def spendCoin (o : COutPoint) : Option Coin × CoinsStack :=
  let s := s.fetchCoin o
  match s.top.cacheCoins o with
  | none => (none, s)
  | some e =>
    (some e.coin, { s with
      top := if e.fresh then s.top.erase o
        else s.top.put o { e with coin := .empty, dirty := true } })

def flush : Except CoinsError CoinsStack := do
  let base ← s.base.batchWrite s.top.flaggedEntries s.top.hashBlock
  .ok { top := { hashBlock := s.top.hashBlock }, base }

def sync : Except CoinsError CoinsStack := do
  let base ← s.base.batchWrite s.top.flaggedEntries s.top.hashBlock
  let top := s.top.flagged.foldl CCoinsViewCache.nextAndMaybeErase s.top
  if top.flagged.isEmpty then .ok { top, base } else .error .notAllCleared

end CoinsStack

/-! ## Lemmas -/

namespace CCoinsViewCache

section

variable (c : CCoinsViewCache) (o : COutPoint)

@[simp] theorem put_cacheCoins (e : CCoinsCacheEntry) :
    (c.put o e).cacheCoins = Function.update c.cacheCoins o (some e) := rfl

@[simp] theorem erase_cacheCoins :
    (c.erase o).cacheCoins = Function.update c.cacheCoins o none := rfl

@[simp] theorem erase_flagged : (c.erase o).flagged = c.flagged.erase o := rfl

end

theorem mem_put_flagged {c : CCoinsViewCache} (hc : c.flagged.Nodup) {o o' : COutPoint}
    {e : CCoinsCacheEntry} :
    o' ∈ (c.put o e).flagged ↔ if o' = o then e.isFlagged = true else o' ∈ c.flagged := by
  unfold put
  grind

theorem put_nodup {c : CCoinsViewCache} (hc : c.flagged.Nodup) (o : COutPoint)
    (e : CCoinsCacheEntry) : (c.put o e).flagged.Nodup := by
  unfold put
  grind

end CCoinsViewCache

end BitcoinPurity
