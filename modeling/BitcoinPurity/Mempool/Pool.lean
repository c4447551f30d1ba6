import Mathlib.Algebra.BigOperators.Group.Finset.Basic
import BitcoinPurity.Chain.Index
import BitcoinPurity.Lib.Explore
import BitcoinPurity.Primitives.Transaction

/-!
# The memory pool

`CTxMemPool` of `txmempool.cpp`: its entries with their links to parents and children and the
totals over ancestors and descendants that every entry caches, and the operations that keep them up
to date.

An iterator into `mapTx` is the txid of its entry, and a `setEntries` a finite set of txids, which
is run through in their order.  Sums of fees, sizes and signature operations are exact: runs in
which an addition saturates or overflows are not modelled.  An operation is `none` when an
assertion fails, when it uses an iterator to an entry that is not there, or when a loop does not
end.
-/

namespace BitcoinPurity

open Each Explore Function

/-- `LockPoints`; `[]` for a null `maxInputBlock`. -/
structure LockPoints where
  height : Int := 0
  time : Int := 0
  maxInputBlock : BlockPtr := []
  deriving DecidableEq, Repr

/-- `CTxMemPoolEntry`.  `txSize` is `GetTxSize()`. -/
structure CTxMemPoolEntry where
  tx : CTransaction
  nFee : Int
  nTxWeight : Int
  txSize : Int
  size_pos : 0 < txSize
  sigOpCost : Int
  sigOp_nonneg : 0 ≤ sigOpCost
  nTime : Int
  spendsCoinbase : Bool
  lockPoints : LockPoints
  modifiedFee : Int
  parents : Finset Nat
  children : Finset Nat
  countWithDescendants : Int
  sizeWithDescendants : Int
  modFeesWithDescendants : Int
  countWithAncestors : Int
  sizeWithAncestors : Int
  modFeesWithAncestors : Int
  sigOpCostWithAncestors : Int
  idxRandomized : Nat

namespace CTxMemPoolEntry

def make (tx : CTransaction) (fee nTxWeight txSize sigOpCost time : Int) (spendsCoinbase : Bool)
    (lp : LockPoints) (size_pos : 0 < txSize) (sigOp_nonneg : 0 ≤ sigOpCost) : CTxMemPoolEntry where
  tx := tx
  nFee := fee
  nTxWeight := nTxWeight
  txSize := txSize
  size_pos := size_pos
  sigOpCost := sigOpCost
  sigOp_nonneg := sigOp_nonneg
  nTime := time
  spendsCoinbase := spendsCoinbase
  lockPoints := lp
  modifiedFee := fee
  parents := ∅
  children := ∅
  countWithDescendants := 1
  sizeWithDescendants := txSize
  modFeesWithDescendants := fee
  countWithAncestors := 1
  sizeWithAncestors := txSize
  modFeesWithAncestors := fee
  sigOpCostWithAncestors := sigOpCost
  idxRandomized := 0

instance : Inhabited CTxMemPoolEntry :=
  ⟨make default 0 0 1 0 0 false {} (by decide) (by decide)⟩

def inputs (e : CTxMemPoolEntry) : List COutPoint := e.tx.vin.map CTxIn.prevout

section

variable (modifySize modifyFee modifyCount : Int) (e : CTxMemPoolEntry)

/-- `UpdateDescendantState`, but for its assertions. -/
def addDescendantState : CTxMemPoolEntry :=
  { e with
    sizeWithDescendants := e.sizeWithDescendants + modifySize
    modFeesWithDescendants := e.modFeesWithDescendants + modifyFee
    countWithDescendants := e.countWithDescendants + modifyCount }

def updateDescendantState : Option CTxMemPoolEntry :=
  let e := e.addDescendantState modifySize modifyFee modifyCount
  if 0 < e.sizeWithDescendants ∧ 0 < e.countWithDescendants then some e else none

end

/-- `UpdateAncestorState`, but for its assertions. -/
def addAncestorState (modifySize modifyFee modifyCount modifySigOps : Int)
    (e : CTxMemPoolEntry) : CTxMemPoolEntry :=
  { e with
    sizeWithAncestors := e.sizeWithAncestors + modifySize
    modFeesWithAncestors := e.modFeesWithAncestors + modifyFee
    countWithAncestors := e.countWithAncestors + modifyCount
    sigOpCostWithAncestors := e.sigOpCostWithAncestors + modifySigOps }

def updateAncestorState (modifySize modifyFee modifyCount modifySigOps : Int)
    (e : CTxMemPoolEntry) : Option CTxMemPoolEntry :=
  let e := e.addAncestorState modifySize modifyFee modifyCount modifySigOps
  if 0 < e.sizeWithAncestors ∧ 0 < e.countWithAncestors ∧ 0 ≤ e.sigOpCostWithAncestors then some e
  else none

def updateModifiedFee (feeDiff : Int) (e : CTxMemPoolEntry) : CTxMemPoolEntry :=
  { e with
    modFeesWithDescendants := e.modFeesWithDescendants + feeDiff
    modFeesWithAncestors := e.modFeesWithAncestors + feeDiff
    modifiedFee := e.modifiedFee + feeDiff }

end CTxMemPoolEntry

/-- `MemPoolLimits`; `none` stands for the largest `int64_t`. -/
structure MemPoolLimits where
  ancestorCount : Option Int
  ancestorSizeVbytes : Option Int
  descendantCount : Option Int
  descendantSizeVbytes : Option Int
  deriving DecidableEq, Repr

def MemPoolLimits.noLimits : MemPoolLimits := ⟨none, none, none, none⟩

/-- `amount > limit` -/
def exceeds (amount : Int) (limit : Option Int) : Bool := limit.any fun l => decide (l < amount)

/-- Why `CalculateMemPoolAncestors` fails. -/
inductive AncestorError
  | descendantSize (txid : Nat)
  | tooManyDescendants (txid : Nat)
  | ancestorSize
  | tooManyAncestors
  | tooManyParents
  deriving DecidableEq, Repr

/-- The entries of a `CTxMemPool` and what it keeps about them.  `mapTx` has the txids and `entry`
what is stored for each of them; a `CTransaction*` in `mapNextTx` is its txid. -/
structure CTxMemPool where
  mapTx : Finset Nat := ∅
  entry : Nat → CTxMemPoolEntry := fun _ => default
  mapNextTx : List (COutPoint × Nat) := []
  mapDeltas : Nat → Int := fun _ => 0
  totalTxSize : Int := 0
  totalFee : Int := 0
  txnsRandomized : List Nat := []

namespace CTxMemPool

/-! ## Looking up and modifying -/

variable (pool : CTxMemPool)

def spender (prevout : COutPoint) : Option Nat :=
  (pool.mapNextTx.find? fun next => next.1 == prevout).map Prod.snd

def setEntry (x : Nat) (e : CTxMemPoolEntry) (pool : CTxMemPool) : CTxMemPool :=
  { pool with entry := update pool.entry x e }

def modify (x : Nat) (f : CTxMemPoolEntry → Option CTxMemPoolEntry) (pool : CTxMemPool) :
    Option CTxMemPool :=
  if x ∈ pool.mapTx then (f (pool.entry x)).map fun e => pool.setEntry x e else none

def modifyEach (s : Finset Nat) (f : CTxMemPoolEntry → Option CTxMemPoolEntry)
    (pool : CTxMemPool) : Option CTxMemPool :=
  forEach s (fun x => modify x f) pool

def updateChild (entry child : Nat) (add : Bool) (pool : CTxMemPool) : Option CTxMemPool :=
  pool.modify entry fun e =>
    some { e with children := if add then insert child e.children else e.children.erase child }

def updateParent (entry parent : Nat) (add : Bool) (pool : CTxMemPool) : Option CTxMemPool :=
  pool.modify entry fun e =>
    some { e with parents := if add then insert parent e.parents else e.parents.erase parent }

/-! ## Ancestors and descendants -/

def calculateDescendants (x : Nat) (setDescendants : Finset Nat) : Option (Finset Nat) :=
  explore (fun y => (pool.entry y).children) pool.mapTx.card
    (if x ∈ setDescendants then ∅ else {x}) setDescendants

def calculateAllDescendants (s : Finset Nat) : Option (Finset Nat) :=
  forEach s (fun x stage => pool.calculateDescendants x stage) ∅

def ancestorsLoop (pool : CTxMemPool) (entrySize entryCount : Int) (limits : MemPoolLimits) :
    Nat → Int → Finset Nat → Finset Nat → Option (Except AncestorError (Finset Nat))
  | 0, _, staged, ancestors => if staged = ∅ then some (.ok ancestors) else none
  | fuel + 1, totalSizeWithAncestors, staged, ancestors =>
    if h : staged.Nonempty then
      let x := staged.min' h
      let e := pool.entry x
      let totalSizeWithAncestors := totalSizeWithAncestors + e.txSize
      if exceeds (e.sizeWithDescendants + entrySize) limits.descendantSizeVbytes then
        some (.error (.descendantSize x))
      else if exceeds (e.countWithDescendants + entryCount) limits.descendantCount then
        some (.error (.tooManyDescendants x))
      else if exceeds totalSizeWithAncestors limits.ancestorSizeVbytes then
        some (.error .ancestorSize)
      else
        let ancestors := insert x ancestors
        let staged := staged.erase x ∪ (e.parents \ ancestors)
        -- both sets only grow over the parents, so the last check of the inner loop decides
        if e.parents.Nonempty ∧
            exceeds (staged.card + ancestors.card + entryCount) limits.ancestorCount then
          some (.error .tooManyAncestors)
        else ancestorsLoop pool entrySize entryCount limits fuel totalSizeWithAncestors staged
          ancestors
    else some (.ok ancestors)

section

variable (pool : CTxMemPool) (e : CTxMemPoolEntry)

def findParents : Finset Nat :=
  (e.inputs.map COutPoint.hash).toFinset ∩ pool.mapTx

def calculateMemPoolAncestors (limits : MemPoolLimits)
    (fSearchForParents : Bool) : Option (Except AncestorError (Finset Nat)) :=
  let staged := if fSearchForParents then pool.findParents e else e.parents
  if fSearchForParents ∧ staged.Nonempty ∧ exceeds (staged.card + 1) limits.ancestorCount then
    some (.error .tooManyParents)
  else pool.ancestorsLoop e.txSize 1 limits pool.mapTx.card e.txSize staged ∅

/-- `AssumeCalculateMemPoolAncestors`, with no limits. -/
def assumeCalculateMemPoolAncestors (fSearchForParents : Bool) : Option (Finset Nat) :=
  match pool.calculateMemPoolAncestors e .noLimits fSearchForParents with
  | some (.ok ancestors) => some ancestors
  | some (.error _) => some ∅
  | none => none

end

/-! ## Adding -/

def updateAncestorsOf (add : Bool) (it : Nat) (setAncestors : Finset Nat) (pool : CTxMemPool) :
    Option CTxMemPool := do
  let e := pool.entry it
  let updateCount : Int := if add then 1 else -1
  let pool ← forEach e.parents (fun parent => updateChild parent it add) pool
  pool.modifyEach setAncestors
    (CTxMemPoolEntry.updateDescendantState (updateCount * e.txSize) (updateCount * e.modifiedFee)
      updateCount)

def updateEntryForAncestors (it : Nat) (setAncestors : Finset Nat) (pool : CTxMemPool) :
    Option CTxMemPool :=
  pool.modify it (CTxMemPoolEntry.updateAncestorState
    (∑ a ∈ setAncestors, (pool.entry a).txSize)
    (∑ a ∈ setAncestors, (pool.entry a).modifiedFee)
    setAncestors.card
    (∑ a ∈ setAncestors, (pool.entry a).sigOpCost))

/-- `mapNextTx.insert`: a key that is there keeps its value. -/
def insertNext (next : List (COutPoint × Nat)) (prevout : COutPoint) (txid : Nat) :
    List (COutPoint × Nat) :=
  if next.any fun n => n.1 == prevout then next else (prevout, txid) :: next

variable (e : CTxMemPoolEntry)

/-- `mapTx.insert` of a new entry. -/
def splice (pool : CTxMemPool) : CTxMemPool :=
  { pool with
    mapTx := insert e.tx.hash pool.mapTx
    entry := update pool.entry e.tx.hash e }

/-- `addNewTransaction`, of an entry that is in `mapTx`. -/
def addNewTransaction (newit : Nat) (setAncestors : Finset Nat) (pool : CTxMemPool) :
    Option CTxMemPool := do
  let e := pool.entry newit
  let pool := { pool with
    mapNextTx := e.inputs.foldl (fun next prevout => insertNext next prevout newit) pool.mapNextTx }
  let pool ← forEach (pool.findParents e) (fun parent => updateParent newit parent true) pool
  let pool ← pool.updateAncestorsOf true newit setAncestors
  let pool ← pool.updateEntryForAncestors newit setAncestors
  return { pool with
    totalTxSize := pool.totalTxSize + e.txSize
    totalFee := pool.totalFee + e.nFee
    txnsRandomized := pool.txnsRandomized ++ [newit]
    entry := update pool.entry newit
      { pool.entry newit with idxRandomized := pool.txnsRandomized.length } }

/-! ## Removing -/

def updateChildrenForRemoval (it : Nat) (pool : CTxMemPool) : Option CTxMemPool :=
  forEach (pool.entry it).children (fun child => updateParent child it false) pool

def updateDescendantsForRemoval (removeIt : Nat) (pool : CTxMemPool) : Option CTxMemPool := do
  let setDescendants ← pool.calculateDescendants removeIt ∅
  let e := pool.entry removeIt
  pool.modifyEach (setDescendants.erase removeIt)
    (CTxMemPoolEntry.updateAncestorState (-e.txSize) (-e.modifiedFee) (-1) (-e.sigOpCost))

def updateAncestorsForRemoval (removeIt : Nat) (pool : CTxMemPool) : Option CTxMemPool := do
  let ancestors ← pool.assumeCalculateMemPoolAncestors (pool.entry removeIt) false
  pool.updateAncestorsOf false removeIt ancestors

def updateForRemoveFromMempool (entriesToRemove : Finset Nat) (updateDescendants : Bool)
    (pool : CTxMemPool) : Option CTxMemPool := do
  let pool ←
    if updateDescendants then forEach entriesToRemove updateDescendantsForRemoval pool
    else some pool
  let pool ← forEach entriesToRemove updateAncestorsForRemoval pool
  forEach entriesToRemove updateChildrenForRemoval pool

/-- The entry is taken out of `txns_randomized`, where the last one takes its place. -/
def unrandomize (it : Nat) (pool : CTxMemPool) : Option CTxMemPool :=
  match pool.txnsRandomized.getLast? with
  | some back =>
    if 1 < pool.txnsRandomized.length then
      let idx := (pool.entry it).idxRandomized
      if back ∈ pool.mapTx ∧ idx < pool.txnsRandomized.length then
        some { pool with
          entry := update pool.entry back { pool.entry back with idxRandomized := idx }
          txnsRandomized := (pool.txnsRandomized.set idx back).dropLast }
      else none
    else some { pool with txnsRandomized := [] }
  | none => some { pool with txnsRandomized := [] }

def removeUnchecked (it : Nat) (pool : CTxMemPool) : Option CTxMemPool :=
  if it ∈ pool.mapTx then do
    let e := pool.entry it
    let pool ← pool.unrandomize it
    return { pool with
      mapNextTx := pool.mapNextTx.filter fun next => !e.inputs.contains next.1
      totalTxSize := pool.totalTxSize - e.txSize
      totalFee := pool.totalFee - e.nFee
      mapTx := pool.mapTx.erase it }
  else none

def removeStaged (stage : Finset Nat) (updateDescendants : Bool) (pool : CTxMemPool) :
    Option CTxMemPool := do
  let pool ← pool.updateForRemoveFromMempool stage updateDescendants
  forEach stage removeUnchecked pool

/-- The entries that spend an output of the transaction, by the number of the output. -/
def spendersOf (tx : CTransaction) : Finset Nat :=
  ((List.range tx.vout.length).filterMap fun n => pool.spender ⟨tx.hash, n⟩).toFinset

def removeRecursive (origTx : CTransaction) (pool : CTxMemPool) : Option CTxMemPool := do
  let txToRemove := if origTx.hash ∈ pool.mapTx then {origTx.hash} else pool.spendersOf origTx
  -- the assertion that `mapNextTx` has entries of `mapTx` only
  if txToRemove ⊆ pool.mapTx then do
    let setAllRemoves ← pool.calculateAllDescendants txToRemove
    pool.removeStaged setAllRemoves false
  else none

def clearPrioritisation (hash : Nat) (pool : CTxMemPool) : CTxMemPool :=
  { pool with mapDeltas := update pool.mapDeltas hash 0 }

/-- The part of the loop of `removeConflicts` for one input. -/
def removeConflict (tx : CTransaction) (prevout : COutPoint) (pool : CTxMemPool) :
    Option CTxMemPool :=
  match pool.spender prevout with
  | some hash =>
    let txConflict := (pool.entry hash).tx
    if txConflict.witnessHash ≠ tx.witnessHash then
      (pool.clearPrioritisation txConflict.hash).removeRecursive txConflict
    else some pool
  | none => some pool

def removeConflicts (tx : CTransaction) (pool : CTxMemPool) : Option CTxMemPool :=
  (tx.vin.map CTxIn.prevout).foldlM (fun pool prevout => pool.removeConflict tx prevout) pool

/-- The part of the loop of `removeForBlock` for one transaction. -/
def removeBlockTx (tx : CTransaction) (pool : CTxMemPool) : Option CTxMemPool := do
  let pool ← if tx.hash ∈ pool.mapTx then pool.removeStaged {tx.hash} true else some pool
  let pool ← pool.removeConflicts tx
  return pool.clearPrioritisation tx.hash

/-- `removeForBlock`; the test for an empty pool only saves time. -/
def removeForBlock (vtx : List CTransaction) (pool : CTxMemPool) : Option CTxMemPool :=
  vtx.foldlM (fun pool tx => pool.removeBlockTx tx) pool

def expire (time : Int) (pool : CTxMemPool) : Option CTxMemPool := do
  let toremove := pool.mapTx.filter fun x => (pool.entry x).nTime < time
  let stage ← pool.calculateAllDescendants toremove
  pool.removeStaged stage false

/-- What `TrimToSize` reads of the pool besides its entries: whether it uses more memory than the
limit, and the entry at the beginning of the index by descendant score. -/
structure TrimEnv where
  above : CTxMemPool → Bool
  worst : (pool : CTxMemPool) → pool.mapTx.Nonempty → { x : Nat // x ∈ pool.mapTx }

/-- The inputs of removed transactions whose previous transaction is not in the pool. -/
def noSpendsRemaining (txn : List CTxMemPoolEntry) : List COutPoint :=
  txn.flatMap fun e => e.inputs.filter fun prevout => decide (prevout.hash ∉ pool.mapTx)

def trimLoop (env : TrimEnv) : Nat → CTxMemPool → List COutPoint →
    Option (CTxMemPool × List COutPoint)
  | fuel, pool, pvNoSpendsRemaining =>
    if h : pool.mapTx.Nonempty then
      if env.above pool then
        match fuel with
        | 0 => none
        | fuel + 1 => do
          let stage ← pool.calculateDescendants (env.worst pool h) ∅
          let txn := (ascending stage.card stage).map pool.entry
          let pool ← pool.removeStaged stage false
          trimLoop env fuel pool (pvNoSpendsRemaining ++ pool.noSpendsRemaining txn)
      else some (pool, pvNoSpendsRemaining)
    else some (pool, pvNoSpendsRemaining)

def trimToSize (env : TrimEnv) (pool : CTxMemPool) : Option (CTxMemPool × List COutPoint) :=
  trimLoop env pool.mapTx.card pool []

/-! ## Prioritisation -/

/-- `PrioritiseTransaction`, with the fee delta only. -/
def prioritiseTransaction (hash : Nat) (nFeeDelta : Int) (pool : CTxMemPool) : Option CTxMemPool :=
  let pool := { pool with
    mapDeltas := update pool.mapDeltas hash (pool.mapDeltas hash + nFeeDelta) }
  if hash ∈ pool.mapTx then do
    let pool ← pool.modify hash fun e => some (e.updateModifiedFee nFeeDelta)
    let ancestors ← pool.assumeCalculateMemPoolAncestors (pool.entry hash) false
    let pool ← pool.modifyEach ancestors (CTxMemPoolEntry.updateDescendantState 0 nFeeDelta 0)
    let setDescendants ← pool.calculateDescendants hash ∅
    pool.modifyEach (setDescendants.erase hash)
      (CTxMemPoolEntry.updateAncestorState 0 nFeeDelta 0 0)
  else some pool

/-! ## Change sets -/

/-- `CTxMemPool::ChangeSet`: the entries to add in their order, and what `m_ancestors` has for the
first of them. -/
structure ChangeSet where
  toRemove : Finset Nat := ∅
  entryVec : List CTxMemPoolEntry := []
  ancestors : Option (Finset Nat) := none

/-- Add an entry whose ancestors are calculated once it is in `mapTx`. -/
def applyEntry (pool : CTxMemPool) : Option CTxMemPool := do
  let pool := pool.splice e
  let ancestors ← pool.assumeCalculateMemPoolAncestors e true
  pool.addNewTransaction e.tx.hash ancestors

def apply (changeset : ChangeSet) (pool : CTxMemPool) : Option CTxMemPool := do
  let pool ← pool.removeStaged changeset.toRemove false
  match changeset.entryVec with
  | [] => some pool
  | e :: entryVec => do
    let ancestors ←
      match changeset.ancestors with
      | some ancestors => some ancestors
      | none => pool.assumeCalculateMemPoolAncestors e true
    let pool ← (pool.splice e).addNewTransaction e.tx.hash ancestors
    entryVec.foldlM (fun pool e => pool.applyEntry e) pool

/-! ## Transactions of disconnected blocks -/

/-- The state of `UpdateTransactionsFromBlock`: the pool, `mapMemPoolDescendantsToUpdate` and
`descendants_to_remove`. -/
structure BlockUpdate where
  pool : CTxMemPool
  cachedDescendants : Nat → Option (Finset Nat) := fun _ => none
  descendantsToRemove : Finset Nat := ∅

variable (limits : MemPoolLimits)

def updateForDescendants (setExclude : Finset Nat) (updateIt : Nat)
    (u : BlockUpdate) : Option BlockUpdate := do
  let e := u.pool.entry updateIt
  let all ← exploreCached (fun x => (u.pool.entry x).children) u.cachedDescendants
    u.pool.mapTx.card e.children ∅
  let descendants := all \ setExclude
  let modifySize := ∑ d ∈ descendants, (u.pool.entry d).txSize
  let modifyFee := ∑ d ∈ descendants, (u.pool.entry d).modifiedFee
  let pool ← u.pool.modifyEach descendants
    (CTxMemPoolEntry.updateAncestorState e.txSize e.modifiedFee 1 e.sigOpCost)
  let overLimit := descendants.filter fun d =>
    exceeds (pool.entry d).countWithAncestors limits.ancestorCount ||
      exceeds (pool.entry d).sizeWithAncestors limits.ancestorSizeVbytes
  let pool ← pool.modify updateIt
    (CTxMemPoolEntry.updateDescendantState modifySize modifyFee descendants.card)
  return {
    pool := pool
    cachedDescendants :=
      if descendants = ∅ then u.cachedDescendants
      else update u.cachedDescendants updateIt
        (some ((u.cachedDescendants updateIt).getD ∅ ∪ descendants))
    descendantsToRemove := u.descendantsToRemove ∪ overLimit }

/-- The entries that spend outputs of a transaction, by `mapNextTx`. -/
def nextChildren (hash : Nat) : Finset Nat :=
  ((pool.mapNextTx.filter fun next => next.1.hash == hash).map Prod.snd).toFinset

/-- The part of the loop of `UpdateTransactionsFromBlock` for one transaction. -/
def updateTransactionFromBlock (setAlreadyIncluded : Finset Nat)
    (hash : Nat) (u : BlockUpdate) : Option BlockUpdate :=
  if hash ∈ u.pool.mapTx then
    -- the assertion that `mapNextTx` has entries of `mapTx` only
    if u.pool.nextChildren hash ⊆ u.pool.mapTx then do
      let pool ← forEach (u.pool.nextChildren hash \ setAlreadyIncluded) (fun child pool => do
        let pool ← pool.updateChild hash child true
        pool.updateParent child hash true) u.pool
      updateForDescendants limits setAlreadyIncluded hash { u with pool := pool }
    else none
  else some u

def removeOverLimit (txid : Nat) (pool : CTxMemPool) : Option CTxMemPool :=
  if txid ∈ pool.mapTx then pool.removeRecursive (pool.entry txid).tx else some pool

def updateTransactionsFromBlock (vHashesToUpdate : List Nat)
    (pool : CTxMemPool) : Option CTxMemPool := do
  let u ← vHashesToUpdate.reverse.foldlM
    (fun u hash => updateTransactionFromBlock limits vHashesToUpdate.toFinset hash u)
    ({ pool := pool } : BlockUpdate)
  forEach u.descendantsToRemove removeOverLimit u.pool

/-- What becomes of a transaction of a disconnected block: a change set adds it to the pool, or
what depends on it is removed. -/
inductive Resurrection
  | accepted (changeset : ChangeSet)
  | rejected (tx : CTransaction)

/-- The part of the loop of `MaybeUpdateMempoolForReorg` for one transaction, with
`vHashUpdate`. -/
def resurrect (r : Resurrection) (s : CTxMemPool × List Nat) : Option (CTxMemPool × List Nat) :=
  match r with
  | .accepted changeset => do
    let pool ← s.1.apply changeset
    return (pool, s.2 ++ (changeset.entryVec.map fun e => e.tx.hash).filter (· ∈ pool.mapTx))
  | .rejected tx => do
    let pool ← s.1.removeRecursive tx
    return (pool, s.2)

/-- Re-add the transactions of disconnected blocks, then `UpdateTransactionsFromBlock`. -/
def readdDisconnected (rs : List Resurrection) (pool : CTxMemPool) : Option CTxMemPool := do
  let s ← rs.foldlM (fun s r => resurrect r s) (pool, [])
  s.1.updateTransactionsFromBlock limits s.2

end CTxMemPool

end BitcoinPurity
