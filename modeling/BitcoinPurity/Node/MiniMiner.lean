import BitcoinPurity.Mempool.Pool
import BitcoinPurity.Policy.FeeRate

/-!
# The mini miner

`MiniMiner` of `node/mini_miner.cpp`: a template is built from the clusters of some outpoints up to
a target feerate, and what the transactions that are left out lack to reach it is their bump fee.
`discountSelection` is what the wallet does with the two ways to add bump fees up.

`m_entries_by_txid` is a set of txids with what is stored for each of them, and an iterator into it
is its txid; `m_entries` has the same iterators.  It is sorted before its first element is taken, so
that only which one is first is modelled.  An operation is `none` when an assertion fails, when an
iterator to a missing entry is used, or when a loop does not end.
-/

namespace BitcoinPurity

open Each Explore LastBy

namespace CTxMemPool

/-- The loop of `GatherClusters`; the entries that have been visited are those of the list. -/
def gatherLoop (pool : CTxMemPool) : Nat → Nat → List Nat → Option (List Nat)
  | fuel, i, clusteredTxs =>
    match clusteredTxs[i]? with
    | none => some clusteredTxs
    | some x =>
      if clusteredTxs.length > 500 then some []
      else
        match fuel with
        | 0 => none
        | fuel + 1 =>
          let parents := (pool.entry x).parents
          let children := (pool.entry x).children
          gatherLoop pool fuel (i + 1)
            ((ascending parents.card parents ++ ascending children.card children).foldl
              (fun txs y => if y ∈ txs then txs else txs ++ [y]) clusteredTxs)

/-- `GatherClusters`, of txids that are in the pool. -/
def gatherClusters (pool : CTxMemPool) (txids : List Nat) : Option (List Nat) :=
  pool.gatherLoop pool.mapTx.card 0 txids

end CTxMemPool

structure MiniMinerMempoolEntry where
  tx : CTransaction
  vsizeIndividual : Int
  size_pos : 0 < vsizeIndividual
  vsizeWithAncestors : Int
  feeIndividual : Int
  feeWithAncestors : Int

namespace MiniMinerMempoolEntry

def ofEntry (e : CTxMemPoolEntry) : MiniMinerMempoolEntry where
  tx := e.tx
  vsizeIndividual := e.txSize
  size_pos := e.size_pos
  vsizeWithAncestors := e.sizeWithAncestors
  feeIndividual := e.modifiedFee
  feeWithAncestors := e.modFeesWithAncestors

instance : Inhabited MiniMinerMempoolEntry := ⟨ofEntry default⟩

def updateAncestorState (vsizeChange feeChange : Int) (e : MiniMinerMempoolEntry) :
    MiniMinerMempoolEntry :=
  { e with
    vsizeWithAncestors := e.vsizeWithAncestors + vsizeChange
    feeWithAncestors := e.feeWithAncestors + feeChange }

def minFeerate (e : MiniMinerMempoolEntry) : FeeFrac :=
  .min ⟨e.feeWithAncestors, e.vsizeWithAncestors⟩ ⟨e.feeIndividual, e.vsizeIndividual⟩

end MiniMinerMempoolEntry

structure MiniMiner where
  readyToCalculate : Bool := true
  toBeReplaced : Finset Nat := ∅
  requestedTxids : Finset Nat := ∅
  requestedOutpoints : Nat → List COutPoint := fun _ => []
  bumpFees : COutPoint → Option Int := fun _ => none
  inclusionOrder : Nat → Option Nat := fun _ => none
  inBlock : Finset Nat := ∅
  totalFees : Int := 0
  totalVsize : Int := 0
  entries : Finset Nat := ∅
  entry : Nat → MiniMinerMempoolEntry := fun _ => default
  descendantSet : Nat → Option (Finset Nat) := fun _ => none

namespace MiniMiner

/-- `m_bump_fees.emplace` of some outpoints: a key that is there keeps its value. -/
def emplaceBumpFees (outpoints : List COutPoint) (fee : Int) (m : MiniMiner) : MiniMiner :=
  { m with
    bumpFees := fun o => (m.bumpFees o).or (if o ∈ outpoints then some fee else none) }

/-- Give a requested transaction's outpoints a bump fee of 0 and forget the request. -/
def settle (txid : Nat) (m : MiniMiner) : MiniMiner :=
  if txid ∈ m.requestedTxids then
    { m.emplaceBumpFees (m.requestedOutpoints txid) 0 with
      requestedTxids := m.requestedTxids.erase txid }
  else m

/-! ## The constructor -/

section

variable (pool : CTxMemPool) (m : MiniMiner)

def request (outpoint : COutPoint) : Option MiniMiner :=
  if outpoint.hash ∈ pool.mapTx then
    let m := { m with
      requestedTxids := insert outpoint.hash m.requestedTxids
      requestedOutpoints := Function.update m.requestedOutpoints outpoint.hash
        (m.requestedOutpoints outpoint.hash ++ [outpoint]) }
    match pool.spender outpoint with
    | none => some m
    | some ptx =>
      if ptx ∈ pool.mapTx then
        (pool.calculateDescendants ptx ∅).map fun descendants =>
          { m with toBeReplaced := m.toBeReplaced ∪ descendants }
      else none
  else some (m.emplaceBumpFees [outpoint] 0)

def addEntry (x : Nat) : MiniMiner :=
  if x ∈ m.toBeReplaced then m.settle x
  else { m with
    entries := insert x m.entries
    entry := Function.update m.entry x (.ofEntry (pool.entry x)) }

def cacheDescendants (x : Nat) : Option MiniMiner :=
  (pool.calculateDescendants x ∅).map fun descendants =>
    if x ∈ m.toBeReplaced then m
    else { m with
      descendantSet := Function.update m.descendantSet x (some (descendants \ m.toBeReplaced)) }

end

def make (pool : CTxMemPool) (outpoints : List COutPoint) : Option MiniMiner := do
  let m ← outpoints.foldlM (request pool) {}
  if m.requestedTxids = ∅ then return m
  let cluster ← pool.gatherClusters (ascending m.requestedTxids.card m.requestedTxids)
  if cluster.isEmpty then return { m with readyToCalculate := false }
  cluster.foldlM (cacheDescendants pool) (cluster.foldl (addEntry pool) m)

/-! ## The template -/

def comesBefore (m : MiniMiner) (a b : Nat) : Bool :=
  let aFeerate := (m.entry a).minFeerate
  let bFeerate := (m.entry b).minFeerate
  if aFeerate ≠ bFeerate then bFeerate.lt aFeerate else decide (a < b)

/-- The entry that is first once they are sorted. -/
def best (m : MiniMiner) : Option Nat :=
  lastBy (fun a b => m.comesBefore b a) (ascending m.entries.card m.entries)

def parents (m : MiniMiner) (x : Nat) : Finset Nat :=
  ((m.entry x).tx.vin.map fun input => input.prevout.hash).toFinset ∩ m.entries

def updateEntry (vsizeChange feeChange : Int) (d : Nat) (m : MiniMiner) : Option MiniMiner :=
  if d ∈ m.entries then
    some { m with
      entry := Function.update m.entry d ((m.entry d).updateAncestorState vsizeChange feeChange) }
  else none

/-- Put a transaction into the block, and take it out of its descendants' totals. -/
def mine (anc : Nat) (m : MiniMiner) : Option MiniMiner := do
  let e := m.entry anc
  let m := { m with
    inBlock := insert anc m.inBlock
    totalFees := m.totalFees + e.feeIndividual
    totalVsize := m.totalVsize + e.vsizeIndividual }
  let descendants ← m.descendantSet anc
  forEach descendants (updateEntry (-e.vsizeIndividual) (-e.feeIndividual)) m

def deleteAncestorPackage (ancestors : Finset Nat) (m : MiniMiner) : Option MiniMiner :=
  (forEach ancestors mine m).map fun m => { m with
    descendantSet := fun x => if x ∈ ancestors then none else m.descendantSet x
    entries := m.entries \ ancestors }

def emplaceOrder (ancestors : Finset Nat) (sequenceNum : Nat) (m : MiniMiner) : MiniMiner :=
  { m with
    inclusionOrder := fun x =>
      (m.inclusionOrder x).or (if x ∈ ancestors then some sequenceNum else none) }

def templateLoop (targetFeerate : Option Int) : Nat → Nat → MiniMiner → Option MiniMiner
  | fuel, sequenceNum, m =>
    match m.best with
    | none => some m
    | some x =>
      if targetFeerate.any fun rate =>
          (m.entry x).feeWithAncestors < getFee rate (m.entry x).vsizeWithAncestors then some m
      else
        match fuel with
        | 0 => none
        | fuel + 1 => do
          let ancestors ← explore m.parents m.entries.card {x} ∅
          let m ← (m.emplaceOrder ancestors sequenceNum).deleteAncestorPackage ancestors
          templateLoop targetFeerate fuel (sequenceNum + 1) m

def buildMockTemplate (targetFeerate : Option Int) (m : MiniMiner) : Option MiniMiner :=
  (m.templateLoop targetFeerate m.entries.card 0).map fun m => { m with readyToCalculate := false }

/-! ## Bump fees -/

variable (targetFeerate : Int)

def bumpFee (e : MiniMinerMempoolEntry) : Int :=
  max (getFee targetFeerate e.vsizeWithAncestors - e.feeWithAncestors)
    (getFee targetFeerate e.vsizeIndividual - e.feeIndividual)

def chargeBumpFee (txid : Nat) (m : MiniMiner) : MiniMiner :=
  if txid ∈ m.entries then
    m.emplaceBumpFees (m.requestedOutpoints txid) (bumpFee targetFeerate (m.entry txid))
  else m

/-- `CalculateBumpFees`, with what is left of the object. -/
def calculateBumpFees (m : MiniMiner) : Option ((COutPoint → Option Int) × MiniMiner) :=
  if m.readyToCalculate then do
    let m ← m.buildMockTemplate (some targetFeerate)
    let m := (ascending m.inBlock.card m.inBlock).foldl (fun m txid => m.settle txid) m
    let m := (ascending m.requestedTxids.card m.requestedTxids).foldl
      (fun m txid => m.chargeBumpFee targetFeerate txid) m
    return (m.bumpFees, m)
  else some (fun _ => none, m)

end MiniMiner

end BitcoinPurity
