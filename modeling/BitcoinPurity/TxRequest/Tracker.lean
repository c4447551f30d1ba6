import BitcoinPurity.Lib.Runs
import Mathlib.Algebra.Order.Ring.Int
import Mathlib.Data.Prod.Lex
import BitcoinPurity.Lib.Sorted

/-!
The transaction request tracker (`txrequest.cpp`): which peers announced which transactions, and
which of them to ask.

The index is a list of announcements; its three orders are the keys `byPeerView`, `byTxHashView`
and `byTimeView`, and an iterator is the announcement that it points to.  `ByTxHash` and `ByTime`
are not unique: how equivalent keys are ordered is left open (`Ties`).  An operation is `none` when
an assertion fails, when a look-up in `m_peerinfo` finds nothing, when a modification would clash
in the unique index, and when a loop has not ended within its bound.
-/

namespace BitcoinPurity

open Sorted

/-- `State`, in the order of the source. -/
inductive AnnouncementState
  | candidateDelayed
  | candidateReady
  | candidateBest
  | requested
  | completed
  deriving DecidableEq, Repr

def AnnouncementState.rank : AnnouncementState → Nat
  | .candidateDelayed => 0
  | .candidateReady => 1
  | .candidateBest => 2
  | .requested => 3
  | .completed => 4

structure GenTxid where
  isWtxid : Bool
  hash : Nat
  deriving DecidableEq, Repr

structure Announcement where
  txhash : Nat
  time : Int
  peer : Int
  sequence : Nat
  preferred : Bool
  isWtxid : Bool
  state : AnnouncementState
  deriving DecidableEq, Repr

namespace Announcement

section

variable (ann : Announcement)

def isSelected : Bool :=
  ann.state == .candidateBest || ann.state == .requested

def isWaiting : Bool :=
  ann.state == .requested || ann.state == .candidateDelayed

def isSelectable : Bool :=
  ann.state == .candidateReady || ann.state == .candidateBest

def setState (state : AnnouncementState) : Announcement :=
  { ann with state := state }

/-- `GetWaitState`: `FUTURE_EVENT`, `NO_EVENT` or `PAST_EVENT`. -/
def getWaitState : Nat :=
  if ann.isWaiting then 0 else if ann.isSelectable then 2 else 1

def toGenTxid : GenTxid := ⟨ann.isWtxid, ann.txhash⟩

def byPeerView : Int ×ₗ Bool ×ₗ Nat :=
  toLex (ann.peer, toLex (ann.state == .candidateBest, ann.txhash))

end

end Announcement

/-- `PriorityComputer`: an announcement's priority from its transaction, peer and preferredness. -/
abbrev PriorityComputer := Nat → Int → Bool → Nat

def PriorityComputer.of (computer : PriorityComputer) (ann : Announcement) : Nat :=
  computer ann.txhash ann.peer ann.preferred

/-- How announcements with equivalent keys stand in the two indexes that are not unique: a rank for
every content of the index.  It may be another one in every call. -/
structure Ties where
  byTxHash : List Announcement → Announcement → Nat
  byTime : List Announcement → Announcement → Nat
  byTxHash_inj : ∀ index, ∀ a ∈ index, ∀ b ∈ index, byTxHash index a = byTxHash index b → a = b
  byTime_inj : ∀ index, ∀ a ∈ index, ∀ b ∈ index, byTime index a = byTime index b → a = b

structure PeerInfo where
  total : Nat := 0
  completed : Nat := 0
  requested : Nat := 0
  deriving DecidableEq, Repr

def PeerInfo.less (info : PeerInfo) (state : AnnouncementState) : PeerInfo :=
  { info with
    completed := info.completed - (state == .completed).toNat
    requested := info.requested - (state == .requested).toNat }

def PeerInfo.more (info : PeerInfo) (state : AnnouncementState) : PeerInfo :=
  { info with
    completed := info.completed + (state == .completed).toNat
    requested := info.requested + (state == .requested).toNat }

def recomputePeerInfo (index : List Announcement) (peer : Int) : Option PeerInfo :=
  let anns := index.filter fun ann => ann.peer == peer
  if anns.isEmpty then none
  else some {
    total := anns.length
    completed := anns.countP fun ann => ann.state == .completed
    requested := anns.countP fun ann => ann.state == .requested }

/-- The members of `TxRequestTracker::Impl` that change. -/
structure TxRequestTracker where
  currentSequence : Nat := 0
  index : List Announcement := []
  peerinfo : Int → Option PeerInfo := fun _ => none

/-- What no call changes: the priority computer, and the order of equivalent keys in this call. -/
structure TrackerEnv where
  computer : PriorityComputer
  ties : Ties

section

variable (env : TrackerEnv) (index : List Announcement) (ann : Announcement)

/-- `ByTxHashView`, with the rank among equivalent keys. -/
def TrackerEnv.byTxHashView : Nat ×ₗ Nat ×ₗ Nat ×ₗ Nat :=
  let prio := if ann.state = .candidateReady then env.computer.of ann else 0
  toLex (ann.txhash, toLex (ann.state.rank, toLex (prio, env.ties.byTxHash index ann)))

/-- `ByTimeView`, with the rank among equivalent keys. -/
def TrackerEnv.byTimeView : Nat ×ₗ Int ×ₗ Nat :=
  toLex (ann.getWaitState, toLex (ann.time, env.ties.byTime index ann))

end

namespace TxRequestTracker

def erase (it : Announcement) (s : TxRequestTracker) : Option TxRequestTracker := do
  let info ← s.peerinfo it.peer
  let info := info.less it.state
  let info := { info with total := info.total - 1 }
  return { s with
    index := s.index.erase it
    peerinfo := Function.update s.peerinfo it.peer (if info.total = 0 then none else some info) }

/-- `Modify`: `ann` is what the modifier makes of the announcement at the iterator.  The container
drops an element whose new key another one has in the unique index: `none`. -/
def modify (it ann : Announcement) (s : TxRequestTracker) : Option TxRequestTracker := do
  let info ← s.peerinfo it.peer
  guard ((s.index.erase it).all fun other => decide (other.byPeerView ≠ ann.byPeerView))
  return { s with
    index := ann :: s.index.erase it
    peerinfo := Function.update s.peerinfo it.peer
      (some ((info.less it.state).more ann.state)) }

variable (env : TrackerEnv)

variable (it : Announcement)

def promoteCandidateReady (s : TxRequestTracker) : Option TxRequestTracker := do
  guard (it.state = .candidateDelayed)
  let ready := it.setState .candidateReady
  let s ← modify it ready s
  match next (env.byTxHashView s.index) s.index ready with
  | none => modify ready (ready.setState .candidateBest) s
  | some itNext =>
    if itNext.txhash ≠ ready.txhash ∨ itNext.state = .completed then
      modify ready (ready.setState .candidateBest) s
    else if itNext.state = .candidateBest ∧ env.computer.of ready > env.computer.of itNext then do
      let s ← modify itNext (itNext.setState .candidateReady) s
      modify ready (ready.setState .candidateBest) s
    else return s

def changeAndReselect (newState : AnnouncementState) (s : TxRequestTracker) :
    Option TxRequestTracker := do
  guard (newState = .completed ∨ newState = .candidateDelayed)
  let s ←
    if it.isSelected then
      match prev (env.byTxHashView s.index) s.index it with
      | none => some s
      | some itPrev =>
        if itPrev.txhash = it.txhash ∧ itPrev.state = .candidateReady then
          modify itPrev (itPrev.setState .candidateBest) s
        else some s
    else some s
  modify it (it.setState newState) s

def isOnlyNonCompleted (s : TxRequestTracker) : Bool :=
  let view := env.byTxHashView s.index
  let before := (prev view s.index it).any fun itPrev => itPrev.txhash == it.txhash
  let after := (next view s.index it).any fun itNext =>
    itNext.txhash == it.txhash && itNext.state != .completed
  !before && !after

/-- The loops that erase announcements of one transaction, from an iterator on.  Erasing does not
move the others, so the order stays that of the content before the loop. -/
def eraseTxHash (view : Announcement → Nat ×ₗ Nat ×ₗ Nat ×ₗ Nat) (txhash : Nat) :
    Nat → Option Announcement → TxRequestTracker → Option TxRequestTracker
  | _, none, s => some s
  | 0, some it, s => if it.txhash = txhash then none else some s
  | fuel + 1, some it, s =>
    if it.txhash = txhash then do
      let itNext := next view s.index it
      eraseTxHash view txhash fuel itNext (← erase it s)
    else some s

/-- `MakeCompleted`, with the iterator after it if the announcement still exists. -/
def makeCompleted (s : TxRequestTracker) : Option (Option Announcement × TxRequestTracker) := do
  if it.state = .completed then return (some it, s)
  if isOnlyNonCompleted env it s then
    let view := env.byTxHashView s.index
    return (none, ← eraseTxHash view it.txhash s.index.length (some it) s)
  return (some (it.setState .completed), ← changeAndReselect env it .completed s)

/-- The first loop of `SetTimePoint`. -/
def passEvents (now : Int) : Nat → List (Int × GenTxid) → TxRequestTracker →
    Option (List (Int × GenTxid) × TxRequestTracker)
  | 0, _, _ => none
  | fuel + 1, expired, s =>
    match first (env.byTimeView s.index) s.index with
    | none => some (expired, s)
    | some it =>
      if it.state = .candidateDelayed ∧ it.time ≤ now then do
        passEvents now fuel expired (← promoteCandidateReady env it s)
      else if it.state = .requested ∧ it.time ≤ now then do
        let (_, s) ← makeCompleted env it s
        passEvents now fuel (expired ++ [(it.peer, it.toGenTxid)]) s
      else some (expired, s)

/-- The second loop of `SetTimePoint`, for a clock that went backwards. -/
def demoteFuture (now : Int) : Nat → TxRequestTracker → Option TxRequestTracker
  | 0, _ => none
  | fuel + 1, s =>
    match last (env.byTimeView s.index) s.index with
    | none => some s
    | some it =>
      if it.isSelectable ∧ it.time > now then do
        demoteFuture now fuel (← changeAndReselect env it .candidateDelayed s)
      else some s

def setTimePoint (now : Int) (s : TxRequestTracker) :
    Option (List (Int × GenTxid) × TxRequestTracker) := do
  let (expired, s) ← passEvents env now (s.index.length + 1) [] s
  return (expired, ← demoteFuture env now (s.index.length + 1) s)

/-- Delete the announcement, unless `MakeCompleted` already did. -/
def eraseLeft : Option Announcement → TxRequestTracker → Option TxRequestTracker
  | some it, s => erase it s
  | none, s => some s

def disconnectLoop (peer : Int) : Nat → Option Announcement → TxRequestTracker →
    Option TxRequestTracker
  | _, none, s => some s
  | 0, some it, s => if it.peer = peer then none else some s
  | fuel + 1, some it, s =>
    if it.peer = peer then do
      -- decided before the announcement is erased
      let itNext := (next Announcement.byPeerView s.index it).filter fun ann => ann.peer == peer
      let (it, s) ← makeCompleted env it s
      disconnectLoop peer fuel itNext (← eraseLeft it s)
    else some s

variable (peer : Int)

def disconnectedPeer (s : TxRequestTracker) : Option TxRequestTracker :=
  let it := lowerBound Announcement.byPeerView s.index (toLex (peer, toLex (false, 0)))
  disconnectLoop env peer s.index.length it s

def forgetTxHash (txhash : Nat) (s : TxRequestTracker) : Option TxRequestTracker :=
  let view := env.byTxHashView s.index
  let it := lowerBound view s.index
    (toLex (txhash, toLex (AnnouncementState.candidateDelayed.rank, toLex (0, 0))))
  eraseTxHash view txhash s.index.length it s

def findByPeer (best : Bool) (txhash : Nat) (s : TxRequestTracker) : Option Announcement :=
  s.index.find? fun ann => decide (ann.byPeerView = toLex (peer, toLex (best, txhash)))

def receivedInv (gtxid : GenTxid) (preferred : Bool) (reqtime : Int)
    (s : TxRequestTracker) : TxRequestTracker :=
  if (s.findByPeer peer true gtxid.hash).isSome then s
  else if (s.findByPeer peer false gtxid.hash).isSome then s
  else
    let ann : Announcement := {
      txhash := gtxid.hash
      time := reqtime
      peer := peer
      sequence := s.currentSequence % 2 ^ 59
      preferred := preferred
      isWtxid := gtxid.isWtxid
      state := .candidateDelayed }
    let info := (s.peerinfo peer).getD {}
    { currentSequence := (s.currentSequence + 1) % 2 ^ 64
      index := ann :: s.index
      peerinfo := Function.update s.peerinfo peer (some { info with total := info.total + 1 }) }

/-- `GetRequestable`: what to request from the peer, and what expired. -/
def getRequestable (peer now : Int) (s : TxRequestTracker) :
    Option (List GenTxid × List (Int × GenTxid) × TxRequestTracker) := do
  let (expired, s) ← setTimePoint env now s
  let selected := s.index.filter fun ann => ann.peer == peer && ann.state == .candidateBest
  let sorted := selected.mergeSort fun a b => decide (a.sequence ≤ b.sequence)
  return (sorted.map Announcement.toGenTxid, expired, s)

def requestedTx (txhash : Nat) (expiry : Int) (s : TxRequestTracker) : Option TxRequestTracker :=
  match s.findByPeer peer true txhash with
  | some it => modify it { it with state := .requested, time := expiry } s
  | none =>
    match s.findByPeer peer false txhash with
    | none => some s
    | some it =>
      if it.state ≠ .candidateDelayed ∧ it.state ≠ .candidateReady then some s
      else do
        let itOld := lowerBound (env.byTxHashView s.index) s.index
          (toLex (txhash, toLex (AnnouncementState.candidateBest.rank, toLex (0, 0))))
        let s ← match itOld with
          | none => some s
          | some itOld =>
            if itOld.txhash ≠ txhash then some s
            else if itOld.state = .candidateBest then
              modify itOld (itOld.setState .candidateReady) s
            else if itOld.state = .requested then modify itOld (itOld.setState .completed) s
            else some s
        modify it { it with state := .requested, time := expiry } s

def receivedResponse (txhash : Nat) (s : TxRequestTracker) : Option TxRequestTracker := do
  match (s.findByPeer peer false txhash).or (s.findByPeer peer true txhash) with
  | none => return s
  | some it =>
    let (_, s) ← makeCompleted env it s
    return s

end TxRequestTracker

/-- The calls that change the tracker. -/
inductive TrackerCall
  | receivedInv (peer : Int) (gtxid : GenTxid) (preferred : Bool) (reqtime : Int)
  | disconnectedPeer (peer : Int)
  | forgetTxHash (txhash : Nat)
  | requestedTx (peer : Int) (txhash : Nat) (expiry : Int)
  | receivedResponse (peer : Int) (txhash : Nat)
  | getRequestable (peer now : Int)
  deriving DecidableEq, Repr

def TrackerCall.step (env : TrackerEnv) (call : TrackerCall) (s : TxRequestTracker) :
    Option TxRequestTracker :=
  match call with
  | .receivedInv peer gtxid preferred reqtime => some (s.receivedInv peer gtxid preferred reqtime)
  | .disconnectedPeer peer => s.disconnectedPeer env peer
  | .forgetTxHash txhash => s.forgetTxHash env txhash
  | .requestedTx peer txhash expiry => s.requestedTx env peer txhash expiry
  | .receivedResponse peer txhash => s.receivedResponse env peer txhash
  | .getRequestable peer now => (s.getRequestable env peer now).map fun r => r.2.2

end BitcoinPurity
