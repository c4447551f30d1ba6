import BitcoinPurity.Lib.Links
import BitcoinPurity.Consensus.Pow

/-!
`HeadersSyncState`: a peer's header chain is downloaded twice.  In PRESYNC only the work is added
up and a secret one-bit commitment is stored every `HEADER_COMMITMENT_PERIOD` headers; once the
work suffices, the headers are downloaded again and checked against the commitments, and leave
the buffer for validation when enough headers lie on top of them or when the work is there again.
-/

namespace BitcoinPurity

def headerCommitmentPeriod : Nat := 632

def redownloadBufferSize : Nat := 15009

/-- A header as it is received: with `hashPrevBlock`. -/
structure FullHeader extends CBlockHeader where
  hashPrevBlock : Nat
deriving DecidableEq, Repr

/-- `CompressedHeader`: the header without `hashPrevBlock`. -/
abbrev CompressedHeader := CBlockHeader

def getFullHeader (c : CompressedHeader) (hashPrevBlock : Nat) : FullHeader :=
  { toCBlockHeader := c, hashPrevBlock := hashPrevBlock }

/-- `CBlockHeader::SetNull`. -/
def nullHeader : FullHeader :=
  { nVersion := 0, hashMerkleRoot := 0, nTime := 0, nBits := 0, nNonce := 0, hashPrevBlock := 0 }

/-- What is read of the `CBlockIndex` the sync starts from: an `int` height and 256 bits of
work. -/
structure ChainStart where
  header : FullHeader
  nHeight : Int
  nChainWork : Nat
  height_ge : -2 ^ 31 ≤ nHeight := by decide
  height_lt : nHeight < 2 ^ 31 := by decide
  work_lt : nChainWork < 2 ^ 256 := by decide

/-- The constants of a sync: the parameters, the block hash, the salted hasher's bit and the
members set by the constructor. -/
structure SyncEnv where
  params : PowParams
  getHash : FullHeader → Nat
  hasherBit : Nat → Bool
  commitOffset : Nat
  maxCommitments : Nat
  chainStart : ChainStart
  minimumRequiredWork : Nat

/-- `HeadersSyncState::State`. -/
inductive DownloadState
  | presync | redownload | final
deriving DecidableEq, Repr

/-- The members of `HeadersSyncState` that change. -/
structure HeadersSyncState where
  currentChainWork : Nat
  headerCommitments : List Bool := []
  lastHeaderReceived : FullHeader
  currentHeight : Int
  redownloadedHeaders : List CompressedHeader := []
  redownloadBufferLastHeight : Int := 0
  redownloadBufferLastHash : Nat := 0
  redownloadBufferFirstPrevHash : Nat := 0
  redownloadChainWork : Nat := 0
  processAllRemainingHeaders : Bool := false
  downloadState : DownloadState := .presync

structure ProcessingResult where
  powValidatedHeaders : List FullHeader := []
  success : Bool := false
  requestMore : Bool := false
deriving DecidableEq, Repr

namespace SyncEnv

variable (env : SyncEnv)

def startHash : Nat := env.getHash env.chainStart.header

def start : HeadersSyncState :=
  { currentChainWork := env.chainStart.nChainWork
    lastHeaderReceived := env.chainStart.header
    currentHeight := env.chainStart.nHeight }

def purityActivationBlockPermitted (height : Int) (hash : Nat) : Bool :=
  height != env.params.nPurityActivationHeight || env.params.hashPurityActivationBlock == 0
    || hash == env.params.hashPurityActivationBlock

def signetForkBlockPermitted (height : Int) (hash : Nat) : Bool :=
  !env.params.signetBlocks ||
  ((height != env.params.nPurityActivationHeight - 1 || env.params.hashSignetForkParent == 0
      || hash == env.params.hashSignetForkParent) &&
    (height != env.params.nAsertAnchorHeight || env.params.hashSignetAsertAnchor == 0
      || hash == env.params.hashSignetAsertAnchor) &&
    (height != env.params.nAsertAnchorHeight - 1 || env.params.hashSignetAsertAnchorParent == 0
      || hash == env.params.hashSignetAsertAnchorParent))

/-- The pins a signet checks at an `int` height. -/
def pinsPermitted (height : Int) (header : FullHeader) : Bool :=
  env.signetForkBlockPermitted height (env.getHash header)
    && env.purityActivationBlockPermitted height (env.getHash header)

/-- `height % HEADER_COMMITMENT_PERIOD == m_commit_offset`, computed in a `size_t`. -/
def commitsAt (height : Int) : Bool :=
  (height % 2 ^ 64).toNat % headerCommitmentPeriod == env.commitOffset

/-- `m_hasher(header.GetHash()) & 1`. -/
def commitment (header : FullHeader) : Bool := env.hasherBit (env.getHash header)

/-! ## PRESYNC -/

def validateAndProcessSingleHeader (s : HeadersSyncState) (current : FullHeader) :
    Bool × HeadersSyncState :=
  if s.downloadState ≠ .presync then (false, s)
  else
    let nextHeight := narrowInt (s.currentHeight + 1)
    if env.params.signetBlocks && !env.pinsPermitted nextHeight current then (false, s)
    else if !permittedDifficultyTransition env.params nextHeight s.lastHeaderReceived.nBits
        current.nBits then (false, s)
    else
      let s := if env.commitsAt nextHeight then
          { s with headerCommitments := s.headerCommitments ++ [env.commitment current] }
        else s
      if env.commitsAt nextHeight && s.headerCommitments.length > env.maxCommitments then (false, s)
      else
        (true,
          { s with
            currentChainWork := (s.currentChainWork + getBlockProof current.nBits) % 2 ^ 256
            lastHeaderReceived := current
            currentHeight := nextHeight })

/-- The loop of `ValidateAndStoreHeadersCommitments`; a signet stops once the work is there. -/
def processHeaders : List FullHeader → HeadersSyncState → Bool × HeadersSyncState
  | [], s => (true, s)
  | hdr :: rest, s =>
    if env.params.signetBlocks && s.currentChainWork ≥ env.minimumRequiredWork then (true, s)
    else
      let (ok, s') := env.validateAndProcessSingleHeader s hdr
      if ok then processHeaders rest s' else (false, s')

section

variable (s : HeadersSyncState)

def beginRedownload : HeadersSyncState :=
  { s with
    redownloadedHeaders := []
    redownloadBufferLastHeight := env.chainStart.nHeight
    redownloadBufferFirstPrevHash := env.startHash
    redownloadBufferLastHash := env.startHash
    redownloadChainWork := env.chainStart.nChainWork
    downloadState := .redownload }

def validateAndStoreHeadersCommitments (headers : List FullHeader) : Bool × HeadersSyncState :=
  match headers with
  | [] => (true, s)
  | first :: _ =>
    if s.downloadState ≠ .presync then (false, s)
    else if first.hashPrevBlock ≠ env.getHash s.lastHeaderReceived then (false, s)
    else
      let (ok, s') := env.processHeaders headers s
      if !ok then (false, s')
      else if s'.currentChainWork ≥ env.minimumRequiredWork then (true, env.beginRedownload s')
      else (true, s')

/-! ## REDOWNLOAD -/

/-- The `nBits` before the next redownloaded header. -/
def previousNBits : Nat :=
  match s.redownloadedHeaders.getLast? with
  | some c => c.nBits
  | none => env.chainStart.header.nBits

variable (header : FullHeader)

def storeRedownloaded : HeadersSyncState :=
  { s with
    redownloadedHeaders := s.redownloadedHeaders ++ [header.toCBlockHeader]
    redownloadBufferLastHeight := s.redownloadBufferLastHeight + 1
    redownloadBufferLastHash := env.getHash header }

/-- The header's work is added, and the flag set once the minimum is reached. -/
def addRedownloadWork : HeadersSyncState :=
  let work := (s.redownloadChainWork + getBlockProof header.nBits) % 2 ^ 256
  { s with
    redownloadChainWork := work
    processAllRemainingHeaders :=
      s.processAllRemainingHeaders || work ≥ env.minimumRequiredWork }

def validateAndStoreRedownloadedHeader : Bool × HeadersSyncState :=
  if s.downloadState ≠ .redownload then (false, s)
  else
    let nextHeight := s.redownloadBufferLastHeight + 1
    if env.params.signetBlocks && !s.processAllRemainingHeaders
        && !env.pinsPermitted (narrowInt nextHeight) header then (false, s)
    else if header.hashPrevBlock ≠ s.redownloadBufferLastHash then (false, s)
    else if !permittedDifficultyTransition env.params nextHeight (env.previousNBits s)
        header.nBits then (false, s)
    else
      let s := env.addRedownloadWork s header
      if !s.processAllRemainingHeaders && env.commitsAt nextHeight then
        match s.headerCommitments with
        | [] => (false, s)
        | expected :: rest =>
          let s := { s with headerCommitments := rest }
          if env.commitment header ≠ expected then (false, s)
          else (true, env.storeRedownloaded s header)
      else (true, env.storeRedownloaded s header)

end

def redownloadHeaders : List FullHeader → HeadersSyncState → Bool × HeadersSyncState
  | [], s => (true, s)
  | hdr :: rest, s =>
    let (ok, s') := env.validateAndStoreRedownloadedHeader s hdr
    if ok then redownloadHeaders rest s' else (false, s')

/-- The loop of `PopHeadersReadyForAcceptance`: what is returned, what stays in the buffer and the
hash before it. -/
def popLoop (processAll : Bool) :
    List CompressedHeader → Nat → List FullHeader × List CompressedHeader × Nat
  | [], prevHash => ([], [], prevHash)
  | c :: rest, prevHash =>
    if rest.length + 1 > redownloadBufferSize || processAll then
      let header := getFullHeader c prevHash
      let (ret, buffer, hash) := popLoop processAll rest (env.getHash header)
      (header :: ret, buffer, hash)
    else ([], c :: rest, prevHash)

section

variable (s : HeadersSyncState)

def popHeadersReadyForAcceptance : List FullHeader × HeadersSyncState :=
  if s.downloadState ≠ .redownload then ([], s)
  else
    let (ret, buffer, hash) :=
      env.popLoop s.processAllRemainingHeaders s.redownloadedHeaders s.redownloadBufferFirstPrevHash
    (ret, { s with redownloadedHeaders := buffer, redownloadBufferFirstPrevHash := hash })

/-! ## One message -/

def finalize : HeadersSyncState :=
  { s with
    headerCommitments := []
    lastHeaderReceived := nullHeader
    redownloadedHeaders := []
    redownloadBufferLastHash := 0
    redownloadBufferFirstPrevHash := 0
    processAllRemainingHeaders := false
    currentHeight := 0
    downloadState := .final }

def processPresync (headers : List FullHeader)
    (fullHeadersMessage : Bool) : ProcessingResult × HeadersSyncState :=
  let (success, s') := env.validateAndStoreHeadersCommitments s headers
  ({ success := success
     requestMore := success && (fullHeadersMessage || s'.downloadState == .redownload) }, s')

def processRedownload (headers : List FullHeader)
    (fullHeadersMessage : Bool) : ProcessingResult × HeadersSyncState :=
  let (success, s') := env.redownloadHeaders headers s
  if success then
    let (ret, s'') := env.popHeadersReadyForAcceptance s'
    let complete := s''.redownloadedHeaders == [] && s''.processAllRemainingHeaders
    ({ powValidatedHeaders := ret, success := true,
       requestMore := !complete && fullHeadersMessage }, s'')
  else ({}, s')

def processNextHeaders (receivedHeaders : List FullHeader)
    (fullHeadersMessage : Bool) : ProcessingResult × HeadersSyncState :=
  if receivedHeaders = [] ∨ s.downloadState = .final then ({}, s)
  else
    let (ret, s') := match s.downloadState with
      | .presync => env.processPresync s receivedHeaders fullHeadersMessage
      | _ => env.processRedownload s receivedHeaders fullHeadersMessage
    if !(ret.success && ret.requestMore) then (ret, finalize s') else (ret, s')

end

/-! ## When a header is taken -/

/-- The header passes the checks of PRESYNC. -/
structure Presyncable (s : HeadersSyncState) (current : FullHeader) : Prop where
  state : s.downloadState = .presync
  pins : env.params.signetBlocks →
    env.pinsPermitted (narrowInt (s.currentHeight + 1)) current
  permitted : permittedDifficultyTransition env.params (narrowInt (s.currentHeight + 1))
    s.lastHeaderReceived.nBits current.nBits
  room : env.commitsAt (narrowInt (s.currentHeight + 1)) →
    s.headerCommitments.length < env.maxCommitments

def presynced (s : HeadersSyncState) (current : FullHeader) : HeadersSyncState :=
  { s with
    headerCommitments := s.headerCommitments ++
      (if env.commitsAt (narrowInt (s.currentHeight + 1)) then [env.commitment current] else [])
    currentChainWork := (s.currentChainWork + getBlockProof current.nBits) % 2 ^ 256
    lastHeaderReceived := current
    currentHeight := narrowInt (s.currentHeight + 1) }

variable {env : SyncEnv} {s : HeadersSyncState} {current header : FullHeader}

theorem Presyncable.eq (h : env.Presyncable s current) :
    env.validateAndProcessSingleHeader s current = (true, env.presynced s current) := by
  have hpins : (env.params.signetBlocks &&
      !env.pinsPermitted (narrowInt (s.currentHeight + 1)) current) = false := by
    simpa using h.pins
  unfold validateAndProcessSingleHeader
  simp only [h.state, hpins, h.permitted, ne_eq, not_true_eq_false, Bool.not_true,
    Bool.false_eq_true, if_false]
  by_cases hcommit : env.commitsAt (narrowInt (s.currentHeight + 1))
  · have hroom := h.room hcommit
    simp only [hcommit, if_true, Bool.true_and, List.length_append, List.length_singleton,
      decide_eq_true_eq]
    rw [if_neg (by omega)]
    simp [presynced, hcommit, h.state]
  · simp [presynced, hcommit]

theorem presyncable_of_fst
    (h : (env.validateAndProcessSingleHeader s current).1) : env.Presyncable s current := by
  unfold validateAndProcessSingleHeader at h
  split at h
  · cases h
  next hstate =>
  dsimp only at h
  split at h
  · cases h
  next hpins =>
  split at h
  · cases h
  next hperm =>
  refine ⟨by simpa using hstate, by simpa using hpins, by simpa using hperm, fun hcommit => ?_⟩
  grind

/-- The header passes the checks of REDOWNLOAD. -/
structure Redownloadable (s : HeadersSyncState) (header : FullHeader) : Prop where
  state : s.downloadState = .redownload
  pins : env.params.signetBlocks → s.processAllRemainingHeaders = false →
    env.pinsPermitted (narrowInt (s.redownloadBufferLastHeight + 1)) header
  link : header.hashPrevBlock = s.redownloadBufferLastHash
  permitted : permittedDifficultyTransition env.params (s.redownloadBufferLastHeight + 1)
    (env.previousNBits s) header.nBits
  committed : (env.addRedownloadWork s header).processAllRemainingHeaders = false →
    env.commitsAt (s.redownloadBufferLastHeight + 1) →
    s.headerCommitments.head? = some (env.commitment header)

def redownloaded (s : HeadersSyncState) (header : FullHeader) : HeadersSyncState :=
  let s' := env.addRedownloadWork s header
  env.storeRedownloaded
    { s' with
      headerCommitments :=
        if !s'.processAllRemainingHeaders && env.commitsAt (s.redownloadBufferLastHeight + 1) then
          s.headerCommitments.tail
        else s.headerCommitments }
    header

theorem Redownloadable.eq (h : env.Redownloadable s header) :
    env.validateAndStoreRedownloadedHeader s header = (true, env.redownloaded s header) := by
  have hpins : (env.params.signetBlocks && !s.processAllRemainingHeaders &&
      !env.pinsPermitted (narrowInt (s.redownloadBufferLastHeight + 1)) header) = false := by
    simpa using h.pins
  unfold validateAndStoreRedownloadedHeader
  simp only [h.state, hpins, h.link, h.permitted, ne_eq]
  by_cases hcheck : (!(env.addRedownloadWork s header).processAllRemainingHeaders &&
      env.commitsAt (s.redownloadBufferLastHeight + 1))
  · obtain ⟨hall, hcommit⟩ : (env.addRedownloadWork s header).processAllRemainingHeaders = false ∧
        env.commitsAt (s.redownloadBufferLastHeight + 1) := by
      simpa using hcheck
    obtain ⟨rest, hrest⟩ : ∃ rest, s.headerCommitments = env.commitment header :: rest :=
      List.head?_eq_some_iff.mp (h.committed hall hcommit)
    have hs : (env.addRedownloadWork s header).headerCommitments =
        env.commitment header :: rest := hrest
    simp [redownloaded, hcheck, hs, hrest]
  · simp only [redownloaded, hcheck]
    rfl

theorem redownloadable_of_fst (h : (env.validateAndStoreRedownloadedHeader s header).1) :
    env.Redownloadable s header := by
  unfold validateAndStoreRedownloadedHeader at h
  split at h
  · cases h
  next hstate =>
  dsimp only at h
  split at h
  · cases h
  next hpins =>
  split at h
  · cases h
  next hlink =>
  split at h
  · cases h
  next hperm =>
  refine ⟨by simpa using hstate, by simpa using hpins, by simpa using hlink, by simpa using hperm,
    fun hall hcommit => ?_⟩
  simp only [hall, hcommit, Bool.not_false, Bool.and_self, if_true] at h
  split at h
  · cases h
  next expected rest heq =>
  split at h
  · cases h
  next hsame =>
  have hrest : s.headerCommitments = expected :: rest := heq
  rw [hrest, List.head?_cons, not_not.mp hsame]

end SyncEnv

end BitcoinPurity
