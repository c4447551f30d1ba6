import BitcoinPurity.HeadersSync.State

/-!
What leaves the redownload buffer.

`Redownloading` ties the state in REDOWNLOAD to the headers received in that phase: the buffer
holds, without their parent hashes, those that were not returned yet, and the commitments that
are left are those of the headers to come.

`Sync.released_committed`: over every sequence of messages, the headers returned are a prefix of
those received in REDOWNLOAD, linked from `chain_start`; each was returned because the work was
reached or because enough headers whose commitments matched had been received on top of it.
-/

namespace BitcoinPurity

open Links List FullHeader

namespace SyncEnv

variable (env : SyncEnv)

/-! ## The headers of a phase -/

def commitments : Int → List FullHeader → List Bool
  | _, [] => []
  | height, h :: t =>
    (if env.commitsAt (height + 1) then [env.commitment h] else []) ++ commitments (height + 1) t

def addWork (work : Nat) : List FullHeader → Nat
  | [] => work
  | h :: t => addWork (work + getBlockProof h.nBits) t

/-- The headers are a chain from `chain_start`. -/
def FromStart (headers : List FullHeader) : Prop :=
  Linked env.getHash hashPrevBlock env.startHash headers

/-- Adding up the work of headers in 256 bits, the minimum is reached at one of them. -/
def reaches (work : Nat) : List FullHeader → Bool
  | [] => false
  | h :: t =>
    let work := (work + getBlockProof h.nBits) % 2 ^ 256
    decide (work ≥ env.minimumRequiredWork) || reaches work t

theorem commitments_append (height : Int) (l l' : List FullHeader) :
    env.commitments height (l ++ l') =
      env.commitments height l ++ env.commitments (height + l.length) l' := by
  induction l generalizing height with
  | nil => simp [commitments]
  | cons h t ih =>
    rw [cons_append, commitments, commitments, ih, append_assoc, length_cons,
      Nat.cast_succ, Int.add_assoc, Int.add_comm 1]

omit env in
theorem addWork_append (work : Nat) (l l' : List FullHeader) :
    addWork work (l ++ l') = addWork (addWork work l) l' := by
  induction l generalizing work with
  | nil => rfl
  | cons h t ih => exact ih _

omit env in
theorem le_addWork (work : Nat) (l : List FullHeader) : work ≤ addWork work l := by
  induction l generalizing work with
  | nil => exact le_rfl
  | cons h t ih => exact le_trans (Nat.le_add_right _ _) (ih _)

omit env in
theorem addWork_mod (work : Nat) (l : List FullHeader) :
    addWork (work % 2 ^ 256) l % 2 ^ 256 = addWork work l % 2 ^ 256 := by
  induction l generalizing work with
  | nil => exact Nat.mod_mod _ _
  | cons h t ih =>
    rw [addWork, addWork, ← ih, ← ih (work + _), Nat.mod_add_mod]

variable {work i : Nat}

omit env in
theorem addWork_mono {work' : Nat} (h : work ≤ work') (l : List FullHeader) :
    addWork work l ≤ addWork work' l := by
  induction l generalizing work work' with
  | nil => exact h
  | cons _ t ih => exact ih (Nat.add_le_add_right h _)

theorem reaches_mod (work : Nat) (l : List FullHeader) :
    env.reaches (work % 2 ^ 256) l = env.reaches work l := by
  cases l with
  | nil => rfl
  | cons h t => simp only [reaches, Nat.mod_add_mod]

theorem reaches_append (work : Nat) (l l' : List FullHeader) :
    env.reaches work (l ++ l') = (env.reaches work l || env.reaches (addWork work l) l') := by
  induction l generalizing work with
  | nil => rfl
  | cons h t ih =>
    simp only [cons_append, reaches, ih, Bool.or_assoc, addWork]
    rw [← env.reaches_mod (addWork _ t), addWork_mod]
    simp only [env.reaches_mod]

theorem exists_of_reaches {l : List FullHeader} (h : env.reaches work l) :
    ∃ j, 0 < j ∧ j ≤ l.length ∧ env.minimumRequiredWork ≤ addWork work (l.take j) := by
  induction l generalizing work with
  | nil => cases h
  | cons hd t ih =>
    simp only [reaches, Bool.or_eq_true, decide_eq_true_eq] at h
    rcases h with h | h
    · exact ⟨1, Nat.one_pos, by simp, le_trans h (Nat.mod_le _ _)⟩
    obtain ⟨j, -, hj, hle⟩ := ih h
    refine ⟨j + 1, Nat.succ_pos j, by simpa using hj, le_trans hle ?_⟩
    exact addWork_mono (Nat.mod_le _ _) _

/-! ## The buffer -/

/-- In REDOWNLOAD `received` has been received and its first `n` headers returned; `stored` are
the commitments of PRESYNC. -/
structure Redownloading (stored : List Bool) (received : List FullHeader) (n : Nat)
    (s : HeadersSyncState) : Prop where
  state : s.downloadState = .redownload
  count : n ≤ received.length
  linked : env.FromStart received
  buffer : s.redownloadedHeaders = (received.drop n).map toCBlockHeader
  firstPrev : s.redownloadBufferFirstPrevHash =
    lastKey env.getHash env.startHash (received.take n)
  lastHash : s.redownloadBufferLastHash = lastKey env.getHash env.startHash received
  height : s.redownloadBufferLastHeight = env.chainStart.nHeight + received.length
  work : s.redownloadChainWork = addWork env.chainStart.nChainWork received % 2 ^ 256
  all : s.processAllRemainingHeaders = env.reaches env.chainStart.nChainWork received
  commits : env.reaches env.chainStart.nChainWork received = false →
    stored = env.commitments env.chainStart.nHeight received ++ s.headerCommitments

variable {env} {stored : List Bool} {received : List FullHeader} {n : Nat} {s : HeadersSyncState}

variable (h : env.Redownloading stored received n s)
include h

theorem Redownloading.all_next (header : FullHeader) :
    (env.addRedownloadWork s header).processAllRemainingHeaders =
      env.reaches env.chainStart.nChainWork (received ++ [header]) := by
  simp only [addRedownloadWork, reaches_append, reaches, h.all, h.work, Nat.mod_add_mod,
    Bool.or_false]

/-- **A header more.** -/
theorem Redownloading.next {header : FullHeader} (hok : env.Redownloadable s header) :
    env.Redownloading stored (received ++ [header]) n (env.redownloaded s header) where
  state := h.state
  count := by
    rw [length_append]
    exact Nat.le_add_right_of_le h.count
  linked := by
    refine linked_append.mpr ⟨h.linked, ?_, trivial⟩
    rw [hok.link, h.lastHash]
  buffer := by
    rw [drop_append_of_le_length h.count, map_append, ← h.buffer]
    rfl
  firstPrev := by
    rw [take_append_of_le_length h.count, ← h.firstPrev]
    rfl
  lastHash := by
    rw [lastKey_append]
    rfl
  height := by
    rw [length_append, length_singleton, Nat.cast_succ, ← Int.add_assoc, ← h.height]
    rfl
  work := by
    rw [addWork_append, addWork, addWork, ← Nat.mod_add_mod, ← h.work]
    rfl
  all := by
    rw [← h.all_next header]
    rfl
  commits := by
    intro hall
    have hbefore : env.reaches env.chainStart.nChainWork received = false := by
      rw [reaches_append, Bool.or_eq_false_iff] at hall
      exact hall.1
    have hflag := (h.all_next header).trans hall
    rw [h.commits hbefore, commitments_append, append_assoc, ← h.height]
    congr 1
    by_cases hcommit : env.commitsAt (s.redownloadBufferLastHeight + 1)
    · obtain ⟨rest, hrest⟩ := head?_eq_some_iff.mp (hok.committed hflag hcommit)
      simp [commitments, hcommit, redownloaded, storeRedownloaded, hflag, hrest]
    · simp [commitments, hcommit, redownloaded, storeRedownloaded]

variable {headers : List FullHeader} {s' : HeadersSyncState}

/-- **A message of headers**, all of which were taken. -/
theorem Redownloading.batch (hrun : env.redownloadHeaders headers s = (true, s')) :
    env.Redownloading stored (received ++ headers) n s' := by
  induction headers generalizing received s with
  | nil =>
    cases hrun
    rwa [append_nil]
  | cons hd rest ih =>
    rw [redownloadHeaders] at hrun
    dsimp only at hrun
    split at hrun
    next hok =>
      have htaken := redownloadable_of_fst hok
      rw [htaken.eq] at hrun
      have := ih (h.next htaken) hrun
      rwa [append_assoc] at this
    next => cases hrun

omit h in
theorem popLoop_eq {prevHash : Nat} (processAll : Bool)
    (hlinked : Linked env.getHash hashPrevBlock prevHash headers) :
    let k := if processAll then headers.length else headers.length - redownloadBufferSize
    env.popLoop processAll (headers.map toCBlockHeader) prevHash =
      (headers.take k, (headers.drop k).map toCBlockHeader,
        lastKey env.getHash prevHash (headers.take k)) := by
  induction headers generalizing prevHash with
  | nil => simp [popLoop]
  | cons hd rest ih =>
    obtain ⟨hprev, hrest⟩ := hlinked
    have hfull : getFullHeader hd.toCBlockHeader prevHash = hd := by
      rw [← hprev]
      rfl
    rw [map_cons, popLoop, length_map]
    by_cases hpop : (decide (rest.length + 1 > redownloadBufferSize) || processAll)
    · have hk : (if processAll then (hd :: rest).length
          else (hd :: rest).length - redownloadBufferSize) =
          (if processAll then rest.length else rest.length - redownloadBufferSize) + 1 := by
        cases processAll with
        | true => rfl
        | false =>
          have : rest.length + 1 > redownloadBufferSize := by simpa using hpop
          simp only [Bool.false_eq_true, if_false, length_cons]
          omega
      simp only [hpop, if_true, hfull, hk, ih hrest, take_succ_cons, drop_succ_cons, lastKey_cons]
    · obtain ⟨hsize, rfl⟩ : rest.length + 1 ≤ redownloadBufferSize ∧ processAll = false := by
        simpa using hpop
      have hk : (hd :: rest).length - redownloadBufferSize = 0 := by
        rw [length_cons]
        omega
      simp only [hpop, Bool.false_eq_true, if_false, hk, take_zero, drop_zero,
        map_cons, lastKey_nil]

def releasedCount (env : SyncEnv) (received : List FullHeader) (n : Nat) : Nat :=
  if env.reaches env.chainStart.nChainWork received then received.length
  else max n (received.length - redownloadBufferSize)

/-- **A release.** -/
theorem Redownloading.pop : ∃ k s', n + k = releasedCount env received n ∧
      env.popHeadersReadyForAcceptance s = ((received.drop n).take k, s') ∧
      env.Redownloading stored received (n + k) s' := by
  have hcount := h.count
  have hlinked : Linked env.getHash hashPrevBlock
      (lastKey env.getHash env.startHash (received.take n)) (received.drop n) := by
    have := h.linked
    rw [FromStart, ← take_append_drop n received, linked_append] at this
    exact this.2
  have hloop := popLoop_eq s.processAllRemainingHeaders hlinked
  generalize hk : (if s.processAllRemainingHeaders then (received.drop n).length
    else (received.drop n).length - redownloadBufferSize) = k at hloop
  have hnk : n + k = releasedCount env received n := by
    rw [← hk, h.all, length_drop, releasedCount]
    split <;> omega
  have hle : n + k ≤ received.length := by
    rw [hnk, releasedCount]
    split <;> omega
  refine ⟨k,
    { s with
      redownloadedHeaders := ((received.drop n).drop k).map toCBlockHeader
      redownloadBufferFirstPrevHash := lastKey env.getHash
        (lastKey env.getHash env.startHash (received.take n)) ((received.drop n).take k) },
    hnk, ?_, ?_⟩
  · simp only [popHeadersReadyForAcceptance, h.state, ne_eq, not_true_eq_false, if_false, h.buffer,
      h.firstPrev, hloop]
  · exact { h with
      count := hle
      buffer := by rw [drop_drop]
      firstPrev := by rw [← lastKey_append, ← take_add] }

/-! ## One message -/

omit h in
theorem redownloading_begin (hall : s.processAllRemainingHeaders = false) :
    env.Redownloading s.headerCommitments [] 0 (env.beginRedownload s) where
  state := rfl
  count := le_rfl
  linked := trivial
  buffer := rfl
  firstPrev := rfl
  lastHash := rfl
  height := (Int.add_zero _).symm
  work := (Nat.mod_eq_of_lt env.chainStart.work_lt).symm
  all := hall
  commits := fun _ => rfl

omit h in
theorem processHeaders_keeps (hrun : env.processHeaders headers s = (true, s')) :
    s'.downloadState = s.downloadState ∧
      s'.processAllRemainingHeaders = s.processAllRemainingHeaders := by
  induction headers generalizing s with
  | nil =>
    cases hrun
    exact ⟨rfl, rfl⟩
  | cons hd rest ih =>
    rw [processHeaders] at hrun
    split at hrun
    · cases hrun
      exact ⟨rfl, rfl⟩
    dsimp only at hrun
    split at hrun
    next hok =>
      rw [(presyncable_of_fst hok).eq] at hrun
      have hkeep := ih hrun
      exact hkeep
    next => cases hrun

omit h in
/-- A message in PRESYNC returns nothing; the sync goes on in PRESYNC, begins REDOWNLOAD or is
over. -/
theorem processNextHeaders_presync (hstate : s.downloadState = .presync)
    (headers : List FullHeader) (full : Bool) :
    let r := env.processNextHeaders s headers full
    r.1.powValidatedHeaders = [] ∧ (r.2.downloadState = .final ∨ (r.2.downloadState = .presync ∧
        r.2.processAllRemainingHeaders = s.processAllRemainingHeaders) ∨
      ∃ s', r.2 = env.beginRedownload s' ∧
        s'.processAllRemainingHeaders = s.processAllRemainingHeaders) := by
  dsimp only
  unfold processNextHeaders
  split
  · exact ⟨rfl, .inr (.inl ⟨hstate, rfl⟩)⟩
  simp only [hstate, processPresync]
  split
  · exact ⟨rfl, .inl rfl⟩
  next hmore =>
  refine ⟨rfl, .inr ?_⟩
  have hok : (env.validateAndStoreHeadersCommitments s headers).1 := by
    cases h : (env.validateAndStoreHeadersCommitments s headers).1 with
    | true => rfl
    | false => simp [h] at hmore
  revert hok
  unfold validateAndStoreHeadersCommitments
  split
  · exact fun _ => .inl ⟨hstate, rfl⟩
  split
  · nofun
  split
  · nofun
  dsimp only
  split
  · nofun
  next hrun =>
  have hkeep := processHeaders_keeps (Prod.ext (by simpa using hrun) rfl :
    env.processHeaders _ s = (true, _))
  split
  · exact fun _ => .inr ⟨_, rfl, hkeep.2⟩
  · exact fun _ => .inl ⟨hkeep.1.trans hstate, hkeep.2⟩

omit h in
theorem processNextHeaders_taken (hstate : s.downloadState = .redownload) (hne : headers ≠ [])
    {s'' : HeadersSyncState}
    (hrun : env.redownloadHeaders headers s = (true, s')) {ret : List FullHeader}
    (hpop : env.popHeadersReadyForAcceptance s' = (ret, s'')) (full : Bool) :
    let more := !(s''.redownloadedHeaders == [] && s''.processAllRemainingHeaders) && full
    env.processNextHeaders s headers full =
      ({ powValidatedHeaders := ret, success := true, requestMore := more },
        if more then s'' else finalize s'') := by
  unfold processNextHeaders processRedownload
  simp only [hstate, hne, hrun, hpop]
  cases !(s''.redownloadedHeaders == [] && s''.processAllRemainingHeaders) && full <;> rfl

/-! ## Runs -/

/-- What a header returned at position `i` rests on: the work of the headers received up to one of
them, or the headers on top of it with their commitments. -/
def Supported (env : SyncEnv) (stored : List Bool) (received : List FullHeader) (i : Nat) : Prop :=
  (∃ j, 0 < j ∧ j ≤ received.length ∧ env.FromStart (received.take j) ∧
    env.minimumRequiredWork ≤ addWork env.chainStart.nChainWork (received.take j)) ∨
  (∃ m, m ≤ received.length ∧ i + redownloadBufferSize < m ∧ env.FromStart (received.take m) ∧
    env.commitments env.chainStart.nHeight (received.take m) <+: stored)

omit h in
theorem Supported.append (h : Supported env stored received i)
    (headers : List FullHeader) : Supported env stored (received ++ headers) i := by
  have hlen : received.length ≤ (received ++ headers).length := by simp
  rcases h with ⟨j, h0, hj, h⟩ | ⟨m, hm, h⟩
  · refine .inl ⟨j, h0, hj.trans hlen, ?_⟩
    rwa [take_append_of_le_length hj]
  · refine .inr ⟨m, hm.trans hlen, ?_⟩
    rwa [take_append_of_le_length hm]

theorem Redownloading.supported
    (hlow : n ≤ i) (hi : i < releasedCount env received n) : Supported env stored received i := by
  by_cases hreach : env.reaches env.chainStart.nChainWork received
  · obtain ⟨j, h0, hj, hwork⟩ := env.exists_of_reaches hreach
    exact .inl ⟨j, h0, hj, h.linked.of_prefix (List.take_prefix j received), hwork⟩
  refine .inr ⟨received.length, le_rfl, ?_, ?_⟩
  · rw [releasedCount, if_neg hreach] at hi
    omega
  · rw [take_length]
    exact ⟨h.linked, _, (h.commits (by simpa using hreach)).symm⟩

end SyncEnv

/-- A sync with what passed through it: the headers received in REDOWNLOAD, those returned, and
the commitments stored when PRESYNC ended. -/
structure Sync where
  state : HeadersSyncState
  received : List FullHeader := []
  released : List FullHeader := []
  stored : List Bool := []

namespace Sync

variable (env : SyncEnv)

/-- One message: `ProcessNextHeaders` on headers and the flag `full_headers_message`. -/
def step (y : Sync) (message : List FullHeader × Bool) : Sync :=
  let (ret, s') := env.processNextHeaders y.state message.1 message.2
  { state := s'
    received :=
      if y.state.downloadState = .redownload then y.received ++ message.1 else y.received
    released := y.released ++ ret.powValidatedHeaders
    stored :=
      if y.state.downloadState = .presync ∧ s'.downloadState = .redownload then
        s'.headerCommitments
      else y.stored }

def run (messages : List (List FullHeader × Bool)) : Sync :=
  messages.foldl (step env) { state := env.start }

/-- The returned headers are a prefix of the received ones, linked and supported. -/
structure Released (y : Sync) : Prop where
  initial : y.released <+: y.received
  linked : env.FromStart y.released
  supported : ∀ i < y.released.length, env.Supported y.stored y.received i

def Inv (y : Sync) : Prop :=
  match y.state.downloadState with
  | .presync =>
    y.received = [] ∧ y.released = [] ∧ y.state.processAllRemainingHeaders = false
  | .redownload =>
    Released env y ∧
      ∃ n, env.Redownloading y.stored y.received n y.state ∧ y.released = y.received.take n
  | .final => Released env y

variable {env} {y : Sync}

theorem released_of_nil (h : y.released = []) : Released env y where
  initial := by
    rw [h]
    exact nil_prefix
  linked := by
    rw [h]
    trivial
  supported := by
    rw [h]
    nofun

variable {message : List FullHeader × Bool}

theorem inv_presync (hstate : y.state.downloadState = .presync)
    (h : Inv env y) : Inv env (step env y message) := by
  simp only [Inv, hstate] at h
  obtain ⟨hreceived, hreleased, hall⟩ := h
  obtain ⟨hret, hnext⟩ := env.processNextHeaders_presync hstate message.1 message.2
  have hreceived' : (step env y message).received = [] := by
    simp [step, hstate, hreceived]
  have hreleased' : (step env y message).released = [] := by
    simp [step, hreleased, hret]
  have hnil : Released env (step env y message) := released_of_nil hreleased'
  rcases hnext with hfinal | ⟨hpresync, hflag⟩ | ⟨s', hs', hflag⟩
  · have hstate' : (step env y message).state.downloadState = .final := hfinal
    simp only [Inv, hstate']
    exact hnil
  · have hstate' : (step env y message).state.downloadState = .presync := hpresync
    simp only [Inv, hstate']
    exact ⟨hreceived', hreleased', hflag.trans hall⟩
  · have hbegin : (step env y message).state = env.beginRedownload s' := hs'
    have hstored : (step env y message).stored = s'.headerCommitments := by
      simp [step, hstate, hs', SyncEnv.beginRedownload]
    simp only [Inv, hbegin, hstored, hreceived', hreleased']
    exact ⟨hnil, 0, SyncEnv.redownloading_begin (hflag.trans hall), rfl⟩

theorem Released.taken {received : List FullHeader} {n k : Nat} (h : Released env y)
    (hn : y.released = y.received.take n) (hle : n ≤ y.received.length)
    (hlinked : env.FromStart (y.received ++ received))
    (hsupp : ∀ i, n ≤ i → i < n + k → env.Supported y.stored (y.received ++ received) i)
    {y' : Sync} (hreceived : y'.received = y.received ++ received)
    (hreleased : y'.released = (y.received ++ received).take (n + k))
    (hstored : y'.stored = y.stored) : Released env y' where
  initial := by
    rw [hreceived, hreleased]
    exact take_prefix _ _
  linked := by
    rw [hreleased]
    exact hlinked.of_prefix (List.take_prefix _ _)
  supported := by
    intro i hi
    rw [hstored, hreceived]
    rw [hreleased, length_take] at hi
    by_cases hlow : n ≤ i
    · exact hsupp i hlow (by omega)
    refine (h.supported i ?_).append received
    rw [hn, length_take]
    omega

theorem inv_redownload (hstate : y.state.downloadState = .redownload) (h : Inv env y) :
    Inv env (step env y message) := by
  have hkeep := h
  simp only [Inv, hstate] at h
  obtain ⟨hreleased, n, hinv, hn⟩ := h
  by_cases hne : message.1 = []
  · have hstep : step env y message = y := by
      simp [step, SyncEnv.processNextHeaders, hne, hstate]
    rwa [hstep]
  have hreceived' : (step env y message).received = y.received ++ message.1 := by
    simp [step, hstate]
  have hstored' : (step env y message).stored = y.stored := by
    simp [step, hstate]
  cases hok : (env.redownloadHeaders message.1 y.state).1 with
  | false =>
    have hstate' : (step env y message).state.downloadState = .final := by
      simp [step, SyncEnv.processNextHeaders, SyncEnv.processRedownload, SyncEnv.finalize, hstate,
        hne, hok]
    have hsame : (step env y message).released = y.released := by
      simp [step, SyncEnv.processNextHeaders, SyncEnv.processRedownload, hstate, hne, hok]
    simp only [Inv, hstate']
    refine ⟨?_, ?_, ?_⟩
    · grind
    · rw [hsame]
      exact hreleased.linked
    · rw [hsame, hreceived', hstored']
      exact fun i hi => (hreleased.supported i hi).append _
  | true =>
    have hbatch := hinv.batch (Prod.ext hok rfl)
    obtain ⟨k, s'', hk, hpop, hinv'⟩ := hbatch.pop
    have heq := SyncEnv.processNextHeaders_taken hstate hne (Prod.ext hok rfl) hpop message.2
    have hreleased' : (step env y message).released = (y.received ++ message.1).take (n + k) := by
      simp only [step, heq, hn]
      rw [take_add, take_append_of_le_length hinv.count]
    have hok' : Released env (step env y message) :=
      hreleased.taken hn hinv.count hbatch.linked
        (fun i hlow hi => hbatch.supported hlow (hk ▸ hi)) hreceived' hreleased' hstored'
    have hnext : (step env y message).state = s'' ∨
        (step env y message).state.downloadState = .final := by
      simp only [step, heq]
      split
      · exact .inl rfl
      · exact .inr rfl
    rcases hnext with hs'' | hfinal
    · simp only [Inv, hs'', hinv'.state, hreceived', hstored']
      exact ⟨hok', n + k, hinv', hreleased'⟩
    · simp only [Inv, hfinal]
      exact hok'

theorem inv_step (h : Inv env y) (message : List FullHeader × Bool) :
    Inv env (step env y message) := by
  cases hstate : y.state.downloadState with
  | presync => exact inv_presync hstate h
  | redownload => exact inv_redownload hstate h
  | final =>
    have hstep : step env y message = y := by
      simp [step, SyncEnv.processNextHeaders, hstate]
    rwa [hstep]

theorem inv_run (messages : List (List FullHeader × Bool)) : Inv env (run env messages) := by
  have hstart : Inv env { state := env.start } := ⟨rfl, rfl, rfl⟩
  exact foldlRecOn messages (step env) hstart fun _ h message _ => inv_step h message

/-- **Release**: over every sequence of messages, the headers returned are, verbatim and in order,
a prefix of those received in REDOWNLOAD, linked from `chain_start`, and each is returned only
once the work of received headers reached the minimum or `REDOWNLOAD_BUFFER_SIZE` later headers of
its chain have been received and the commitments of all of them matched the stored ones. -/
theorem released_committed (env : SyncEnv) (messages : List (List FullHeader × Bool)) :
    (run env messages).released <+: (run env messages).received ∧
      env.FromStart (run env messages).released ∧
      ∀ i < (run env messages).released.length,
        env.Supported (run env messages).stored (run env messages).received i := by
  have h : Inv env (run env messages) := inv_run messages
  unfold Inv at h
  split at h
  · obtain ⟨-, hreleased, -⟩ := h
    rw [hreleased]
    exact ⟨List.nil_prefix, trivial, nofun⟩
  · exact ⟨h.1.initial, h.1.linked, h.1.supported⟩
  · exact ⟨h.initial, h.linked, h.supported⟩

end Sync

end BitcoinPurity
