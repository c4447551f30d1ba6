import BitcoinPurity.HeadersSync.Release

/-!
A peer that serves one chain twice is synced to the end.

`Presyncing` says what the state has recorded of the headers served so far in PRESYNC.  The two
passes may stop at different headers: PRESYNC at the end of a message (a signet at the header that
reaches the minimum), REDOWNLOAD checks commitments only before the header that reaches it.  So
the commitments stored always cover those consumed (`Redownloading.honest`).

`SyncEnv.serve_complete`: however the chain is cut into messages, no message is refused and all
headers up to the one that reaches the minimum are returned in order.
-/

namespace BitcoinPurity

open Links List

namespace SyncEnv

variable (env : SyncEnv)

/-! ## The chain and the messages -/

/-- Consecutive `nBits` after a block are permitted transitions. -/
def Permits (params : PowParams) : Int → Nat → List FullHeader → Prop
  | _, _, [] => True
  | height, nBits, h :: t =>
    permittedDifficultyTransition params (height + 1) nBits h.nBits ∧
      Permits params (height + 1) h.nBits t

def PinsMet : Int → List FullHeader → Prop
  | _, [] => True
  | height, h :: t => env.pinsPermitted (height + 1) h ∧ PinsMet (height + 1) t

/-- The headers up to and including the one at which the work reaches the minimum. -/
def untilWork (work : Nat) : List FullHeader → List FullHeader
  | [] => []
  | h :: t =>
    h :: if work + getBlockProof h.nBits ≥ env.minimumRequiredWork then []
      else untilWork (work + getBlockProof h.nBits) t

/-- A chain from `chain_start`, with what it has grown by when it is served again. -/
structure ServedChain (chain extension : List FullHeader) : Prop where
  linked : env.FromStart (chain ++ extension)
  permitted : Permits env.params env.chainStart.nHeight env.chainStart.header.nBits
    (chain ++ extension)
  pins : env.params.signetBlocks → env.PinsMet env.chainStart.nHeight chain
  bound : (env.commitments env.chainStart.nHeight chain).length ≤ env.maxCommitments
  work : env.minimumRequiredWork ≤ addWork env.chainStart.nChainWork chain

/-- A served chain whose heights fit an `int` and whose work fits 256 bits. -/
structure FittingChain (chain extension : List FullHeader) : Prop
    extends ServedChain env chain extension where
  heightFits : env.chainStart.nHeight + chain.length < 2 ^ 31
  workFits : addWork env.chainStart.nChainWork chain < 2 ^ 256

/-- Headers cut into non-empty messages, all of them full but possibly the last. -/
structure Cut (messages : List (List FullHeader × Bool)) (headers : List FullHeader) : Prop where
  all : messages.flatMap Prod.fst = headers
  nonempty : ∀ m ∈ messages, m.1 ≠ []
  full : ∀ m ∈ messages.dropLast, m.2

def serveRedownload : List (List FullHeader × Bool) → HeadersSyncState →
    List ProcessingResult × HeadersSyncState
  | [], s => ([], s)
  | m :: rest, s =>
    if s.downloadState = .final then ([], s)
    else
      let (ret, s') := env.processNextHeaders s m.1 m.2
      let (rets, s'') := serveRedownload rest s'
      (ret :: rets, s'')

/-- The peer serves its messages in PRESYNC, and the messages `again` from the start once the sync
is in REDOWNLOAD. -/
def serve (again : List (List FullHeader × Bool)) : List (List FullHeader × Bool) →
    HeadersSyncState → List ProcessingResult × HeadersSyncState
  | [], s => ([], s)
  | m :: rest, s =>
    let (ret, s') := env.processNextHeaders s m.1 m.2
    let (rets, s'') :=
      match s'.downloadState with
      | .presync => serve again rest s'
      | .redownload => env.serveRedownload again s'
      | .final => ([], s')
    (ret :: rets, s'')

def returned (rets : List ProcessingResult) : List FullHeader :=
  rets.flatMap ProcessingResult.powValidatedHeaders

variable {l l' : List FullHeader}

theorem permits_append {params : PowParams} {height : Int} {nBits : Nat} :
    Permits params height nBits (l ++ l') ↔ Permits params height nBits l ∧
      Permits params (height + l.length) (lastKey (fun h => h.nBits) nBits l) l' := by
  induction l generalizing height nBits with
  | nil => simp [Permits]
  | cons h t ih =>
    simp [Permits, ih, and_assoc, Int.add_assoc, Int.add_comm 1]

theorem pinsMet_append {height : Int} : env.PinsMet height (l ++ l') ↔
      env.PinsMet height l ∧ env.PinsMet (height + l.length) l' := by
  induction l generalizing height with
  | nil => simp [PinsMet]
  | cons h t ih =>
    simp [PinsMet, ih, and_assoc, Int.add_assoc, Int.add_comm 1]

theorem reaches_of_le {work : Nat} (hne : l ≠ [])
    (hlt : addWork work l < 2 ^ 256) (hle : env.minimumRequiredWork ≤ addWork work l) :
    env.reaches work l := by
  obtain ⟨t, h, rfl⟩ := (eq_nil_or_concat l).resolve_left hne
  rw [concat_eq_append, addWork_append] at hlt hle
  rw [concat_eq_append, reaches_append, Bool.or_eq_true]
  right
  simp only [addWork] at hlt
  simp only [reaches, Nat.mod_eq_of_lt hlt, Bool.or_false, decide_eq_true_eq]
  exact hle

theorem untilWork_initial {work : Nat} {chain all : List FullHeader}
    (hlt : addWork work chain < 2 ^ 256) (hchain : chain <+: all) (hl : l <+: all)
    (hreach : env.reaches work l) : env.untilWork work chain <+: l := by
  induction chain generalizing work l all with
  | nil => exact nil_prefix
  | cons h t ih =>
    obtain ⟨rest, rfl⟩ := hchain
    cases l with
    | nil => cases hreach
    | cons h' t' =>
      rw [cons_append, cons_prefix_cons] at hl
      obtain ⟨rfl, ht'⟩ := hl
      have hnow := lt_of_le_of_lt (le_addWork _ t) hlt
      simp only [reaches, Nat.mod_eq_of_lt hnow, Bool.or_eq_true, decide_eq_true_eq] at hreach
      rw [untilWork, cons_prefix_cons]
      refine ⟨rfl, ?_⟩
      split
      next => exact nil_prefix
      next hmin => exact ih hlt (prefix_append t rest) ht' (hreach.resolve_left hmin)

/-! ## PRESYNC -/

/-- In PRESYNC the headers `done` of the chain have been processed. -/
structure Presyncing (done : List FullHeader) (s : HeadersSyncState) : Prop where
  state : s.downloadState = .presync
  flag : s.processAllRemainingHeaders = false
  height : s.currentHeight = env.chainStart.nHeight + done.length
  last : s.lastHeaderReceived = lastKey id env.chainStart.header done
  work : s.currentChainWork = addWork env.chainStart.nChainWork done
  commits : s.headerCommitments = env.commitments env.chainStart.nHeight done

section

variable {env} {chain extension : List FullHeader}

theorem narrowInt_height (hheight : env.chainStart.nHeight + chain.length < 2 ^ 31)
    {done : List FullHeader} {h : FullHeader} {rest : List FullHeader}
    (hchain : chain = done ++ h :: rest) :
    narrowInt (env.chainStart.nHeight + done.length + 1) =
      env.chainStart.nHeight + done.length + 1 := by
  have hge := env.chainStart.height_ge
  rw [hchain, length_append, length_cons] at hheight
  exact Int.bmod_eq_of_le (by omega) (by omega)

variable {done : List FullHeader} {s : HeadersSyncState} {hd : FullHeader}

section

variable (h : env.Presyncing done s) (hfit : env.FittingChain chain extension)
include h hfit

theorem Presyncing.presyncable {rest : List FullHeader} (hchain : chain = done ++ hd :: rest) :
    env.Presyncable s hd := by
  have hnarrow : narrowInt (s.currentHeight + 1) = s.currentHeight + 1 := by
    rw [h.height]
    exact narrowInt_height hfit.heightFits hchain
  refine ⟨h.state, fun hsig => ?_, ?_, fun hcommit => ?_⟩
  · have hpins := hfit.pins hsig
    rw [hchain, pinsMet_append] at hpins
    rw [hnarrow, h.height]
    exact hpins.2.1
  · have hperm := hfit.permitted
    rw [hchain, append_assoc, permits_append] at hperm
    rw [hnarrow, h.height, h.last, lastKey_id (fun h : FullHeader => h.nBits)]
    exact hperm.2.1
  · -- the commitments of the chain are bounded, and this header adds one
    have hbound := hfit.bound
    rw [hnarrow, h.height] at hcommit
    rw [hchain, commitments_append, ← h.commits, length_append, commitments,
      if_pos hcommit, length_append, length_singleton] at hbound
    omega

/-- **A header more in PRESYNC.** -/
theorem Presyncing.next {rest : List FullHeader} (hchain : chain = done ++ hd :: rest) :
    env.Presyncing (done ++ [hd]) (env.presynced s hd) := by
  have hnarrow : narrowInt (s.currentHeight + 1) = s.currentHeight + 1 := by
    rw [h.height]
    exact narrowInt_height hfit.heightFits hchain
  have hlt : addWork env.chainStart.nChainWork (done ++ [hd]) < 2 ^ 256 := by
    have hwork := hfit.workFits
    rw [hchain, append_cons done hd rest, addWork_append] at hwork
    exact lt_of_le_of_lt (le_addWork _ rest) hwork
  exact
    { state := h.state
      flag := h.flag
      height := by
        rw [length_append, length_singleton, Nat.cast_succ, ← Int.add_assoc, ← h.height, ← hnarrow]
        rfl
      last := by
        rw [lastKey_append]
        rfl
      work := by
        rw [addWork_append, ← h.work] at hlt ⊢
        exact Nat.mod_eq_of_lt hlt
      commits := by
        rw [commitments_append, ← h.commits, ← h.height]
        simp [presynced, commitments, hnarrow] }

/-- **The loop of PRESYNC** takes a whole message, or on a signet the headers of it up to the
minimum. -/
theorem Presyncing.headers {message rest : List FullHeader}
    (hchain : chain = done ++ message ++ rest) :
    ∃ done' s', env.processHeaders message s = (true, s') ∧ env.Presyncing done' s' ∧
      done' <+: chain ∧
      (done' = done ++ message ∨
        env.minimumRequiredWork ≤ addWork env.chainStart.nChainWork done') := by
  induction message generalizing done s with
  | nil =>
    refine ⟨done, s, rfl, h, ?_, .inl (by simp)⟩
    rw [hchain, append_nil]
    exact prefix_append _ _
  | cons hd t ih =>
    rw [processHeaders]
    split
    next hstop =>
      -- the work is there: a signet leaves the rest of the message unprocessed
      refine ⟨done, s, rfl, h, ?_, .inr ?_⟩
      · rw [hchain, append_assoc]
        exact prefix_append _ _
      · rw [← h.work]
        grind
    next =>
      have hsplit : chain = done ++ hd :: (t ++ rest) := by
        rw [hchain, append_assoc, cons_append]
      rw [(h.presyncable hfit hsplit).eq]
      have hcons := append_cons done hd t
      obtain ⟨done', s', hrun, hinv, hinit, hend⟩ :=
        ih (h.next hfit hsplit) (by rw [hchain, hcons])
      exact ⟨done', s', hrun, hinv, hinit, hcons ▸ hend⟩

/-- **A message of PRESYNC** is taken and more is requested: REDOWNLOAD begins, or headers of the
chain are left. -/
theorem Presyncing.message {message rest : List FullHeader}
    (hne : message ≠ []) (hchain : chain = done ++ message ++ rest) {full : Bool}
    (hfull : rest ≠ [] → full) :
    ∃ s', env.processNextHeaders s message full = ({ success := true, requestMore := true }, s') ∧
      ((∃ done' s1, s' = env.beginRedownload s1 ∧ env.Presyncing done' s1 ∧ done' <+: chain ∧
          env.minimumRequiredWork ≤ addWork env.chainStart.nChainWork done') ∨
        rest ≠ [] ∧ env.Presyncing (done ++ message) s') := by
  obtain ⟨done', s', hrun, hinv, hinit, hend⟩ := h.headers hfit hchain
  obtain ⟨first, tail, rfl⟩ := exists_cons_of_ne_nil hne
  have hlink : first.hashPrevBlock = env.getHash s.lastHeaderReceived := by
    have hlinked := hfit.linked
    rw [FromStart, hchain, append_assoc, append_assoc, linked_append] at hlinked
    rw [h.last, lastKey_id env.getHash]
    exact hlinked.2.1
  by_cases hmin : s'.currentChainWork ≥ env.minimumRequiredWork
  · refine ⟨env.beginRedownload s', ?_, .inl ⟨done', s', rfl, hinv, hinit, hinv.work ▸ hmin⟩⟩
    simp [processNextHeaders, processPresync, validateAndStoreHeadersCommitments, h.state, hlink,
      hrun, hmin, beginRedownload]
  have hdone : done' = done ++ first :: tail := by
    refine hend.resolve_right fun hle => hmin ?_
    rwa [hinv.work]
  have hrest : rest ≠ [] := by
    rintro rfl
    rw [append_nil, ← hdone] at hchain
    exact hmin (by rw [hinv.work, ← hchain]; exact hfit.work)
  refine ⟨s', ?_, .inr ⟨hrest, hdone ▸ hinv⟩⟩
  simp [processNextHeaders, processPresync, validateAndStoreHeadersCommitments, h.state, hlink,
    hrun, hmin, hfull hrest]

end

/-! ## REDOWNLOAD -/

/-- What PRESYNC stored: the commitments of headers of the chain that reach the minimum. -/
def Covered (env : SyncEnv) (chain : List FullHeader) (stored : List Bool) : Prop :=
  ∃ done, done <+: chain ∧ stored = env.commitments env.chainStart.nHeight done ∧
    env.minimumRequiredWork ≤ addWork env.chainStart.nChainWork done

variable {stored : List Bool} {received : List FullHeader} {n : Nat}

theorem addWork_le_of_initial {work : Nat} {l l' : List FullHeader} (h : l <+: l') :
    addWork work l ≤ addWork work l' := by
  obtain ⟨t, rfl⟩ := h
  rw [addWork_append]
  exact le_addWork _ t

theorem before_minimum {all : List FullHeader}
    (hwork : addWork env.chainStart.nChainWork chain < 2 ^ 256)
    (hmin : env.minimumRequiredWork ≤ addWork env.chainStart.nChainWork chain)
    (hne : chain ≠ []) (hchain : chain <+: all) (hrec : received <+: all)
    (hreach : env.reaches env.chainStart.nChainWork received = false) :
    received <+: chain ∧ received.length < chain.length ∧
      (received ≠ [] → addWork env.chainStart.nChainWork received < env.minimumRequiredWork) := by
  have hlt : received.length < chain.length := by
    by_contra hge
    obtain ⟨t, ht⟩ := prefix_of_prefix_length_le hchain hrec (by omega)
    simp [← ht, reaches_append, env.reaches_of_le hne hwork hmin] at hreach
  have hinit := prefix_of_prefix_length_le hrec hchain (by omega)
  refine ⟨hinit, hlt, fun hnil => ?_⟩
  by_contra hge
  have := env.reaches_of_le hnil (lt_of_le_of_lt (addWork_le_of_initial hinit) hwork) (by omega)
  simp [this] at hreach

variable {rest message headers : List FullHeader} {m : List FullHeader × Bool}
  {messages : List (List FullHeader × Bool)}

theorem Cut.tail (h : Cut (m :: messages) headers) : Cut messages (messages.flatMap Prod.fst) where
  all := rfl
  nonempty := fun a ha => h.nonempty a (mem_cons_of_mem m ha)
  full := fun a ha => by
    cases messages with
    | nil => cases ha
    | cons m' rest => exact h.full a (mem_cons_of_mem m ha)

theorem Cut.full_head (h : Cut (m :: messages) headers)
    (hrest : messages.flatMap Prod.fst ≠ []) : m.2 := by
  cases messages with
  | nil => exact absurd rfl hrest
  | cons m' rest => exact h.full m mem_cons_self

theorem drop_take_append (l : List FullHeader) {a b c : Nat} (hab : a ≤ b) (hbc : b ≤ c)
    (hb : b ≤ l.length) : (l.take b).drop a ++ (l.take c).drop b = (l.take c).drop a := by
  have htake : l.take b = (l.take c).take b := by
    rw [take_take, Nat.min_eq_left hbc]
  rw [htake]
  conv_rhs => rw [← take_append_drop b (l.take c)]
  refine (drop_append_of_le_length ?_).symm
  simp only [length_take]
  omega

theorem left_of_not_reaches (hfit : env.FittingChain chain extension) (hne : chain ≠ [])
    (hall : chain ++ extension = received ++ rest)
    (hreach : env.reaches env.chainStart.nChainWork received = false) : rest ≠ [] := by
  rintro rfl
  obtain ⟨-, hlt, -⟩ := before_minimum hfit.workFits hfit.work hne
    (prefix_append chain extension) (hall ▸ prefix_append received []) hreach
  rw [append_nil] at hall
  rw [← hall, length_append] at hlt
  omega

section

variable (h : env.Redownloading stored received n s)
include h

theorem Redownloading.previousNBits (hn : received ≠ [] → n < received.length) :
    env.previousNBits s =
      lastKey (fun h : FullHeader => h.nBits) env.chainStart.header.nBits received := by
  rw [SyncEnv.previousNBits, h.buffer, lastKey_eq_getLast?, getLast?_map]
  by_cases hnil : received = []
  · subst hnil
    simp
  · grind

variable (hfit : env.FittingChain chain extension) (hne : chain ≠ [])
  (hcov : Covered env chain stored) (hn : received ≠ [] → n < received.length)
include hfit hne hcov hn

/-- **The next header of the chain is taken in REDOWNLOAD**: before the minimum is reached again,
PRESYNC has stored its commitment. -/
theorem Redownloading.honest {hd : FullHeader}
    (hall : chain ++ extension = received ++ hd :: rest) : env.Redownloadable s hd := by
  have hchain : chain <+: chain ++ extension := prefix_append _ _
  have hrec : received <+: chain ++ extension := hall ▸ prefix_append _ _
  have hrec' : received ++ [hd] <+: chain ++ extension := by
    rw [hall, append_cons received hd rest]
    exact prefix_append _ _
  refine ⟨h.state, fun hsig hflag => ?_, ?_, ?_, fun hflag hcommit => ?_⟩
  · -- the pins of a header before the minimum: it is one of the chain
    rw [h.all] at hflag
    obtain ⟨hinit, hlt, -⟩ := before_minimum hfit.workFits hfit.work hne hchain hrec hflag
    have hinit' : received ++ [hd] <+: chain :=
      prefix_of_prefix_length_le hrec' hchain (by simp; omega)
    obtain ⟨t, ht⟩ := hinit'
    rw [append_assoc] at ht
    have hpins := hfit.pins hsig
    rw [← ht, pinsMet_append] at hpins
    rw [h.height, narrowInt_height hfit.heightFits ht.symm]
    exact hpins.2.1
  · have hlinked := hfit.linked
    rw [FromStart, hall, linked_append] at hlinked
    rw [h.lastHash]
    exact hlinked.2.1
  · have hperm := hfit.permitted
    rw [hall, permits_append] at hperm
    rw [h.height, h.previousNBits hn]
    exact hperm.2.1
  · -- both passes see the header before the minimum, so its commitment was stored
    rw [h.all_next] at hflag
    obtain ⟨-, -, hbelow⟩ := before_minimum hfit.workFits hfit.work hne hchain hrec' hflag
    obtain ⟨done, hdone, hstored, hmin⟩ := hcov
    have hinit : received ++ [hd] <+: done := by
      refine prefix_of_prefix_length_le hrec' (hdone.trans hchain) ?_
      by_contra hlt
      have hrev := prefix_of_prefix_length_le (hdone.trans hchain) hrec' (by omega)
      have hle : addWork env.chainStart.nChainWork done ≤
          addWork env.chainStart.nChainWork (received ++ [hd]) := addWork_le_of_initial hrev
      have := hbelow (by simp)
      omega
    obtain ⟨t, ht⟩ := hinit
    have hbefore : env.reaches env.chainStart.nChainWork received = false := by
      rw [reaches_append, Bool.or_eq_false_iff] at hflag
      exact hflag.1
    have hcommits := h.commits hbefore
    rw [hstored, ← ht, append_assoc, commitments_append, singleton_append, commitments,
      ← h.height, if_pos hcommit] at hcommits
    rw [← append_cancel_left hcommits]
    rfl

/-- **A message of REDOWNLOAD** is taken. -/
theorem Redownloading.honest_batch
    (hall : chain ++ extension = received ++ message ++ rest) :
    (env.redownloadHeaders message s).1 := by
  induction message generalizing received s with
  | nil => rfl
  | cons hd t ih =>
    have hsplit : chain ++ extension = received ++ hd :: (t ++ rest) := by
      rw [hall, append_assoc, cons_append]
    have htaken := h.honest hfit hne hcov hn hsplit
    rw [redownloadHeaders, htaken.eq]
    refine ih (h.next htaken) (fun _ => ?_) (by rw [hall, append_cons received])
    have := h.count
    simp only [length_append, length_singleton]
    omega

/-! ## The whole exchange -/

/-- **A message of REDOWNLOAD** is taken and returns the next headers; either the minimum is
reached and the sync is over, or it goes on. -/
theorem Redownloading.honest_message (hm : message ≠ [])
    (hall : chain ++ extension = received ++ message ++ rest) {full : Bool}
    (hfull : rest ≠ [] → full) :
    ∃ j ret s', env.processNextHeaders s message full = (ret, s') ∧ n ≤ j ∧
      j ≤ (received ++ message).length ∧ ret.success ∧
      ret.powValidatedHeaders = ((chain ++ extension).take j).drop n ∧
      ((s'.downloadState = .final ∧
          env.untilWork env.chainStart.nChainWork chain <+: (chain ++ extension).take j) ∨
        (env.reaches env.chainStart.nChainWork (received ++ message) = false ∧
          j < (received ++ message).length ∧
          env.Redownloading stored (received ++ message) j s')) := by
  have hok := h.honest_batch hfit hne hcov hn hall
  obtain ⟨k, s', hk, hpop, hinv⟩ := (h.batch (Prod.ext hok rfl)).pop
  have htaken := processNextHeaders_taken h.state hm (Prod.ext hok rfl) hpop full
  refine ⟨n + k, _, _, htaken, Nat.le_add_right n k, hinv.count, rfl, ?_, ?_⟩
  · rw [hall, take_append_of_le_length hinv.count, drop_take, Nat.add_sub_cancel_left]
  cases hreach : env.reaches env.chainStart.nChainWork (received ++ message) with
  | true =>
    rw [releasedCount, if_pos hreach] at hk
    have hempty : s'.redownloadedHeaders = [] := by
      rw [hinv.buffer, hk, drop_length, map_nil]
    refine .inl ⟨?_, ?_⟩
    · simp [hempty, hinv.all, hreach, finalize]
    · rw [hall, hk, take_left]
      exact env.untilWork_initial hfit.workFits (prefix_append chain extension)
        (hall ▸ prefix_append _ _) hreach
  | false =>
    have hflag : s'.processAllRemainingHeaders = false := hinv.all.trans hreach
    have hlong := length_pos_iff.mpr hm
    have hcount := h.count
    have hbuf : 0 < redownloadBufferSize := by decide
    refine .inr ⟨rfl, ?_, ?_⟩
    · rw [releasedCount, hreach, if_neg Bool.false_ne_true] at hk
      rw [length_append] at hk ⊢
      omega
    · rw [hfull (left_of_not_reaches hfit hne hall hreach)]
      simpa [hflag] using hinv

/-- **REDOWNLOAD completes.** -/
theorem serveRedownload_complete
    (hreach : env.reaches env.chainStart.nChainWork received = false) (hcut : Cut messages rest)
    (hall : chain ++ extension = received ++ rest) :
    ∃ m, n ≤ m ∧ env.untilWork env.chainStart.nChainWork chain <+: (chain ++ extension).take m ∧
      returned (env.serveRedownload messages s).1 = ((chain ++ extension).take m).drop n ∧
      (∀ ret ∈ (env.serveRedownload messages s).1, ret.success) ∧
      (env.serveRedownload messages s).2.downloadState = .final := by
  induction messages generalizing received n s rest with
  | nil => exact absurd hcut.all.symm (left_of_not_reaches hfit hne hall hreach)
  | cons m messages ih =>
    have hall' : chain ++ extension = received ++ m.1 ++ messages.flatMap Prod.fst := by
      rw [hall, ← hcut.all, flatMap_cons, append_assoc]
    obtain ⟨j, ret, s', heq, hnj, hj, hok, hret, hnext⟩ :=
      h.honest_message hfit hne hcov hn (hcut.nonempty m mem_cons_self) hall' hcut.full_head
    rw [serveRedownload, if_neg (by rw [h.state]; decide), heq]
    rcases hnext with ⟨hfinal, huntil⟩ | ⟨hreach', hlt, hinv⟩
    · have hdone : env.serveRedownload messages s' = ([], s') := by
        cases messages <;> simp [serveRedownload, hfinal]
      dsimp only
      rw [hdone]
      exact ⟨j, hnj, huntil, by simpa [returned] using hret, by simpa using hok, hfinal⟩
    obtain ⟨k, hk, huntil, hrets, hsuccess, hfinal⟩ :=
      ih hinv (fun _ => hlt) hreach' hcut.tail hall'
    refine ⟨k, hnj.trans hk, huntil, ?_, ?_, hfinal⟩
    · have hcat := drop_take_append (chain ++ extension) hnj hk (by grind)
      simp only [returned, flatMap_cons] at hrets ⊢
      rw [hrets, hret, hcat]
    · grind

end

/-- **PRESYNC leads to REDOWNLOAD.** -/
theorem serve_presyncing (h : env.Presyncing done s) (hfit : env.FittingChain chain extension)
    {messages again : List (List FullHeader × Bool)} {rest : List FullHeader} (hrest : rest ≠ [])
    (hcut : Cut messages rest) (hagain : Cut again (chain ++ extension))
    (hchain : chain = done ++ rest) :
    ∃ m, env.untilWork env.chainStart.nChainWork chain <+: (chain ++ extension).take m ∧
      returned (env.serve again messages s).1 = (chain ++ extension).take m ∧
      (∀ ret ∈ (env.serve again messages s).1, ret.success) ∧
      (env.serve again messages s).2.downloadState = .final := by
  induction messages generalizing done s rest with
  | nil => exact absurd hcut.all.symm hrest
  | cons m messages ih =>
    have hchain' : chain = done ++ m.1 ++ messages.flatMap Prod.fst := by
      rw [hchain, ← hcut.all, flatMap_cons, append_assoc]
    have hne : chain ≠ [] := by
      rw [hchain]
      exact append_ne_nil_of_right_ne_nil done hrest
    obtain ⟨s', heq, hnext⟩ :=
      h.message hfit (hcut.nonempty m mem_cons_self) hchain' hcut.full_head
    rw [serve, heq]
    rcases hnext with ⟨done', s1, rfl, hinv, hinit, hmin⟩ | ⟨hleft, hinv⟩
    · obtain ⟨j, -, huntil, hret, hsuccess, hfinal⟩ :=
        serveRedownload_complete (redownloading_begin hinv.flag) hfit hne
          ⟨done', hinit, hinv.commits, hmin⟩ (fun h => absurd rfl h) rfl hagain rfl
      exact ⟨j, huntil, hret, by simpa [beginRedownload] using hsuccess, hfinal⟩
    · obtain ⟨j, huntil, hret, hsuccess, hfinal⟩ := ih hinv hleft hcut.tail hchain'
      simp only [hinv.state]
      exact ⟨j, huntil, hret, by simpa using hsuccess, hfinal⟩

/-- **Completion**: a peer that serves a chain in PRESYNC and again, possibly grown, in REDOWNLOAD
is never aborted, however the headers are cut into messages, and all headers up to the one at which
the work reaches the minimum are returned in order, if the chain's heights fit an `int` and its
work 256 bits. -/
theorem serve_complete (env : SyncEnv) (chain extension : List FullHeader)
    (presync again : List (List FullHeader × Bool)) (hserved : env.ServedChain chain extension)
    (hheight : env.chainStart.nHeight + chain.length < 2 ^ 31)
    (hwork : addWork env.chainStart.nChainWork chain < 2 ^ 256)
    (hpresync : Cut presync chain) (hagain : Cut again (chain ++ extension)) :
    (∀ ret ∈ (env.serve again presync env.start).1, ret.success) ∧
      env.untilWork env.chainStart.nChainWork chain <+:
        returned (env.serve again presync env.start).1 ∧
      returned (env.serve again presync env.start).1 <+: chain ++ extension ∧
      (chain ≠ [] → (env.serve again presync env.start).2.downloadState = .final) := by
  by_cases hne : chain = []
  · have hnil : presync = [] := by
      cases presync with
      | nil => rfl
      | cons m rest =>
        have hall := hpresync.all
        rw [hne, flatMap_cons, append_eq_nil_iff] at hall
        exact absurd hall.1 (hpresync.nonempty m mem_cons_self)
    subst hnil
    rw [hne]
    exact ⟨nofun, List.nil_prefix, nil_prefix, fun h => absurd rfl h⟩
  · obtain ⟨m, huntil, hret, hsuccess, hfinal⟩ :=
      serve_presyncing (s := env.start) ⟨rfl, rfl, (Int.add_zero _).symm, rfl, rfl, rfl⟩
        ⟨hserved, hheight, hwork⟩ hne hpresync hagain (nil_append chain).symm
    grind

/-- A header whose hash is its nonce. -/
def chainedHeader (hash hashPrevBlock nBits : Nat) : FullHeader :=
  { nVersion := 4, hashMerkleRoot := 0, nTime := 0, nBits := nBits, nNonce := hash,
    hashPrevBlock := hashPrevBlock }

/-- A sync from a block with hash `0` under parameters that permit every transition. -/
def plainSync (chainStart : ChainStart) (commitOffset minimumRequiredWork : Nat) : SyncEnv where
  params :=
    { powLimit := 2 ^ 255, fPowAllowMinDifficultyBlocks := true, nPowTargetSpacing := 600,
      nPowTargetTimespan := 1209600 }
  getHash := fun header => header.nNonce
  hasherBit := fun hash => hash % 2 == 1
  commitOffset := commitOffset
  maxCommitments := 10
  chainStart := chainStart
  minimumRequiredWork := minimumRequiredWork

/-- Two headers, the first of them committed to, served in one message and again one by one. -/
theorem serve_complete_two_headers :
    let env := plainSync { header := chainedHeader 0 0 0, nHeight := 7, nChainWork := 0 } 8 4
    let first := chainedHeader 1 0 0x207fffff
    let second := chainedHeader 2 1 0x207fffff
    [first, second] <+:
      returned (env.serve [([first], true), ([second], false)] [([first, second], true)]
        env.start).1 :=
  (serve_complete (plainSync { header := chainedHeader 0 0 0, nHeight := 7, nChainWork := 0 } 8 4)
    [chainedHeader 1 0 0x207fffff, chainedHeader 2 1 0x207fffff] []
    [([chainedHeader 1 0 0x207fffff, chainedHeader 2 1 0x207fffff], true)]
    [([chainedHeader 1 0 0x207fffff], true), ([chainedHeader 2 1 0x207fffff], false)]
    ⟨⟨rfl, rfl, trivial⟩, ⟨rfl, rfl, trivial⟩, nofun, by decide +kernel, by decide +kernel⟩
    (by decide) (by decide +kernel) ⟨rfl, by decide, by decide⟩ ⟨rfl, by decide, by decide⟩).2.1

/-- From a block at height `2 ^ 31 - 1` PRESYNC continues at negative heights and stores no
commitment for the height at which REDOWNLOAD expects one; and two headers of work `2 ^ 255` in one
message add up to `0`, below the minimum the first of them has reached. In both cases the headers
of the chain are not returned. -/
theorem serve_wraps :
    (let env :=
      plainSync { header := chainedHeader 0 0 0, nHeight := 2 ^ 31 - 1, nChainWork := 0 } 104 4
    let chain := [chainedHeader 1 0 0x207fffff, chainedHeader 2 1 0x207fffff]
    env.ServedChain chain [] ∧ Cut [(chain, true)] chain ∧ Cut [(chain, true)] (chain ++ []) ∧
      (env.serve [(chain, true)] [(chain, true)] env.start).1.map ProcessingResult.success =
        [true, false] ∧
      returned (env.serve [(chain, true)] [(chain, true)] env.start).1 = [] ∧
      env.untilWork env.chainStart.nChainWork chain = chain) ∧
    (let env :=
      plainSync { header := chainedHeader 0 0 0, nHeight := 0, nChainWork := 0 } 5 (2 ^ 255)
    let chain := [chainedHeader 1 0 0x01010000, chainedHeader 2 1 0x01010000]
    env.ServedChain chain [] ∧ Cut [(chain, true)] chain ∧ Cut [(chain, true)] (chain ++ []) ∧
      returned (env.serve [(chain, true)] [(chain, true)] env.start).1 = [] ∧
      env.untilWork env.chainStart.nChainWork chain = [chainedHeader 1 0 0x01010000]) := by
  constructor
  · refine ⟨⟨⟨rfl, rfl, trivial⟩, ⟨rfl, rfl, trivial⟩, nofun, ?_, ?_⟩, ⟨rfl, by decide, by decide⟩,
      ⟨rfl, by decide, by decide⟩, ?_, ?_, ?_⟩ <;> decide +kernel
  · refine ⟨⟨⟨rfl, rfl, trivial⟩, ⟨rfl, rfl, trivial⟩, nofun, ?_, ?_⟩, ⟨rfl, by decide, by decide⟩,
      ⟨rfl, by decide, by decide⟩, ?_, ?_⟩ <;> decide +kernel

end

end SyncEnv

end BitcoinPurity
