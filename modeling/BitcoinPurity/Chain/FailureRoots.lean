import BitcoinPurity.Chain.Failures

/-!
The failure flags are rooted, in every run of the functions that touch them.

`FailuresOk` is the invariant.  Its clauses about the active chain and about the block a running
`ActivateBestChain` is on its way to say that neither has a failed block; they carry the one
place where a failure root loses its flag outside `m_failed_blocks`' bookkeeping, the loop of
`InvalidateBlock`.  There is one lemma per function, and `failureFlags_rooted` for the runs.
`checkBlockIndex_holds`: what else `CheckBlockIndex` asserts of every state of a run.
-/

namespace BitcoinPurity

open List Option BlockStatus Marks

namespace Chainstate

/-! ## The invariant -/

/-- What holds of the failure flags whenever `cs_main` is free; `cached` is the `pindexMostWork`
of a running `ActivateBestChain`. -/
structure FailuresOk (env : Env) (s : Chainstate) (cached : BlockPtr) : Prop where
  wf : Wf env s
  cached_ok : cached ≠ [] → Rooted env cached ∧ s.HaveBranch cached
  tail_known : TailKnown s
  flagged_known : ∀ b, (s.data b).nStatus.failedMask → b ∈ s.known
  contiguous : s.failureMarks.Contiguous
  roots : FailedRoots s
  tip_clear : s.failureMarks.Clear s.tip
  cached_clear : s.failureMarks.Clear cached

section

variable {env : Env} {s s' : Chainstate} {m m' : BlockPtr} {P : BlockPtr → Prop}

variable {b pindex : BlockPtr} {fuel : Nat} {inv r : Bool} {l : Invalidation}

section
variable (h : FailuresOk env s m)
include h

theorem FailuresOk.ne_nil (hb : (s.data b).nStatus.failedMask) : b ≠ [] :=
  (h.wf.known_rooted b (h.flagged_known b hb)).ne_nil

theorem FailuresOk.step (hs : FailureStep P s s') (hw : Wf env s')
    (hd : ∀ x, s.HaveBranch x → s'.HaveBranch x) (ht : s.failureMarks.Clear s'.tip)
    (hP : ∀ a, P a → ¬ a <:+ s'.tip) (hm : ∀ a, P a → ¬ a <:+ m) : FailuresOk env s' m where
  wf := hw
  cached_ok hne := (h.cached_ok hne).imp_right (hd m)
  tail_known := h.tail_known.congr hs.known
  flagged_known b hb := by
    rw [hs.known]
    exact (hs.flagged b hb).elim (h.flagged_known b) id
  contiguous := h.contiguous.spread hs.spreads
  roots := hs.roots h.roots
  tip_clear := ht.spread hs.spreads hP
  cached_clear := h.cached_clear.spread hs.spreads hm

theorem FailuresOk.same (hs : SameFailures s s') (hw : Wf env s')
    (hd : ∀ x, s.HaveBranch x → s'.HaveBranch x) (ht : s'.tip = s.tip) : FailuresOk env s' m :=
  h.step (P := fun _ => False) (.of_same hs) hw hd (ht ▸ h.tip_clear) (fun _ h => h.elim)
    fun _ h => h.elim

theorem FailuresOk.forget : FailuresOk env s [] :=
  { h with
    cached_ok := fun hne => absurd rfl hne
    cached_clear := h.tip_clear.mono nil_suffix }

end

/-! ## `AcceptBlockHeader` and `AcceptBlock` -/

theorem FailuresOk.addToBlockIndex (h : FailuresOk env s m)
    (hb : b = [env.genesis] ∨ b.tail ∈ s.known) (hw : Wf env (s.addToBlockIndex b)) :
    FailuresOk env (s.addToBlockIndex b) m := by
  have hst := addToBlockIndex_flags (h.flagged_known b) rfl
  have hmarks : (s.addToBlockIndex b).failureMarks = s.failureMarks :=
    Marks.ext (funext fun x => (hst x).1) (funext fun x => (hst x).2)
  have hfailed : (s.addToBlockIndex b).failedBlocks = s.failedBlocks := by
    unfold Chainstate.addToBlockIndex
    split <;> rfl
  have hg := addToBlockIndex_grows s b
  refine ⟨hw, fun hne => (h.cached_ok hne).imp_right (hg.haveBranch h.wf),
    h.tail_known.addToBlockIndex (hb.imp_left fun he => by rw [he]; rfl), ?_,
    hmarks ▸ h.contiguous, ?_, ?_, hmarks ▸ h.cached_clear⟩
  · intro x hx
    rw [addToBlockIndex_known]
    rw [← failureMarks_marked, hmarks] at hx
    exact .inr (h.flagged_known x hx)
  · intro x hx
    rw [(hst x).1]
    exact h.roots x (hfailed ▸ hx)
  · rw [hmarks, hg.tip]
    exact h.tip_clear

theorem FailuresOk.acceptBlockHeader (h : FailuresOk env s m) {call : HeaderCall}
    {minPow accepted : Bool}
    (ha : s.acceptBlockHeader env call minPow = some (s', accepted)) : FailuresOk env s' m := by
  obtain ⟨hw, hg, -⟩ := acceptBlockHeader_spec ha h.wf
  rcases acceptBlockHeader_cases ha with ⟨a, ⟨⟩, -⟩ | ⟨⟨⟩, hp⟩ | ⟨f, hf, hp, ⟨⟩⟩ | ⟨⟨⟩, -⟩
  · exact h
  · exact h.addToBlockIndex (hp.imp_right And.right) hw
  · obtain ⟨hmem, hfb⟩ := firstFailed_mem hf
    have hfm : (s.data f).nStatus.failedMask := by
      simp [failedMask, h.roots f hmem]
    obtain ⟨h1, h2⟩ := invalidWalk_childPath hfb s
    have hs : FailureStep (fun _ => False) s (invalidWalk f call.header.tail s) :=
      .of_childPath h1 h.tail_known hp (h.ne_nil hfm) hfm h2 (invalidWalk_grows _ _ _).2
    exact h.step hs hw (fun x hx => hg.haveBranch h.wf hx) (hg.tip ▸ h.tip_clear)
      (fun _ hf => hf.elim) fun _ hf => hf.elim

theorem FailuresOk.acceptBlock (h : FailuresOk env s m) {call : BlockCall} {accepted : Bool}
    (ha : s.acceptBlock env call = some (s', accepted)) : FailuresOk env s' m := by
  obtain ⟨hacc, -⟩ := acceptBlock_spec ha h.wf
  obtain ⟨⟨s1, r⟩, h1, h2⟩ := map_eq_some_iff.1 ha
  have hok := h.acceptBlockHeader h1
  obtain ⟨-, hg, hk⟩ := acceptBlockHeader_spec h1 h.wf
  -- bodies only come in
  have hd : ∀ x, s1.HaveBranch x → s'.HaveBranch x := fun x hx => by
    refine hacc.haveBranch x fun y hy hyx => ?_
    exact hg.newData y (hx y hy hyx)
  have ht : s'.tip = s1.tip := hacc.tip.trans hg.tip.symm
  simp only at h2
  split at h2
  · cases h2
    exact hok
  next hr =>
  have hb : call.header ∈ s1.known := hk (by simpa using hr)
  split at h2
  · cases h2
    exact hok
  next hskip =>
  split at h2
  · cases h2
    -- the failed block has no body, so it is not on a branch that has one
    have hnd : (s1.data call.header).nStatus.haveData = false := by
      by_contra hn
      simp [skipBody, hn] at hskip
    have hne := (hok.wf.known_rooted _ hb).ne_nil
    refine hok.step (FailureStep.plant hb) hacc.wf hd hok.tip_clear ?_ ?_
    · rintro a rfl
      exact not_suffix_of_haveBranch hne hnd hok.wf.tip_data
    · rintro a rfl hsuf
      by_cases hm : m = []
      · rw [hm] at hsuf
        exact hne (suffix_nil.1 hsuf)
      · exact not_suffix_of_haveBranch hne hnd (hok.cached_ok hm).2 hsuf
  · cases h2
    exact hok
  · split at h2
    · cases h2
      exact hok
    cases h2
    exact hok.same ((SameFailures.parkDeepReorg env s1 call.header).trans
      (.receivedBlockTransactions env _ _ _)) hacc.wf hd ht

/-! ## `ActivateBestChain` -/

theorem connectTip_failures {r : ConnectOutcome} (hk : TailKnown s) (hb : b ∈ s.known)
    (hne : b ≠ []) (h : s.connectTip env b = some (s', r)) :
    (r ≠ .invalid → SameFailures s s') ∧
      (r = .invalid → FailureStep (· = b) s s' ∧ b.tail = s'.tip ∧
        ∀ x ∈ s.known, b <:+ x → (s'.data x).nStatus.failedMask) := by
  obtain ⟨-, hbt, -, ht⟩ := connectTip_spec h
  unfold connectTip at h
  split at h
  · cases h
  simp only at h
  have hc : SameFailures s { s with calls := s.calls + 1 } := .of_eq rfl rfl rfl
  split at h
  · cases h
    refine ⟨fun _ => ?_, by rintro ⟨⟩⟩
    exact (hc.trans (.markConnected _ b)).trans (.of_eq rfl rfl rfl)
  · obtain ⟨s1, h1, ⟨⟩⟩ := map_eq_some_iff.1 h
    obtain ⟨h3, -, h4⟩ :=
      FailureStep.invalidBlockFound (s := { s with calls := s.calls + 1 }) hk hb hne h1
    exact ⟨fun hn => absurd rfl hn, fun _ => ⟨(FailureStep.of_same hc).trans h3,
      hbt.trans (ht (by simp)).symm, h4⟩⟩
  · cases h
    exact ⟨fun _ => hc, by rintro ⟨⟩⟩
  · cases h

variable {old t p : BlockPtr}

theorem connectBlocks_failures {front : BlockPtr} {l : List BlockPtr} {p : Progress}
    (hk : TailKnown s) (hl : ∀ b ∈ l, b ≠ [] ∧ b <:+ front ∧ b ∈ s.known ∧ front ∈ s.known)
    (h : connectBlocks env old front l s = some (s', p)) :
    FailureStep (fun a => ¬ a <:+ s'.tip) s s' ∧ (p ≠ .invalidFound → SameFailures s s') := by
  induction l generalizing s with
  | nil =>
    cases h
    exact ⟨.refl _, fun _ => .refl _⟩
  | cons b l ih =>
    obtain ⟨hne, hbf, hb, hf⟩ := hl b mem_cons_self
    unfold connectBlocks at h
    split at h
    · cases h
    · cases h
    · next s1 hs =>
      cases h
      exact ⟨.of_same ((connectTip_failures hk hb hne hs).1 (by simp)), fun hn => absurd rfl hn⟩
    · next s1 hs =>
      obtain ⟨s2, h2, ⟨⟩⟩ := map_eq_some_iff.1 h
      obtain ⟨h3, h4, h5⟩ := (connectTip_failures hk hb hne hs).2 rfl
      have hfne : front ≠ [] := by
        rintro rfl
        exact hne (suffix_nil.1 hbf)
      have ht : s'.tip = b.tail := (narrows_invalidChainFound h2).2.trans h4.symm
      -- the failed block lies above the tip
      have hoff : ¬ b <:+ s'.tip := by
        rw [ht]
        exact Branch.not_suffix_tail hne
      refine ⟨(h3.weaken ?_).trans ?_, fun hn => absurd rfl hn⟩
      · rintro a rfl
        exact hoff
      · rw [invalidChainFound_eq h2]
        exact .setBlockFailureFlags (hk.congr h3.known) hfne (h5 front hf hbf)
    · next s1 hs =>
      obtain ⟨s2, h2, h3⟩ := bind_eq_some_iff.1 h
      have hsame := ((connectTip_failures hk hb hne hs).1 (by simp)).trans
        (.pruneBlockIndexCandidates h2)
      split at h3
      · cases h3
        exact ⟨.of_same hsame, fun _ => hsame⟩
      obtain ⟨h4, h5⟩ := ih (hk.congr hsame.known) (fun b hb => by
        rw [hsame.known]
        exact hl b (mem_cons_of_mem _ hb)) h3
      exact ⟨(FailureStep.of_same hsame).trans h4, fun hp => hsame.trans (h5 hp)⟩

theorem pathAbove_head {height : Int} {x : BlockPtr} (h : x ∈ pathAbove height b) :
    x ≠ [] ∧ (pathAbove height b).headD [] = b := by
  constructor
  · rintro rfl
    induction b with
    | nil => cases h
    | cons y b ih =>
      unfold pathAbove at h
      grind
  · cases b with
    | nil => cases h
    | cons y b =>
      unfold pathAbove at h ⊢
      grind

theorem connectLoop_failures {height : Int} (hk : TailKnown s) (hm : m ∈ s.known)
    (h : connectLoop env old m fuel height s = some (s', inv)) :
    FailureStep (fun a => ¬ a <:+ s'.tip) s s' ∧ (inv = false → SameFailures s s') := by
  refine connectLoop_induct (P := fun t inv => FailureStep (fun a => ¬ a <:+ t.tip) s t ∧
    (inv = false → SameFailures s t)) ?_ ⟨.refl _, fun _ => .refl _⟩ h
  rintro s1 s2 height t p ⟨-, hsame⟩ hb
  have hsame := hsame rfl
  have hk1 : TailKnown s1 := hk.congr hsame.known
  have hm1 : m ∈ s1.known := hsame.known ▸ hm
  refine (connectBlocks_failures hk1 (fun b hbl => ?_) hb).imp (FailureStep.of_same hsame).trans
    fun h hp => hsame.trans (h (by simpa using hp))
  have hmem := mem_reverse.1 hbl
  obtain ⟨hne, hhead⟩ := pathAbove_head hmem
  have hsuf := pathAbove_suffix hmem
  rw [hhead]
  have htm := getAncestor_suffix m t
  refine ⟨hne, hsuf, hk1.suffix hm1 (hsuf.trans htm) hne, hk1.suffix hm1 htm ?_⟩
  intro h0
  rw [h0] at hsuf
  exact hne (suffix_nil.1 hsuf)

theorem FailuresOk.selecting (h : FailuresOk env s m) : Selecting env [] (fun _ _ => True) s m :=
  ⟨h.wf, nil_suffix, fun _ _ => nil_suffix,
    fun hne => ⟨nil_suffix, h.cached_ok hne⟩, fun _ _ _ _ => trivial⟩

theorem FailuresOk.activateBestChainStep (h : FailuresOk env s m) (hm : m ≠ [])
    (hs : s.activateBestChainStep env m = some (s', inv)) :
    FailuresOk env s' (if inv then [] else m) := by
  have hsel := h.selecting.step hm hs
  obtain ⟨hn, -, htm, -, -⟩ := activateBestChainStep_spec hs h.wf.tip_rooted h.wf.cand_above
  have hmk := h.wf.data_known m ((h.cached_ok hm).2.self hm)
  obtain ⟨s1, hto, hloop⟩ := bind_eq_some_iff.1 hs
  have hsame := (disconnectTo_induct (P := SameFailures s) (fun h hd => h.trans (.disconnectTip hd))
    (.refl s) hto).1
  obtain ⟨hfail, h2⟩ := connectLoop_failures (h.tail_known.congr hsame.known) (hsame.known ▸ hmk) hloop
  have h1 := (FailureStep.of_same hsame).trans hfail
  have hd : ∀ x, s.HaveBranch x → s'.HaveBranch x := fun x hx => hn.haveBranch hx
  have ht : s.failureMarks.Clear s'.tip := h.cached_clear.mono htm
  cases inv with
  | true =>
    refine h.forget.step h1 hsel.wf hd ht (fun a ha => ha) fun a ha hs => ?_
    rw [suffix_nil.1 hs] at ha
    exact ha nil_suffix
  | false =>
    exact h.step (P := fun _ => False) (.of_same (hsame.trans (h2 rfl))) hsel.wf hd ht
      (fun _ h => h.elim) fun _ h => h.elim

theorem checkPath_usable_clear (h : FailuresOk env s m') (hp : s.checkPath m = .usable) :
    s.failureMarks.Clear m := by
  induction m with
  | nil => exact h.tip_clear.mono nil_suffix
  | cons x b ih =>
    unfold checkPath at hp
    split at hp
    · next hc => exact h.tip_clear.mono (chainContains_iff.1 hc).2
    split at hp
    · cases hp
    split at hp
    · cases hp
    next hok =>
    intro y hy
    rcases suffix_cons_iff.1 hy with rfl | hy
    · simp only [Bool.or_eq_true, not_or, Bool.not_eq_true] at hok
      exact hok.1.1
    · exact ih hp y hy

theorem FailuresOk.findMostWorkChain (h : FailuresOk env s m)
    (hf : s.findMostWorkChain env = some (s', m')) :
    FailuresOk env s' m ∧ FailuresOk env s' m' := by
  obtain ⟨hn, ht, hm⟩ := findMostWorkChain_spec hf
  have hs : FailureStep (fun _ => False) s s' :=
    .findMostWorkLoop h.tail_known h.wf.cand_known hf
  obtain ⟨hsel, -⟩ := h.forget.selecting.findMostWorkChain hf
  have hok : FailuresOk env s' m := h.step hs hsel.wf (fun x hx => hn.haveBranch hx)
    (ht ▸ h.tip_clear) (fun _ h => h.elim) fun _ h => h.elim
  have hclear : s'.failureMarks.Clear m' := by
    rcases hm with ⟨rfl, -⟩ | ⟨-, hp, -⟩
    · exact hok.tip_clear.mono nil_suffix
    · exact checkPath_usable_clear hok hp
  exact ⟨hok, { hok with
    cached_ok := fun hne => (hsel.cached_root hne).2
    cached_clear := hclear }⟩

theorem FailuresOk.activateIteration {done : Bool} (h : FailuresOk env s m)
    (hi : activateIteration env fuel s m = some (s', m', done)) : FailuresOk env s' m' :=
  (activateIteration_induct (fun h hf => (h.findMostWorkChain hf).2)
    (fun h hm hs => h.activateBestChainStep hm hs) h hi).1

/-! ## `InvalidateBlock` -/

theorem FailureStep.demote (ht : (s.data t.tail).nStatus.failedMask)
    (hm : (s.data t).nStatus.failedMask) (hn : t ∉ s.failedBlocks) :
    FailureStep P s (s.modifyStatus t fun st =>
      { st with failedValid := false, failedChild := true }) := by
  let s' := s.modifyStatus t fun st => { st with failedValid := false, failedChild := true }
  have hst : ∀ x, (s'.data x).nStatus = _ := s.modifyStatus_nStatus t _
  show FailureStep P s s'
  have hmono : ∀ x, (s.data x).nStatus.failedMask → (s'.data x).nStatus.failedMask := by
    intro x hx
    rw [hst]
    split
    · simp [BlockStatus.failedMask]
    · exact hx
  have hback : ∀ x, (s'.data x).nStatus.failedMask → (s.data x).nStatus.failedMask := by grind
  refine ⟨rfl, ⟨hmono, ?_, ?_⟩, fun x hx => .inl (hback x hx), ?_⟩
  · intro x hx
    by_cases he : x = t
    · rw [he]
      exact .inr (hmono _ ht)
    · simp only [inherits, failureMarks, hst, if_neg he] at hx
      exact .inl hx
  · exact fun x hx => ⟨x, suffix_refl x, .inl (hback x hx)⟩
  · intro hr x hx
    have hne : x ≠ t := by
      rintro rfl
      exact hn hx
    rw [hst, if_neg hne]
    exact hr x hx

theorem markDisconnected_failures {w : BlockPtr} (hw : w ∈ s.known) (hne : w ≠ [])
    (ht : w = t.tail → t ∉ s.failedBlocks) :
    FailureStep (· = w) s (s.markDisconnected w t) ∧
      (s.markDisconnected w t).failedBlocks = s.failedBlocks ∧
      ((s.markDisconnected w t).data w).nStatus.failedValid := by
  set s1 := ((s.modifyStatus w fun st => { st with failedValid := true }).eraseCandidate
    w).insertCandidate w.tail with hs1
  have hsame : SameFailures (s.modifyStatus w fun st => { st with failedValid := true }) s1 :=
    (SameFailures.eraseCandidate _ w).trans (.insertCandidate _ _)
  have h1 : FailureStep (· = w) s s1 := (FailureStep.plant hw).trans (.of_same hsame)
  have hv : (s1.data w).nStatus.failedValid := by
    show s1.failureMarks.root w
    rw [hsame.marks]
    simp [failureMarks, modifyStatus_self]
  unfold markDisconnected
  simp only [← hs1]
  split
  · next hc =>
    have hm : (s1.data t.tail).nStatus.failedMask := by
      rw [← hc.1]
      simp [failedMask, hv]
    refine ⟨h1.trans (.demote hm (by simp [failedMask, hc.2]) ?_), hsame.failed, ?_⟩
    · rw [hsame.failed]
      exact ht hc.1
    · have hwt : w ≠ t := by
        rintro rfl
        exact Branch.not_suffix_tail hne (hc.1 ▸ suffix_refl w)
      rw [modifyStatus_nStatus, if_neg hwt]
      exact hv
  · exact ⟨h1, hsame.failed, hv⟩

/-- The invariant of the loop of `InvalidateBlock(pindex)`. -/
structure Invalidating (env : Env) (pindex : BlockPtr) (l : Invalidation) : Prop where
  ok : FailuresOk env l.chain []
  linked : l.Linked
  start : l.pindexWasInChain = false → l.toMarkFailed = pindex
  walked : l.pindexWasInChain → (l.chain.data l.toMarkFailed).nStatus.failedValid ∧
    l.toMarkFailed ∉ l.chain.failedBlocks ∧ l.toMarkFailed.tail = l.chain.tip

theorem Invalidating.round (h : Invalidating env pindex l) (hc : l.chain.contains pindex)
    (hd : l.chain.disconnectTip env = some s) : Invalidating env pindex (l.round env s) := by
  obtain ⟨hw, hl, ht, hb⟩ := h.ok.wf.round h.linked hd
  have hne := h.ok.wf.tip_rooted.ne_nil
  have hd' := SameFailures.disconnectTip hd
  -- the old tip is not failed, so it is not in `m_failed_blocks`
  have htip : l.chain.tip ∉ l.chain.failedBlocks := by
    intro hm
    have h1 := h.ok.tip_clear l.chain.tip (suffix_refl _)
    have h2 := h.ok.roots _ hm
    rw [failureMarks_marked] at h1
    simp [failedMask, h2] at h1
  -- only the block disconnected in the round before has the tip for a parent
  have hprev : l.chain.tip = l.toMarkFailed.tail → l.toMarkFailed ∉ s.failedBlocks := by
    intro he
    rw [hd'.failed]
    cases hwas : l.pindexWasInChain with
    | true => exact (h.walked hwas).2.1
    | false =>
      rw [h.start hwas] at he
      have h1 := (chainContains_iff.1 hc).2.length_le
      have h2 := length_pos_iff.2 (chainContains_iff.1 hc).1
      rw [he, length_tail] at h1
      omega
  have htk : l.chain.tip ∈ s.known := hd'.known ▸ h.ok.wf.tip_known
  obtain ⟨h1, h2, h3⟩ := markDisconnected_failures htk hne hprev
  have hoffer : SameFailures (s.markDisconnected l.chain.tip l.toMarkFailed) (l.round env s).chain :=
    .offerAll env _ _ _
  have hstep := ((FailureStep.of_same hd').trans h1).trans (.of_same hoffer)
  refine ⟨h.ok.step hstep hw (fun x hx => hb.haveBranch hx) ?_ ?_ ?_, hl, by rintro ⟨⟩, fun _ => ?_⟩
  · rw [ht]
    exact h.ok.tip_clear.mono (tail_suffix _)
  · rintro a rfl
    rw [ht]
    exact Branch.not_suffix_tail hne
  · rintro a rfl hs
    exact hne (suffix_nil.1 hs)
  · refine ⟨?_, ?_, ht.symm⟩
    · show (l.round env s).chain.failureMarks.root l.chain.tip
      rw [hoffer.marks]
      exact h3
    · rw [hoffer.failed, h2, hd'.failed]
      exact htip

theorem Invalidating.loop {n : Nat} {l' : Invalidation} (h : Invalidating env pindex l)
    (hr : Invalidation.loop env pindex n l = (l', r)) : Invalidating env pindex l' := by
  induction n generalizing l with
  | zero =>
    cases hr
    exact h
  | succ n ih =>
    unfold Invalidation.loop at hr
    split at hr
    · cases hr
      exact h
    next hc =>
    split at hr
    · cases hr
      have hs : SameFailures l.chain { l.chain with calls := l.chain.calls + 1 } :=
        .of_eq rfl rfl rfl
      have hb : SameBodies l.chain { l.chain with calls := l.chain.calls + 1 } :=
        ⟨rfl, rfl, fun _ => rfl, fun _ => rfl, fun _ => rfl⟩
      exact ⟨h.ok.same hs (h.ok.wf.stay hb rfl fun c hc => .inl hc) (fun _ hx => hx) rfl,
        h.linked, h.start, h.walked⟩
    · next s hd => exact ih (h.round (by simpa using hc) hd) hr

theorem FailuresOk.markInactive (h : FailuresOk env s []) (hb : b ∈ s.known)
    (hoff : ¬ b <:+ s.tip) : FailuresOk env (s.markInactive b) [] := by
  have hv : ((s.modifyStatus b fun st => { st with failedValid := true }).data b).nStatus.failedValid =
      true := by
    rw [modifyStatus_self]
  have hstep : FailureStep (· = b) s (s.markInactive b) :=
    ((FailureStep.plant hb).trans (.of_same (.eraseCandidate _ b))).trans (.insertFailed hv)
  have hs := s.markInactive_sameIndex b
  refine h.step hstep (h.wf.markInactive b) (fun x hx => ?_) h.tip_clear ?_ ?_
  · exact (SameBodies.of_sameIndex hs).haveBranch hx
  · rintro a rfl
    exact hoff
  · grind

theorem Invalidating.mark (h : Invalidating env pindex l) (hk : pindex ∈ l.chain.known)
    (hc : ¬ l.chain.contains l.toMarkFailed) :
    FailuresOk env (l.mark pindex) [] ∧
      ((l.mark pindex).data l.toMarkFailed).nStatus.failedMask := by
  unfold Invalidation.mark
  split
  · next hcond =>
    have hwas : l.pindexWasInChain = false := by simpa using (Bool.and_eq_true_iff.1 hcond).1
    rw [h.start hwas] at hc ⊢
    refine ⟨h.ok.markInactive hk fun hs => hc ?_, ?_⟩
    · exact chainContains_iff.2 ⟨(h.ok.wf.known_rooted _ hk).ne_nil, hs⟩
    · show ((l.chain.modifyStatus pindex fun st =>
        { st with failedValid := true }).data pindex).nStatus.failedMask
      rw [modifyStatus_self]
      simp [failedMask]
  · next hcond =>
    refine ⟨h.ok, ?_⟩
    cases hwas : l.pindexWasInChain with
    | true => simp [failedMask, (h.walked hwas).1]
    | false =>
      rw [h.start hwas]
      simpa [hwas] using hcond

theorem FailuresOk.setBlockFailureFlags (h : FailuresOk env s m)
    (hb : (s.data b).nStatus.failedMask) : FailuresOk env (s.setBlockFailureFlags b) m :=
  h.step (P := fun _ => False) (.setBlockFailureFlags h.tail_known (h.ne_nil hb) hb)
    (h.wf.setBlockFailureFlags b)
    (fun _ hx => (SameBodies.setBlockFailureFlags s b).haveBranch hx) h.tip_clear
    (fun _ h => h.elim) fun _ h => h.elim

theorem Invalidating.finish (h : Invalidating env pindex l) (hk : pindex ∈ l.chain.known)
    (hf : l.finish env pindex = some (s', r)) : FailuresOk env s' [] := by
  unfold Invalidation.finish at hf
  split at hf
  · cases hf
    exact h.ok
  next hc =>
  obtain ⟨s2, h1, ⟨⟩⟩ := map_eq_some_iff.1 hf
  rw [invalidChainFound_eq h1]
  obtain ⟨hok, hfm⟩ := h.mark hk hc
  obtain ⟨hs, -⟩ := offerAll_spec env
    (fun s b => s.hasValidTransactions b && !s.workLess env b s.tip) (l.mark pindex).known
    hok.wf.tip_rooted.ne_nil
  have hoff := SameFailures.offerAll env
    (fun s b => s.hasValidTransactions b && !s.workLess env b s.tip) (l.mark pindex).known
    (l.mark pindex)
  refine (hok.same hoff (hok.wf.offerValid) (fun x hx => ?_) hs.tip).setBlockFailureFlags ?_
  · exact (SameBodies.of_sameIndex hs).haveBranch hx
  · rw [← failureMarks_marked, hoff.marks]
    exact hfm

theorem FailuresOk.invalidateBlock {rounds : Nat} (h : FailuresOk env s []) (hk : pindex ∈ s.known)
    (hi : s.invalidateBlock env rounds pindex = some (s', r)) : FailuresOk env s' [] := by
  unfold Chainstate.invalidateBlock at hi
  split at hi
  · cases hi
    exact h
  have hinv : Invalidating env pindex ⟨s, pindex, false, s.candidateBlocksByWork env pindex⟩ :=
    ⟨h, h.wf.candidateBlocksByWork_linked pindex, fun _ => rfl, by rintro ⟨⟩⟩
  split at hi
  · next l hr =>
    cases hi
    exact (hinv.loop hr).ok
  next l hr =>
  refine (hinv.loop hr).finish ?_ hi
  rw [(Wf.loop h.wf hinv.linked hr).2.2.known]
  exact hk

/-! ## `ResetBlockFailureFlags` -/

theorem getAncestor_parent (hb : b ≠ []) (h : b.tail <:+ p) :
    getAncestor p (nHeight b - 1) = b.tail := by
  have hl := length_pos_iff.2 hb
  have e := nHeight_eq b
  by_cases ht : b.tail = []
  · rw [ht]
    have : b.length = 1 := by
      have := congrArg length ht
      rw [length_tail, length_nil] at this
      omega
    unfold getAncestor
    rw [if_pos (by omega)]
  · have e' : nHeight b - 1 = nHeight b.tail := by
      rw [nHeight_eq, nHeight_eq, length_tail]
      omega
    rw [e']
    exact getAncestor_of_suffix h ht

/-- What `ResetBlockFailureFlags(p)` makes of the two failure flags of `b`. -/
def resetFlags (p b : BlockPtr) (flags : Bool × Bool) : Bool × Bool :=
  if (flags.1 || flags.2) && onBranch p b then (false, false)
  else if (flags.2 && !flags.1) && decide (getAncestor p (nHeight b - 1) = b.tail) then (true, false)
  else flags

theorem resetFlags_idem (p b : BlockPtr) (flags : Bool × Bool) :
    resetFlags p b (resetFlags p b flags) = resetFlags p b flags := by
  obtain ⟨v, c⟩ := flags
  unfold resetFlags
  cases v <;> cases c <;> cases onBranch p b <;>
    cases decide (getAncestor p (nHeight b - 1) = b.tail) <;> rfl

theorem reconsider_failures (env : Env) (s : Chainstate) (b : BlockPtr) :
    (s.reconsider env b).failureMarks = (s.modifyStatus b fun st =>
      { st with failedValid := false, failedChild := false }).failureMarks ∧
    (s.reconsider env b).failedBlocks = s.failedBlocks.filter fun x => x ≠ b := by
  have offer : ∀ s1, SameFailures s1
      (if s1.hasValidTransactions b && s1.workLess env s1.tip b then
        s1.tryAddBlockIndexCandidate env b else s1) := by
    intro s1
    split
    · exact .tryAddBlockIndexCandidate env _ b
    · exact .refl _
  have h := offer (s.modifyStatus b fun st => { st with failedValid := false, failedChild := false })
  exact ⟨h.marks, congrArg (filter fun x => decide (x ≠ b)) h.failed⟩

theorem modifyStatus_flags (s : Chainstate) (b x : BlockPtr) (v c : Bool) :
    (s.modifyStatus b fun st => { st with failedValid := v, failedChild := c }).failureMarks.flags x =
      if x = b then (v, c) else s.failureMarks.flags x := by
  simp only [flags, failureMarks, modifyStatus_nStatus]
  split <;> rfl

theorem resetEntry_flags (env : Env) (s : Chainstate) (p b x : BlockPtr) :
    (s.resetEntry env none p b).failureMarks.flags x =
      if x = b then resetFlags p b (s.failureMarks.flags b) else s.failureMarks.flags x := by
  have hr : resetFlags p b (s.failureMarks.flags b) =
      if (s.data b).nStatus.failedMask && onBranch p b then (false, false)
      else if ((s.data b).nStatus.failedChild && !(s.data b).nStatus.failedValid) &&
        decide (getAncestor p (nHeight b - 1) = b.tail) then (true, false)
      else s.failureMarks.flags b := rfl
  rw [hr]
  unfold resetEntry
  simp only [any_none, Bool.false_eq_true, if_false]
  by_cases h1 : ((s.data b).nStatus.failedMask && onBranch p b)
  · rw [if_pos h1, if_pos h1, ← modifyStatus_flags, ← (reconsider_failures env s b).1]
  rw [if_neg h1, if_neg h1]
  by_cases h2 : (((s.data b).nStatus.failedChild && !(s.data b).nStatus.failedValid) &&
      decide (getAncestor p (nHeight b - 1) = b.tail))
  · rw [if_pos h2, if_pos h2]
    exact modifyStatus_flags s b x true false
  rw [if_neg h2]
  split
  · next he => rw [he]
  · rfl

theorem foldl_resetEntry_flags (env : Env) (p x : BlockPtr) (l : List BlockPtr) (s : Chainstate) :
    (l.foldl (resetEntry env none p) s).failureMarks.flags x =
      if x ∈ l then resetFlags p x (s.failureMarks.flags x) else s.failureMarks.flags x := by
  induction l generalizing s with
  | nil => simp
  | cons b l ih =>
    rw [foldl_cons, ih, resetEntry_flags]
    by_cases hx : x = b
    · subst hx
      simp [resetFlags_idem]
    · simp [hx]

theorem resetEntry_roots (hr : FailedRoots s) (p b : BlockPtr) :
    FailedRoots (s.resetEntry env none p b) := by
  unfold resetEntry
  simp only [any_none, Bool.false_eq_true, if_false]
  split
  · intro x hx
    obtain ⟨hmarks, hfailed⟩ := reconsider_failures env s b
    rw [hfailed, mem_filter, decide_eq_true_eq] at hx
    show (s.reconsider env b).failureMarks.root x
    rw [hmarks]
    simp only [failureMarks, modifyStatus_nStatus, if_neg hx.2]
    exact hr x hx.1
  · split
    · intro x hx
      simp only [Chainstate.insertFailed] at hx ⊢
      rw [modifyStatus_nStatus]
      split
      · rfl
      next hne =>
      split at hx
      · exact hr x hx
      · exact hr x ((mem_cons.1 hx).resolve_left hne)
    · exact hr

/-- **`ResetBlockFailureFlags` on any entry.** -/
theorem FailuresOk.resetBlockFailureFlags (h : FailuresOk env s m)
    (hp : p ∈ s.known) : FailuresOk env (s.resetBlockFailureFlags env none p) m := by
  obtain ⟨hw, hs⟩ := h.wf.resetBlockFailureFlags none p
  have hpne := (h.wf.known_rooted p hp).ne_nil
  have hb := SameBodies.of_sameIndex hs
  let s' := s.resetBlockFailureFlags env none p
  show FailuresOk env s' m
  -- every flagged entry is visited
  have hflags : ∀ x, s'.failureMarks.flags x = resetFlags p x (s.failureMarks.flags x) := by
    intro x
    have := foldl_resetEntry_flags env p x s.known s
    by_cases hk : x ∈ s.known
    · rwa [if_pos hk] at this
    rw [if_neg hk] at this
    have hf : s.failureMarks.flags x = (false, false) := by
      have hm : (s.data x).nStatus.failedMask = false := by
        by_contra hn
        exact hk (h.flagged_known x (by simpa using hn))
      simp only [failedMask, Bool.or_eq_false_iff] at hm
      exact Prod.ext hm.1 hm.2
    rw [hf] at this ⊢
    exact this
  have hmono : ∀ x, s'.failureMarks.marked x → s.failureMarks.marked x := by
    intro x hx
    rw [marked_eq, hflags] at hx
    rw [marked_eq]
    unfold resetFlags at hx
    grind
  refine ⟨hw, fun hne => (h.cached_ok hne).imp_right hb.haveBranch, h.tail_known.congr hs.known,
    ?_, ?_, foldlRecOn (motive := FailedRoots) s.known _ h.roots fun _ hs b _ =>
      resetEntry_roots hs p b, ?_, h.cached_clear.of_marked hmono⟩
  · intro b hbm
    rw [hs.known]
    exact h.flagged_known b (hmono b hbm)
  · refine h.contiguous.clearBranch (p := p) (fun b hon => ?_) fun b hoff => ?_
    · by_contra hn
      have hi : s'.failureMarks.inherits b := by simpa using hn
      -- a flagged block on the branch is cleared
      have hm := hmono b (inherits_iff.1 hi).1
      have hbr := (onBranch_iff hpne (h.ne_nil hm)).2 hon
      rw [inherits_eq, hflags, resetFlags, if_pos (by rw [← marked_eq, hm, hbr]; rfl)] at hi
      cases hi
    · have hbr : ¬ (s.failureMarks.marked b && onBranch p b) := by
        intro hc
        obtain ⟨h1, h2⟩ := Bool.and_eq_true_iff.1 hc
        exact hoff ((onBranch_iff hpne (h.ne_nil h1)).1 h2)
      rw [marked_eq, inherits_eq, hflags, resetFlags, ← marked_eq, ← inherits_eq, if_neg hbr]
      split
      next hsib =>
        refine ⟨?_, by simp⟩
        rw [(inherits_iff.1 (Bool.and_eq_true_iff.1 hsib).1).1]
        rfl
      next hsib =>
      refine ⟨rfl, fun hi => ⟨hi, fun hsuf => hsib ?_⟩⟩
      have hi' : s.failureMarks.inherits b := hi
      have hbne := h.ne_nil (inherits_iff.1 hi').1
      rw [hi', getAncestor_parent hbne hsuf]
      simp
  · rw [hs.tip]
    exact h.tip_clear.of_marked hmono

theorem FailuresOk.invalidBlockFound (h : FailuresOk env s []) (hb : b ∈ s.known)
    (hoff : ¬ b <:+ s.tip) (hi : s.invalidBlockFound b = some s') : FailuresOk env s' [] := by
  have hne := (h.wf.known_rooted b hb).ne_nil
  obtain ⟨hn, ht⟩ := narrows_invalidBlockFound hi
  have hw : Wf env s' := by
    refine h.wf.narrow hn (ht ▸ h.wf.tip_rooted) (ht ▸ h.wf.tip_data) fun c hc => ?_
    rw [hn.workLess, ht]
    exact h.wf.cand_above c (hn.candidates c hc)
  refine h.step (FailureStep.invalidBlockFound h.tail_known hb hne hi).1 hw
    (fun x hx => hn.haveBranch hx) (ht ▸ h.tip_clear) ?_ ?_
  · rintro a rfl
    rw [ht]
    exact hoff
  · rintro a rfl hs
    exact hne (suffix_nil.1 hs)

theorem fresh_failuresOk (env : Env) : FailuresOk env (freshChainstate env) [] := by
  have hst : ∀ b, ((freshChainstate env).data b).nStatus.failedMask = false := by
    intro b
    exact fresh_flag (·.failedMask)
  refine ⟨(fresh_settled env).wf, fun hne => absurd rfl hne, .fresh env, ?_, ?_, ?_,
    fun b _ => hst b, fun b _ => hst b⟩
  · intro b hb
    simp [hst] at hb
  · intro b hb
    rw [inherits_iff, failureMarks_marked, hst] at hb
    exact absurd hb.1 (by simp)
  · intro b hb
    cases hb

end

end Chainstate

/-! ## Runs -/

/-- The functions that touch the flags, each as one step of a node with a possibly running
`ActivateBestChain` (`Step.iterate`). -/
inductive TreeStep
  | node (st : Step)
  | acceptBlockHeader (call : HeaderCall) (minPowChecked : Bool)
  | findMostWorkChain
  | invalidBlockFound (b : BlockPtr)
  | invalidChainFound (b : BlockPtr)
  | setBlockFailureFlags (b : BlockPtr)
  | invalidateBlock (rounds : Nat) (b : BlockPtr)
  | resetBlockFailureFlags (b : BlockPtr)
  | parkBlock (b : BlockPtr)
  | unparkBlock (b : BlockPtr)

namespace Node

/-- The steps, on any entry of the index.  `InvalidateBlock`, `ParkBlock` and `ConnectTip`, the
caller of `InvalidBlockFound`, hold `m_chainstate_mutex`.  `InvalidBlockFound` is called on a
block whose parent is the tip, `InvalidChainFound` and `SetBlockFailureFlags` on a block that is
failed.  `ResetBlockFailureFlags` is the one of a chain that is not a signet. -/
def treeStep (env : Env) : TreeStep → Node → Option Node
  | .node st, n => n.step env st
  | .acceptBlockHeader call minPowChecked, n =>
    (n.chain.acceptBlockHeader env call minPowChecked).map fun (s, _) => { n with chain := s }
  | .findMostWorkChain, n => (n.chain.findMostWorkChain env).map fun (s, _) => { n with chain := s }
  | .invalidBlockFound b, n =>
    if b ∈ n.chain.known ∧ n.chain.contains b = false ∧ n.running = none then
      (n.chain.invalidBlockFound b).map fun s => { n with chain := s }
    else none
  | .invalidChainFound b, n =>
    if (n.chain.data b).nStatus.failedMask then
      (n.chain.invalidChainFound b).map fun s => { n with chain := s }
    else none
  | .setBlockFailureFlags b, n =>
    if (n.chain.data b).nStatus.failedMask then
      some { n with chain := n.chain.setBlockFailureFlags b }
    else none
  | .invalidateBlock rounds b, n =>
    if b ∈ n.chain.known ∧ n.running = none then
      (n.chain.invalidateBlock env rounds b).map fun (s, _) => { n with chain := s }
    else none
  | .resetBlockFailureFlags b, n =>
    if b ∈ n.chain.known then some { n with chain := n.chain.resetBlockFailureFlags env none b }
    else none
  | .parkBlock b, n =>
    if b ∈ n.chain.known ∧ n.running = none then some { n with chain := (n.chain.parkBlock b).1 }
    else none
  | .unparkBlock b, n =>
    if b ∈ n.chain.known then some { n with chain := n.chain.unparkBlock env b } else none

/-- The block a running `ActivateBestChain` is on its way to. -/
def cached (n : Node) : BlockPtr := (n.running.map Activation.cached).getD []

def FailuresOk (env : Env) (n : Node) : Prop := n.chain.FailuresOk env n.cached

variable {n n' : Node}

theorem cached_of_idle (h : n.running = none) : n.cached = [] := by
  unfold cached
  rw [h]
  rfl

theorem activation_cached (n : Node) : n.activation.cached = n.cached := by
  unfold activation cached
  cases n.running <;> rfl

theorem FailuresOk.step {env : Env} {st : Step} (h : FailuresOk env n)
    (hs : n.step env st = some n') : FailuresOk env n' := by
  cases st with
  | accept call =>
    obtain ⟨s, r, ha, rfl, hr⟩ := step_accept hs
    unfold Node.FailuresOk cached at ⊢
    rw [hr]
    exact h.acceptBlock ha
  | iterate fuel =>
    obtain ⟨m, done, hi, hr⟩ := step_iterate hs
    rw [activation_cached] at hi
    have hok := Chainstate.FailuresOk.activateIteration h hi
    unfold Node.FailuresOk cached
    rw [hr]
    cases done with
    | true => exact hok.forget
    | false => exact hok

theorem FailuresOk.treeStep {env : Env} {st : TreeStep} (h : FailuresOk env n)
    (hs : n.treeStep env st = some n') : FailuresOk env n' := by
  unfold Node.FailuresOk at h
  cases st with
  | node st => exact FailuresOk.step h hs
  | acceptBlockHeader call minPow =>
    obtain ⟨⟨s, r⟩, h1, rfl⟩ := map_eq_some_iff.1 hs
    exact h.acceptBlockHeader h1
  | findMostWorkChain =>
    obtain ⟨⟨s, m⟩, h1, rfl⟩ := map_eq_some_iff.1 hs
    exact (h.findMostWorkChain h1).1
  | invalidBlockFound b =>
    obtain ⟨⟨hb, hoff, hr⟩, h1⟩ := ite_none_right_eq_some.1 hs
    obtain ⟨s, h2, rfl⟩ := map_eq_some_iff.1 h1
    rw [cached_of_idle hr] at h
    unfold Node.FailuresOk
    rw [cached_of_idle (n := { n with chain := s }) hr]
    refine h.invalidBlockFound hb (fun hsuf => ?_) h2
    have := chainContains_iff.2 ⟨(h.wf.known_rooted b hb).ne_nil, hsuf⟩
    exact absurd hoff (by simp [Chainstate.contains, this])
  | invalidChainFound b =>
    obtain ⟨hb, h1⟩ := ite_none_right_eq_some.1 hs
    obtain ⟨s, h2, rfl⟩ := map_eq_some_iff.1 h1
    rw [Chainstate.invalidChainFound_eq h2]
    exact h.setBlockFailureFlags hb
  | setBlockFailureFlags b =>
    obtain ⟨hb, ⟨⟩⟩ := ite_none_right_eq_some.1 hs
    exact h.setBlockFailureFlags hb
  | invalidateBlock rounds b =>
    obtain ⟨⟨hb, hr⟩, h1⟩ := ite_none_right_eq_some.1 hs
    obtain ⟨⟨s, r⟩, h2, rfl⟩ := map_eq_some_iff.1 h1
    rw [cached_of_idle hr] at h
    unfold Node.FailuresOk
    rw [cached_of_idle (n := { n with chain := s }) hr]
    exact h.invalidateBlock hb h2
  | resetBlockFailureFlags b =>
    obtain ⟨hb, ⟨⟩⟩ := ite_none_right_eq_some.1 hs
    exact h.resetBlockFailureFlags hb
  | parkBlock b =>
    obtain ⟨-, ⟨⟩⟩ := ite_none_right_eq_some.1 hs
    have hb := (n.chain.parkBlock_spec b).1
    exact h.same (.parkBlock _ b) (h.wf.parkBlock b)
      (fun x hx => (Chainstate.SameBodies.of_sameIndex hb).haveBranch hx) hb.tip
  | unparkBlock b =>
    obtain ⟨-, ⟨⟩⟩ := ite_none_right_eq_some.1 hs
    obtain ⟨hw, hb, ht⟩ := h.wf.unparkBlock b
    exact h.same (.unparkBlock env _ b) hw (fun x hx => hb.haveBranch hx) ht

end Node

/-! ## Top theorem -/

/-- **Failure flags are rooted**: in every run, a block with a failure flag has itself or an
ancestor flagged `BLOCK_FAILED_VALID`, every block in `m_failed_blocks` has that flag, and so no
header makes the assert of `AcceptBlockHeader` fail. -/
theorem failureFlags_rooted (env : Env) {n : Node}
    (hn : Runs.Reach (fun st n => n.treeStep env st) (Node.fresh env) n) :
    (∀ b, (n.chain.data b).nStatus.failedMask →
      ∃ a ∈ n.chain.known, a <:+ b ∧ (n.chain.data a).nStatus.failedValid) ∧
    (∀ b ∈ n.chain.failedBlocks, (n.chain.data b).nStatus.failedValid) ∧
    ∀ call minPowChecked, n.chain.acceptBlockHeader env call minPowChecked ≠ none := by
  have h : n.FailuresOk env :=
    hn.invariant (Chainstate.fresh_failuresOk env) fun _ _ _ hi hs => hi.treeStep hs
  refine ⟨fun b hb => ?_, h.roots, fun call minPowChecked hnone => ?_⟩
  · have hnil : n.chain.failureMarks.marked [] = false := h.tip_clear [] nil_suffix
    obtain ⟨a, hab, ha⟩ := h.contiguous.root_below hnil hb
    exact ⟨a, h.flagged_known a (marked_of_root ha), hab, ha⟩
  · rcases Chainstate.acceptBlockHeader_cases hnone with
      ⟨a, ⟨⟩, -⟩ | ⟨⟨⟩, -⟩ | ⟨f, -, -, ⟨⟩⟩ | ⟨-, f, hf, hv⟩
    exact hv (h.roots f (Chainstate.firstFailed_mem hf).1)

/-- Two branches on block 1; `InvalidateBlock` on that block and `ResetBlockFailureFlags` on the
block above it in one branch. -/
def reconsideredFork : List TreeStep :=
  [.node (.accept (regtestCall [1])), .node (.accept (regtestCall [2, 1])), .node (.iterate 5),
    .node (.iterate 5), .node (.accept (regtestCall [3, 1])),
    .invalidateBlock 5 (regtestBranch [1]), .resetBlockFailureFlags (regtestBranch [2, 1])]

theorem failureFlags_rooted_fork : ∃ n : Node,
    Runs.runAll (fun st n => n.treeStep (regtestEnv 6) st) reconsideredFork
      (Node.fresh (regtestEnv 6)) = some n ∧
    (n.chain.data (regtestBranch [3, 1])).nStatus.failedMask ∧
    (n.chain.data (regtestBranch [1])).nStatus.failedMask = false ∧
    n.chain.failedBlocks = [regtestBranch [3, 1]] ∧
    ∃ a ∈ n.chain.known, a <:+ regtestBranch [3, 1] ∧ (n.chain.data a).nStatus.failedValid := by
  refine (map_eq_some_iff.1 (by decide : Option.map (fun n : Node =>
    ((n.chain.data (regtestBranch [3, 1])).nStatus.failedMask,
      (n.chain.data (regtestBranch [1])).nStatus.failedMask, n.chain.failedBlocks)) _ =
    some (true, false, [regtestBranch [3, 1]]))).imp fun n ⟨h, hv⟩ => ⟨h, ?_⟩
  simp only [Prod.mk.injEq] at hv
  refine ⟨hv.1, hv.2.1, hv.2.2, ?_⟩
  exact (failureFlags_rooted (regtestEnv 6) (Runs.reach_of_runAll h)).1 _ hv.1

/-- On a block that is not failed `SetBlockFailureFlags` leaves `BLOCK_FAILED_CHILD` with no root
below it. -/
theorem setBlockFailureFlags_unrooted : ∃ n : Node,
    Runs.runAll (fun st n => n.treeStep (regtestEnv 6) st)
      [.node (.accept (regtestCall [1])), .node (.accept (regtestCall [2, 1]))]
      (Node.fresh (regtestEnv 6)) = some n ∧
    let s := n.chain.setBlockFailureFlags (regtestBranch [1])
    regtestBranch [1] ∈ n.chain.known ∧
    (n.chain.data (regtestBranch [1])).nStatus.failedMask = false ∧
    (s.data (regtestBranch [2, 1])).nStatus.failedChild ∧
    ∀ a ∈ (regtestBranch [2, 1]).tails, (s.data a).nStatus.failedValid = false := by
  refine ⟨_, rfl, ?_⟩
  decide

/-- **Assertions of `CheckBlockIndex`** that hold in every run: the parent of an entry is an entry;
no block up to the tip, or to the target of a running `ActivateBestChain`, is failed; the tip, the
candidates and the linked blocks have all bodies below them; no candidate sorts below the tip; and
`m_blocks_unlinked` lists blocks with a body under their parent, each once. -/
theorem checkBlockIndex_holds (env : Env) {n : Node}
    (hn : Runs.Reach (fun st n => n.treeStep env st) (Node.fresh env) n) :
    let s := n.chain
    (∀ b ∈ s.known, Rooted env b ∧ (b.tail ≠ [] → b.tail ∈ s.known)) ∧
    (∀ b, b <:+ s.tip ∨ b <:+ n.cached → (s.data b).nStatus.failedMask = false) ∧
    (∀ b, b = s.tip ∨ b ∈ s.setBlockIndexCandidates ∨ (s.data b).haveNumChainTxs →
      s.HaveBranch b) ∧
    (∀ c ∈ s.setBlockIndexCandidates, s.workLess env c s.tip = false) ∧
    s.blocksUnlinked.Nodup ∧
    ∀ e ∈ s.blocksUnlinked, e.1 = e.2.tail ∧ (s.data e.2).nStatus.haveData := by
  have h : n.FailuresOk env :=
    hn.invariant (Chainstate.fresh_failuresOk env) fun _ _ _ hi hs => hi.treeStep hs
  refine ⟨fun b hb => ⟨h.wf.known_rooted b hb, h.tail_known b hb⟩, ?_, ?_, h.wf.cand_above,
    h.wf.unlinked_nodup, fun e he => (h.wf.unlinked e he).imp_right And.left⟩
  · exact fun b hb => hb.elim (h.tip_clear b) (h.cached_clear b)
  · rintro b (rfl | hb | hb)
    · exact h.wf.tip_data
    · exact h.wf.cand_data b hb
    · exact h.wf.linked b hb

theorem checkBlockIndex_holds_fork : ∃ n : Node,
    Runs.runAll (fun st n => n.treeStep (regtestEnv 6) st) reconsideredFork
      (Node.fresh (regtestEnv 6)) = some n ∧ n.chain.HaveBranch n.chain.tip :=
  (isSome_iff_exists.1 (by decide)).imp fun _ h =>
    ⟨h, (checkBlockIndex_holds (regtestEnv 6) (Runs.reach_of_runAll h)).2.2.1 _ (.inl rfl)⟩

end BitcoinPurity
