import BitcoinPurity.Chain.Candidates

/-!
`ActivateBestChain`: disconnecting to the fork, connecting towards the most-work
candidate in batches of 32, and falling back after an invalid block.

`none` is a call that does not complete: a failed `assert`, a system error (the node
aborts), or fuel that ran out (the call is still running).  The shutdown checks
(`m_interrupt`, an interrupted notification) are left out.
-/

namespace BitcoinPurity

open List Option

namespace Chainstate

/-! ## Algorithm -/

def disconnectTip (env : Env) (s : Chainstate) : Option Chainstate :=
  match s.tip with
  | _ :: y :: b =>
    if env.disconnectBlock s.calls s.tip then
      some { s with tip := y :: b, calls := s.calls + 1, disconnects := s.disconnects + 1 }
    else none
  | _ => none

/-- What `ConnectBlock` records on a block it connected (genesis has no undo data). -/
def markConnected (s : Chainstate) (b : BlockPtr) : Chainstate :=
  if b.tail = [] then s
  else s.modifyStatus b fun st => { st with haveUndo := true }.raiseValidity .scripts

def connectTip (env : Env) (s : Chainstate) (b : BlockPtr) : Option (Chainstate × ConnectOutcome) :=
  if b.tail ≠ s.tip then none
  else
    let rv := env.connectBlock s.calls b
    let s := { s with calls := s.calls + 1 }
    match rv with
    | .ok => some ({ s.markConnected b with tip := b }, .ok)
    | .invalid => (s.invalidBlockFound b).map fun s => (s, .invalid)
    | .mutated => some (s, .mutated)
    | .error => none

/-- The disconnect loop of `ActivateBestChainStep`; the height of the tip bounds it. -/
def disconnectTo (env : Env) (pindexFork : BlockPtr) : Nat → Chainstate → Option Chainstate
  | 0, s => if s.tip = [] ∨ s.tip = pindexFork then some s else none
  | n + 1, s =>
    if s.tip = [] ∨ s.tip = pindexFork then some s
    else (s.disconnectTip env).bind (disconnectTo env pindexFork n)

/-- How the connection of one batch ended. -/
inductive Progress
  | more
  | better
  | invalidFound
deriving DecidableEq

/-- Connect one batch, lowest block first; `front` is `vpindexToConnect.front()`. -/
def connectBlocks (env : Env) (pindexOldTip front : BlockPtr) :
    List BlockPtr → Chainstate → Option (Chainstate × Progress)
  | [], s => some (s, .more)
  | b :: rest, s =>
    match s.connectTip env b with
    | none => none
    | some (_, .error) => none
    | some (s, .mutated) => some (s, .invalidFound)
    | some (s, .invalid) => (s.invalidChainFound front).map fun s => (s, .invalidFound)
    | some (s, .ok) =>
      (s.pruneBlockIndexCandidates env).bind fun s =>
        if pindexOldTip = [] ∨ nChainWork s.tip > nChainWork pindexOldTip then some (s, .better)
        else connectBlocks env pindexOldTip front rest s

/-- The blocks from `b` down to above `height`, highest first. -/
def pathAbove (height : Int) : BlockPtr → List BlockPtr
  | [] => []
  | x :: b => if nHeight (x :: b) = height then [] else (x :: b) :: pathAbove height b

/-- The batch loop of `ActivateBestChainStep`; the flag is `fInvalidFound`. -/
def connectLoop (env : Env) (pindexOldTip pindexMostWork : BlockPtr) :
    Nat → Int → Chainstate → Option (Chainstate × Bool)
  | 0, _, _ => none
  | fuel + 1, height, s =>
    if height = nHeight pindexMostWork then some (s, false)
    else
      let nTargetHeight := min (height + 32) (nHeight pindexMostWork)
      let vpindexToConnect := pathAbove height (getAncestor pindexMostWork nTargetHeight)
      match connectBlocks env pindexOldTip (vpindexToConnect.headD []) vpindexToConnect.reverse s with
      | none => none
      | some (s, .invalidFound) => some (s, true)
      | some (s, .better) => some (s, false)
      | some (s, .more) => connectLoop env pindexOldTip pindexMostWork fuel nTargetHeight s

def activateBestChainStep (env : Env) (s : Chainstate) (pindexMostWork : BlockPtr) :
    Option (Chainstate × Bool) :=
  let pindexFork := findFork s.tip pindexMostWork
  (disconnectTo env pindexFork s.tip.length s).bind fun s' =>
    connectLoop env s.tip pindexMostWork (pindexMostWork.length + 1) (nHeight pindexFork) s'

/-- The inner loop of `ActivateBestChain`, under one hold of `cs_main`.  It returns the cached
`pindexMostWork` and `blocks_connected`. -/
def activateInner (env : Env) (startingTip : BlockPtr) :
    Nat → Bool → BlockPtr → Chainstate → Option (Chainstate × BlockPtr × Bool)
  | 0, _, _, _ => none
  | fuel + 1, connected, cached, s =>
    (if cached = [] then s.findMostWorkChain env else some (s, cached)).bind fun (s, mostWork) =>
      if mostWork = [] ∨ mostWork = s.tip then some (s, mostWork, connected)
      else
        (s.activateBestChainStep env mostWork).bind fun (s, fInvalidFound) =>
          let cached := if fInvalidFound then [] else mostWork
          if s.tip = [] ∨ startingTip ≠ [] ∧ s.workLess env s.tip startingTip then
            activateInner env startingTip fuel true cached s
          else some (s, cached, true)

/-- One outer iteration of `ActivateBestChain`; the flag says that the call returns. -/
def activateIteration (env : Env) (fuel : Nat) (s : Chainstate) (cached : BlockPtr) :
    Option (Chainstate × BlockPtr × Bool) :=
  (activateInner env s.tip fuel false cached s).map fun (s, mostWork, connected) =>
    (s, mostWork, !connected || decide (s.tip = mostWork))

def activateLoop (env : Env) (fuel : Nat) : Nat → BlockPtr → Chainstate → Option Chainstate
  | 0, _, _ => none
  | n + 1, cached, s =>
    match activateIteration env fuel s cached with
    | none => none
    | some (s, _, true) => some s
    | some (s, cached, false) => activateLoop env fuel n cached s

def activateBestChain (env : Env) (fuel : Nat) (s : Chainstate) : Option Chainstate :=
  activateLoop env fuel fuel [] s

/-! ## Rules for the loops -/

section

variable {env : Env} {s s' : Chainstate} {m m' : BlockPtr} {fuel : Nat}

theorem disconnectTo_induct {P : Chainstate → Prop} {fork : BlockPtr} {n : Nat}
    (hstep : ∀ {s s'}, P s → s.disconnectTip env = some s' → P s') (h : P s)
    (hd : disconnectTo env fork n s = some s') : P s' ∧ (s'.tip = [] ∨ s'.tip = fork) := by
  induction n generalizing s with
  | zero =>
    unfold disconnectTo at hd
    grind
  | succ n ih =>
    unfold disconnectTo at hd
    split at hd
    · next ht =>
      cases hd
      exact ⟨h, ht⟩
    · obtain ⟨s1, h1, h2⟩ := bind_eq_some_iff.1 hd
      exact ih (hstep h h1) h2

/-- The flag of `P` is `fInvalidFound`. -/
theorem connectLoop_induct {P : Chainstate → Bool → Prop} {old : BlockPtr} {height : Int}
    {inv : Bool}
    (hbatch : ∀ {s s' height t p}, P s false →
      connectBlocks env old ((pathAbove height (getAncestor m t)).headD [])
        (pathAbove height (getAncestor m t)).reverse s = some (s', p) →
      P s' (decide (p = .invalidFound)))
    (h : P s false) (hc : connectLoop env old m fuel height s = some (s', inv)) : P s' inv := by
  induction fuel generalizing s height with
  | zero => cases hc
  | succ fuel ih =>
    unfold connectLoop at hc
    grind

/-- The loops of `ActivateBestChain` keep what chain selection and a step towards a block keep.  When
the call returns, the tip is the cached block, or chain selection has found none. -/
theorem activateIteration_induct {P : Chainstate → BlockPtr → Prop} {done : Bool}
    (hfind : ∀ {s s' m}, P s [] → s.findMostWorkChain env = some (s', m) → P s' m)
    (hstep : ∀ {s s' m inv}, P s m → m ≠ [] → s.activateBestChainStep env m = some (s', inv) →
      P s' (if inv then [] else m))
    (h : P s m) (hi : activateIteration env fuel s m = some (s', m', done)) :
    P s' m' ∧ (done → m' = s'.tip ∨
      m' = [] ∧ ∃ s0, P s0 [] ∧ s0.findMostWorkChain env = some (s', [])) := by
  obtain ⟨⟨s1, m1, r⟩, h1, ⟨⟩⟩ := map_eq_some_iff.1 hi
  clear hi
  generalize s.tip = start, false = r0 at h1
  suffices hinner : P s' m' ∧ (m' = s'.tip ∨
      (m' = [] ∧ ∃ s0, P s0 [] ∧ s0.findMostWorkChain env = some (s', [])) ∨ r) by grind
  induction fuel generalizing s m r0 with
  | zero => cases h1
  | succ fuel ih =>
    obtain ⟨⟨s1, m1⟩, h3, h4⟩ := bind_eq_some_iff.1 h1
    have hsel : P s1 m1 ∧ (m1 = [] → ∃ s0, P s0 [] ∧ s0.findMostWorkChain env = some (s1, m1)) := by
      grind
    simp only at h4
    split at h4
    · next hstop => grind
    · next hgo =>
      obtain ⟨⟨s2, inv⟩, h5, h6⟩ := bind_eq_some_iff.1 h4
      have hnext := hstep hsel.1 (not_or.1 hgo).1 h5
      grind

end

/-! ## Connecting and disconnecting -/

/-- No candidate sorts below the tip. -/
def CandAbove (env : Env) (s : Chainstate) : Prop :=
  ∀ c ∈ s.setBlockIndexCandidates, s.workLess env c s.tip = false

theorem Narrows.of_tip (s : Chainstate) (t : BlockPtr) (n k : Nat) :
    Narrows s { s with tip := t, calls := n, disconnects := k } :=
  narrows_of_same rfl (fun _ => rfl) (fun _ => rfl) (fun _ => rfl) (fun _ h => h) rfl

theorem markConnected_narrows (s : Chainstate) (b : BlockPtr) : Narrows s (s.markConnected b) := by
  unfold markConnected
  split
  · exact .refl s
  · exact narrows_modifyStatus s b _ fun st => field_raiseValidity (·.haveData)

variable {env : Env} {s s' : Chainstate}

theorem disconnectTip_spec (h : s.disconnectTip env = some s') :
    Narrows s s' ∧ s'.tip = s.tip.tail ∧ s'.tip ≠ [] ∧ s'.disconnects = s.disconnects + 1 := by
  unfold disconnectTip at h
  split at h
  · next x y b ht =>
    split at h
    · cases h
      exact ⟨.of_tip s _ _ _, by rw [ht]; rfl, by simp, rfl⟩
    · cases h
  · cases h

theorem connectTip_spec {b : BlockPtr} {r : ConnectOutcome}
    (h : s.connectTip env b = some (s', r)) :
    Narrows s s' ∧ b.tail = s.tip ∧ (r = .ok → s'.tip = b) ∧ (r ≠ .ok → s'.tip = s.tip) := by
  unfold connectTip at h
  split at h
  · cases h
  next hb =>
  have hc : Narrows s { s with calls := s.calls + 1 } := .of_tip s s.tip _ _
  refine ⟨?_, not_not.1 hb, ?_⟩ <;> simp only at h <;> split at h
  · cases h
    refine hc.trans ((markConnected_narrows _ b).trans ?_)
    exact narrows_of_same rfl (fun _ => rfl) (fun _ => rfl) (fun _ => rfl) (fun _ h => h) rfl
  · obtain ⟨s1, hs, ⟨⟩⟩ := map_eq_some_iff.1 h
    exact hc.trans (narrows_invalidBlockFound hs).1
  · cases h
    exact hc
  · cases h
  · cases h
    exact ⟨fun _ => rfl, fun hr => absurd rfl hr⟩
  · obtain ⟨s1, hs, ⟨⟩⟩ := map_eq_some_iff.1 h
    exact ⟨by rintro ⟨⟩, fun _ => (narrows_invalidBlockFound hs).2⟩
  · cases h
    exact ⟨by rintro ⟨⟩, fun _ => rfl⟩
  · cases h

theorem disconnectTo_spec {fork : BlockPtr} {n : Nat} (h : disconnectTo env fork n s = some s')
    (ht : s.tip ≠ []) : Narrows s s' ∧ s'.tip = fork ∧ fork ≠ [] := by
  have hstep : ∀ {s1 s2}, Narrows s s1 ∧ s1.tip ≠ [] → s1.disconnectTip env = some s2 →
      Narrows s s2 ∧ s2.tip ≠ [] := by
    intro s1 s2 h1 hd
    obtain ⟨hn, -, hne, -⟩ := disconnectTip_spec hd
    exact ⟨h1.1.trans hn, hne⟩
  obtain ⟨⟨hn, hne⟩, hf⟩ := disconnectTo_induct hstep ⟨.refl s, ht⟩ h
  have hfork := hf.resolve_left hne
  exact ⟨hn, hfork, hfork ▸ hne⟩

theorem connectBlocks_spec {old front : BlockPtr} {l : List BlockPtr} {p : Progress}
    (h : connectBlocks env old front l s = some (s', p)) :
    Narrows s s' ∧ s.tip <:+ s'.tip ∧ (s'.tip = s.tip ∨ s'.tip ∈ l) ∧
      (CandAbove env s → CandAbove env s') := by
  induction l generalizing s with
  | nil =>
    cases h
    exact ⟨.refl _, suffix_refl _, .inl rfl, id⟩
  | cons b l ih =>
    -- a block that is not connected leaves the tip and the order alone
    have same : ∀ {s1}, Narrows s s1 → s1.tip = s.tip → Narrows s s1 ∧ s.tip <:+ s1.tip ∧
        (s1.tip = s.tip ∨ s1.tip ∈ b :: l) ∧ (CandAbove env s → CandAbove env s1) := by
      intro s1 hn ht
      refine ⟨hn, ht ▸ suffix_refl _, .inl ht, fun ha c hc => ?_⟩
      rw [hn.workLess, ht]
      exact ha c (hn.candidates c hc)
    unfold connectBlocks at h
    split at h
    · cases h
    · cases h
    · next s1 hs =>
      cases h
      obtain ⟨hn, -, -, ht⟩ := connectTip_spec hs
      exact same hn (ht (by simp))
    · next s1 hs =>
      obtain ⟨s2, h2, ⟨⟩⟩ := map_eq_some_iff.1 h
      obtain ⟨hn, -, -, ht⟩ := connectTip_spec hs
      obtain ⟨hn2, ht2⟩ := narrows_invalidChainFound h2
      exact same (hn.trans hn2) (ht2.trans (ht (by simp)))
    · next s1 hs =>
      obtain ⟨hn, hb, ht, -⟩ := connectTip_spec hs
      obtain ⟨s2, h2, h3⟩ := bind_eq_some_iff.1 h
      obtain ⟨hn2, ht2, ha2⟩ := pruneBlockIndexCandidates_spec h2
      have hsb : s.tip <:+ s2.tip := by
        rw [ht2, ht rfl, ← hb]
        exact tail_suffix b
      split at h3
      · cases h3
        exact ⟨hn.trans hn2, hsb, .inr (by rw [ht2, ht rfl]; exact mem_cons_self), fun _ => ha2⟩
      obtain ⟨hn3, hs3, hm3, ha3⟩ := ih h3
      refine ⟨(hn.trans hn2).trans hn3, hsb.trans hs3, .inr ?_, fun _ => ha3 ha2⟩
      grind

theorem pathAbove_suffix {height : Int} {b x : BlockPtr} (h : x ∈ pathAbove height b) :
    x <:+ b := by
  induction b with
  | nil => cases h
  | cons y b ih =>
    unfold pathAbove at h
    grind

theorem connectLoop_spec {old m : BlockPtr} {fuel : Nat} {height : Int} {inv : Bool}
    (h : connectLoop env old m fuel height s = some (s', inv)) :
    Narrows s s' ∧ s.tip <:+ s'.tip ∧ (s'.tip = s.tip ∨ s'.tip <:+ m) ∧
      (CandAbove env s → CandAbove env s') := by
  refine connectLoop_induct (P := fun t _ => Narrows s t ∧ s.tip <:+ t.tip ∧
    (t.tip = s.tip ∨ t.tip <:+ m) ∧ (CandAbove env s → CandAbove env t)) ?_
    ⟨.refl _, suffix_refl _, .inl rfl, id⟩ h
  rintro s1 s2 height t p ⟨h1, h2, h3, h4⟩ hb
  obtain ⟨h1', h2', h3', h4'⟩ := connectBlocks_spec hb
  refine ⟨h1.trans h1', h2.trans h2', ?_, fun ha => h4' (h4 ha)⟩
  -- what a batch connects lies on the branch of `m`
  rcases h3' with he | hm
  · rw [he]
    exact h3
  · exact .inr ((pathAbove_suffix (mem_reverse.1 hm)).trans (getAncestor_suffix _ _))

end Chainstate

/-! ## Branches from genesis -/

/-- `b` is a branch on genesis whose headers carry work, as `AcceptBlockHeader` checks. -/
structure Rooted (env : Env) (b : BlockPtr) : Prop where
  genesis : [env.genesis] <:+ b
  work : ∀ x y, (x :: y) <:+ b → y ≠ [] → 0 < getBlockProof x.nBits

namespace Rooted

variable {env : Env} {b a : BlockPtr}

theorem ne_nil (h : Rooted env b) : b ≠ [] := by
  rintro rfl
  exact absurd (suffix_nil.1 h.genesis) (by simp)

theorem suffix (h : Rooted env b) (hab : a <:+ b) (ha : a ≠ []) : Rooted env a := by
  refine ⟨?_, fun x y hxy hy => h.work x y (hxy.trans hab) hy⟩
  have hl := length_pos_iff.2 ha
  exact suffix_of_suffix_length_le h.genesis hab hl

theorem work_lt (h : Rooted env b) (hab : a <:+ b) (ha : a ≠ [])
    (hne : a ≠ b) : nChainWork a < nChainWork b := by
  cases b with
  | nil => exact absurd (suffix_nil.1 hab) ha
  | cons x y =>
    have hay : a <:+ y := (suffix_cons_iff.1 hab).resolve_left hne
    have hy : y ≠ [] := by
      rintro rfl
      exact ha (suffix_nil.1 hay)
    have h1 := nChainWork_le_of_suffix hay
    have h2 := h.work x y (suffix_refl _) hy
    show nChainWork a < nChainWork y + getBlockProof x.nBits
    omega

end Rooted

namespace Chainstate

variable {env : Env} {s s' : Chainstate}

theorem workLess_of_ancestor {a b c : BlockPtr} (h : Rooted env b)
    (hab : a <:+ b) (ha : a ≠ []) (hc : s.workLess env c b = false) :
    s.workLess env c a = false := by
  by_cases he : a = b
  · rw [he]
    exact hc
  have hw := h.work_lt hab ha he
  by_contra hn
  have h1 := workLess_iff.1 (by simpa using hn)
  have h2 : s.workLess env c b := workLess_iff.2 (by omega)
  simp [hc] at h2

/-- **One step towards `m`** leaves the tip between the fork and `m`. -/
theorem activateBestChainStep_spec {m : BlockPtr} {inv : Bool}
    (h : s.activateBestChainStep env m = some (s', inv)) (ht : Rooted env s.tip)
    (ha : CandAbove env s) :
    Narrows s s' ∧ Branch.meet m s.tip <:+ s'.tip ∧ s'.tip <:+ m ∧ s'.tip ≠ [] ∧
      CandAbove env s' := by
  obtain ⟨s1, h1, h2⟩ := bind_eq_some_iff.1 h
  rw [findFork_eq_meet] at h1
  obtain ⟨hn1, ht1, hf⟩ := disconnectTo_spec h1 ht.ne_nil
  obtain ⟨hn2, hs2, hm2, ha2⟩ := connectLoop_spec h2
  rw [ht1] at hs2 hm2
  have hm : s'.tip <:+ m := by
    rcases hm2 with he | hm
    · rw [he]
      exact Branch.meet_suffix_left _ _
    · exact hm
  have hne : s'.tip ≠ [] := by
    intro he
    rw [he] at hs2
    exact hf (suffix_nil.1 hs2)
  refine ⟨hn1.trans hn2, hs2, hm, hne, ha2 fun c hc => ?_⟩
  -- the fork has less work than the old tip, so the candidates stay above it
  rw [hn1.workLess, ht1]
  exact workLess_of_ancestor ht (Branch.meet_suffix_right _ _) hf (ha c (hn1.candidates c hc))

/-! ## The invariant of chain selection -/

/-- What holds whenever `cs_main` is free. -/
structure Wf (env : Env) (s : Chainstate) : Prop where
  tip_rooted : Rooted env s.tip
  known_rooted : ∀ b ∈ s.known, Rooted env b
  data_known : ∀ b, (s.data b).nStatus.haveData → b ∈ s.known
  cand_rooted : ∀ c ∈ s.setBlockIndexCandidates, Rooted env c
  unlinked : ∀ e ∈ s.blocksUnlinked,
    e.1 = e.2.tail ∧ (s.data e.2).nStatus.haveData ∧ Rooted env e.2
  unlinked_nodup : s.blocksUnlinked.Nodup
  linked : ∀ b, (s.data b).haveNumChainTxs → s.HaveBranch b
  tip_data : s.HaveBranch s.tip
  cand_data : ∀ c ∈ s.setBlockIndexCandidates, s.HaveBranch c
  cand_above : CandAbove env s

theorem Wf.narrow (h : Wf env s) (hn : Narrows s s')
    (ht : Rooted env s'.tip) (hd : s.HaveBranch s'.tip) (ha : CandAbove env s') : Wf env s' where
  tip_rooted := ht
  known_rooted := by
    rw [hn.known]
    exact h.known_rooted
  data_known b hb := by
    rw [hn.known]
    exact h.data_known b ((hn.haveData b).symm.trans hb)
  cand_rooted c hc := h.cand_rooted c (hn.candidates c hc)
  unlinked e he := by
    rw [hn.haveData]
    rcases hn.unlinked e he with he | ⟨h1, h2, h3, c, hc, hec⟩
    · exact h.unlinked e he
    · exact ⟨h1, h3, (h.cand_rooted c hc).suffix hec h2⟩
  unlinked_nodup := hn.nodup h.unlinked_nodup
  linked b hb := by
    refine hn.haveBranch (h.linked b ?_)
    simpa [BlockData.haveNumChainTxs, hn.count] using hb
  tip_data := hn.haveBranch hd
  cand_data c hc := hn.haveBranch (h.cand_data c (hn.candidates c hc))
  cand_above := ha

/-- What holds while an `ActivateBestChain` call runs: the tip, the candidates and the cached
most-work block all descend from `root`, and a candidate above the cached block satisfies
`Above` (it was accepted since the block was chosen). -/
structure Selecting (env : Env) (root : BlockPtr) (Above : BlockPtr → BlockPtr → Prop)
    (s : Chainstate) (cached : BlockPtr) : Prop where
  wf : Wf env s
  tip : root <:+ s.tip
  cand : ∀ c ∈ s.setBlockIndexCandidates, root <:+ c
  cached_root : cached ≠ [] → root <:+ cached ∧ Rooted env cached ∧ s.HaveBranch cached
  cached_above : cached ≠ [] →
    ∀ c ∈ s.setBlockIndexCandidates, s.workLess env cached c → Above cached c

section

variable {env : Env} {root : BlockPtr} {Above : BlockPtr → BlockPtr → Prop}
  {s s' : Chainstate} {m m' : BlockPtr}

theorem Selecting.findMostWorkChain (h : Selecting env root Above s [])
    (hf : s.findMostWorkChain env = some (s', m)) :
    Selecting env root Above s' m ∧ s'.tip = s.tip ∧ (m = [] → s'.setBlockIndexCandidates = []) := by
  obtain ⟨hn, ht, hm⟩ := findMostWorkChain_spec hf
  have ha : CandAbove env s' := by
    intro c hc
    rw [hn.workLess, ht]
    exact h.wf.cand_above c (hn.candidates c hc)
  have hwf : Wf env s' := h.wf.narrow hn (ht ▸ h.wf.tip_rooted) (ht ▸ h.wf.tip_data) ha
  refine ⟨⟨hwf, ht ▸ h.tip, fun c hc => h.cand c (hn.candidates c hc), ?_, ?_⟩, ht, ?_⟩
  · intro hne
    rcases hm with ⟨he, -⟩ | ⟨hmem, hp, -⟩
    · exact absurd he hne
    · exact ⟨h.cand m (hn.candidates m hmem), hwf.cand_rooted m hmem,
        checkPath_usable hp hwf.tip_data⟩
  · intro hne c hc hlt
    rcases hm with ⟨he, -⟩ | ⟨-, -, hmax⟩
    · exact absurd he hne
    · simp [hmax c hc] at hlt
  · intro he
    rcases hm with ⟨-, hnil⟩ | ⟨hmem, -⟩
    · exact hnil
    · exact absurd he (hwf.cand_rooted m hmem).ne_nil

theorem Selecting.step (h : Selecting env root Above s m) (hm : m ≠ []) {inv : Bool}
    (hs : s.activateBestChainStep env m = some (s', inv)) :
    Selecting env root Above s' (if inv then [] else m) := by
  obtain ⟨hroot, hrooted, hdata⟩ := h.cached_root hm
  obtain ⟨hn, hfork, htm, hne, ha⟩ :=
    activateBestChainStep_spec hs h.wf.tip_rooted h.wf.cand_above
  have hwf : Wf env s' := h.wf.narrow hn (hrooted.suffix htm hne)
    (fun x hx hxt => hdata x hx (hxt.trans htm)) ha
  refine ⟨hwf, ?_, fun c hc => h.cand c (hn.candidates c hc), ?_, ?_⟩
  · exact (Branch.suffix_meet hroot h.tip).trans hfork
  · intro hc
    cases inv with
    | true => exact absurd rfl hc
    | false => exact ⟨hroot, hrooted, hn.haveBranch hdata⟩
  · intro hc c hcc hlt
    cases inv with
    | true => exact absurd rfl hc
    | false =>
      refine h.cached_above hm c (hn.candidates c hcc) ?_
      rw [← hn.workLess]
      exact hlt

/-- **One outer iteration keeps the invariant**; when the call returns, the tip is the cached
block or the candidate set is empty. -/
theorem Selecting.activateIteration {fuel : Nat} {done : Bool} (h : Selecting env root Above s m)
    (hi : activateIteration env fuel s m = some (s', m', done)) :
    Selecting env root Above s' m' ∧
      (done → m' = s'.tip ∨ m' = [] ∧ s'.setBlockIndexCandidates = []) := by
  obtain ⟨hsel, hend⟩ := activateIteration_induct (fun h hf => (h.findMostWorkChain hf).1)
    (fun h hm hs => h.step hm hs) h hi
  refine ⟨hsel, fun hd => (hend hd).imp_right ?_⟩
  rintro ⟨hnil, s0, h0, hf⟩
  exact ⟨hnil, (h0.findMostWorkChain hf).2.2 rfl⟩

end

end Chainstate

end BitcoinPurity
