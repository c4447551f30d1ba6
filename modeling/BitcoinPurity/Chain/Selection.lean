import BitcoinPurity.Chain.Failures
import BitcoinPurity.Chain.MostWork

/-!
What `ActivateBestChain` ends with when blocks connect.

`Target env s m`: `m` is a candidate on an unflagged branch, and every candidate above `m` has a
failed or parked block off the active chain.  Then `FindMostWorkChain` returns `m`
(`Target.findMostWorkChain`), one `ActivateBestChainStep` moves the tip to `m` or to a block of
more work than before (`activateBestChainStep_reaches`), and `activateBestChain_reaches`: with
enough fuel the call returns with `m` as its tip.
-/

namespace BitcoinPurity

open List Option Branch

namespace Chainstate

/-! ## Flags that only spread -/

/-- The failure and parked flags spread upwards; the validity only rises. -/
structure FlagsSpread (s s' : Chainstate) : Prop where
  failed : ∀ b, (s.data b).nStatus.failedMask → (s'.data b).nStatus.failedMask
  parked : ∀ b, (s.data b).nStatus.parkedMask → (s'.data b).nStatus.parkedMask
  fromFailed : ∀ b, (s'.data b).nStatus.failedMask →
    ∃ t, t <:+ b ∧ (s.data t).nStatus.failedMask
  fromParked : ∀ b, (s'.data b).nStatus.parkedMask →
    ∃ t, t <:+ b ∧ (s.data t).nStatus.parkedMask
  validity : ∀ b, (s.data b).nStatus.validity.level ≤ (s'.data b).nStatus.validity.level

namespace FlagsSpread

variable {s s' : Chainstate}

theorem of_same (hf : ∀ b, (s'.data b).nStatus.failedMask = (s.data b).nStatus.failedMask)
    (hp : ∀ b, (s'.data b).nStatus.parkedMask = (s.data b).nStatus.parkedMask)
    (hv : ∀ b, (s.data b).nStatus.validity.level ≤ (s'.data b).nStatus.validity.level) :
    FlagsSpread s s' :=
  ⟨fun b h => (hf b).trans h, fun b h => (hp b).trans h,
    fun b h => ⟨b, suffix_refl b, (hf b).symm.trans h⟩,
    fun b h => ⟨b, suffix_refl b, (hp b).symm.trans h⟩, hv⟩

theorem of_data (h : s'.data = s.data) : FlagsSpread s s' :=
  of_same (fun _ => by rw [h]) (fun _ => by rw [h]) fun _ => by rw [h]

theorem refl (s : Chainstate) : FlagsSpread s s := of_data rfl

theorem trans {s'' : Chainstate} (h : FlagsSpread s s') (h' : FlagsSpread s' s'') :
    FlagsSpread s s'' where
  failed b hb := h'.failed b (h.failed b hb)
  parked b hb := h'.parked b (h.parked b hb)
  fromFailed b hb := by
    obtain ⟨t, htb, ht⟩ := h'.fromFailed b hb
    obtain ⟨u, hut, hu⟩ := h.fromFailed t ht
    exact ⟨u, hut.trans htb, hu⟩
  fromParked b hb := by
    obtain ⟨t, htb, ht⟩ := h'.fromParked b hb
    obtain ⟨u, hut, hu⟩ := h.fromParked t ht
    exact ⟨u, hut.trans htb, hu⟩
  validity b := (h.validity b).trans (h'.validity b)

theorem parkChild {a b : BlockPtr} (hab : a <:+ b) (ha : (s.data a).nStatus.parkedMask) :
    FlagsSpread s (s.modifyStatus b fun st => { st with parkedChild := true }) := by
  have hst := s.modifyStatus_nStatus b fun st => { st with parkedChild := true }
  refine ⟨fun x hx => ?_, fun x hx => ?_, fun x hx => ?_, fun x hx => ?_, fun x => ?_⟩
  · rw [hst]
    split <;> exact hx
  · rw [hst]
    split
    · exact parkedMask_parkedChild _
    · exact hx
  · rw [hst] at hx
    exact ⟨x, suffix_refl x, by split at hx <;> exact hx⟩
  · grind
  · rw [hst]
    split <;> exact le_refl _

theorem insertCandidate (s : Chainstate) (b : BlockPtr) : FlagsSpread s (s.insertCandidate b) :=
  of_data (s.insertCandidate_data b)

end FlagsSpread

/-- What an offer does: candidates only go when they are parked, and an unparked block of enough
work comes in. -/
structure Offers (s s' : Chainstate) : Prop where
  flags : FlagsSpread s s'
  failures : SameFailures s s'
  keeps : ∀ c ∈ s.setBlockIndexCandidates,
    c ∈ s'.setBlockIndexCandidates ∨ (s'.data c).nStatus.parkedMask

theorem Offers.refl (s : Chainstate) : Offers s s := ⟨.refl s, .refl s, fun _ h => .inl h⟩

variable {s s' : Chainstate}

theorem Offers.trans {s'' : Chainstate} (h : Offers s s') (h' : Offers s' s'') : Offers s s'' where
  flags := h.flags.trans h'.flags
  failures := h.failures.trans h'.failures
  keeps c hc := by
    rcases h.keeps c hc with hc | hc
    · exact h'.keeps c hc
    · exact .inr (h'.flags.parked c hc)

theorem tryAddBlockIndexCandidate_offers (env : Env) (s : Chainstate) (b : BlockPtr) :
    Offers s (s.tryAddBlockIndexCandidate env b) ∧ (s.workLess env b s.tip = false →
        b ∈ (s.tryAddBlockIndexCandidate env b).setBlockIndexCandidates ∨
          ((s.tryAddBlockIndexCandidate env b).data b).nStatus.parkedMask) := by
  have rest : ∀ s₁, FlagsSpread s s₁ → SameFailures s s₁ →
      s₁.setBlockIndexCandidates = s.setBlockIndexCandidates →
      s₁.workLess env b s₁.tip = s.workLess env b s.tip →
      ∀ s₂, (if (s₁.data b).nStatus.parkedMask then s₁.eraseCandidate b
        else if s₁.tip ≠ [] && s₁.workLess env b s₁.tip then s₁ else s₁.insertCandidate b) = s₂ →
      Offers s s₂ ∧ (s.workLess env b s.tip = false →
        b ∈ s₂.setBlockIndexCandidates ∨ (s₂.data b).nStatus.parkedMask) := by
    rintro s₁ hf hs hc hw _ rfl
    split
    · next hp =>
      refine ⟨⟨hf.trans (.of_data rfl), hs.trans (.eraseCandidate _ b), fun c hcc => ?_⟩,
        fun _ => .inr hp⟩
      by_cases he : c = b
      · exact .inr (he ▸ hp)
      · exact .inl ((mem_eraseCandidate _ b).2 ⟨hc ▸ hcc, he⟩)
    · split
      · next hl =>
        refine ⟨⟨hf, hs, fun c hcc => .inl (hc ▸ hcc)⟩, fun hlt => ?_⟩
        rw [← hw] at hlt
        simp [hlt] at hl
      · refine ⟨⟨hf.trans (.insertCandidate _ b), hs.trans (.insertCandidate _ b), fun c hcc => ?_⟩,
          fun _ => .inl ((mem_insertCandidate _ b).2 (.inl rfl))⟩
        exact .inl ((mem_insertCandidate _ b).2 (.inr (hc ▸ hcc)))
  unfold tryAddBlockIndexCandidate
  split
  · next hp =>
    obtain ⟨a, hab, -, ha⟩ := parkedAbove_true hp
    refine rest _ (.parkChild (suffix_of_suffix_tail hab) ha) (.parkedChild s b) rfl ?_ _ rfl
    exact (narrows_modifyStatus s b (fun st => { st with parkedChild := true })
      fun _ => rfl).workLess env b s.tip
  · exact rest s (.refl s) (.refl s) rfl rfl _ rfl

theorem offerAll_offers (env : Env) (p : Chainstate → BlockPtr → Bool) (l : List BlockPtr)
    (s : Chainstate) : Offers s (s.offerAll env p l) :=
  offerAll_induction (.refl s) fun s₁ b _ _ h =>
    h.trans (tryAddBlockIndexCandidate_offers env s₁ b).1

theorem offerAll_mem {env : Env} {p : Chainstate → BlockPtr → Bool} {l : List BlockPtr}
    {b : BlockPtr} (ht : s.tip ≠ []) (hb : b ∈ l)
    (hp : ∀ s₁, SameIndex s s₁ → SameFailures s s₁ → FlagsSpread s s₁ → p s₁ b)
    (hw : s.workLess env b s.tip = false) :
    b ∈ (s.offerAll env p l).setBlockIndexCandidates ∨
      ((s.offerAll env p l).data b).nStatus.parkedMask := by
  induction l generalizing s with
  | nil => cases hb
  | cons c l ih =>
    have hone : ∀ s₁, s₁ = (if p s c then s.tryAddBlockIndexCandidate env c else s) →
        SameIndex s s₁ ∧ Offers s s₁ := by
      rintro s₁ rfl
      split
      · exact ⟨(tryAddBlockIndexCandidate_spec env c ht).1, (tryAddBlockIndexCandidate_offers env s c).1⟩
      · exact ⟨.refl s, .refl s⟩
    obtain ⟨hs, ho⟩ := hone _ rfl
    unfold offerAll
    rw [foldl_cons]
    rcases mem_cons.1 hb with rfl | hb
    · -- offered now, and later offers only remove parked candidates
      have hin := (tryAddBlockIndexCandidate_offers env s b).2 hw
      rw [if_pos (hp s (.refl s) (.refl s) (.refl s))]
      have hrest := offerAll_offers env p l (s.tryAddBlockIndexCandidate env b)
      rcases hin with hin | hin
      · exact hrest.keeps b hin
      · exact .inr (hrest.flags.parked b hin)
    · refine ih (hs.tip ▸ ht) hb (fun s₁ h1 h2 h3 => ?_) ?_
      · exact hp s₁ (hs.trans h1) (ho.failures.trans h2) (ho.flags.trans h3)
      · rw [hs.workLess, hs.tip]
        exact hw

/-! ## Finding the target -/

/-- All blocks of the branch have their transactions and those of their ancestors. -/
def Linked (s : Chainstate) (b : BlockPtr) : Prop :=
  ∀ x ≠ [], x <:+ b → (s.data x).haveNumChainTxs

theorem Sifts.flagsSpread (h : Sifts s s') : FlagsSpread s s' where
  failed _ := h.failed
  parked _ := h.parked
  fromFailed b hb := by
    rcases h.fromFailed hb with hb | ⟨t, -, ht, hf⟩
    · exact ⟨b, suffix_refl b, hb⟩
    · exact ⟨t, ht.2.1, hf⟩
  fromParked b hb := by
    rcases h.fromParked hb with hb | ⟨t, -, ht, hp⟩
    · exact ⟨b, suffix_refl b, hb⟩
    · exact ⟨t, ht.2.1, hp⟩
  validity b := by
    obtain ⟨f, p, hd, -⟩ := h.data b
    rw [hd, addChildFlags]

/-- `m` is a candidate on an unflagged branch; whatever is above it has a flag on its way. -/
structure Target (env : Env) (s : Chainstate) (m : BlockPtr) : Prop where
  wf : Wf env s
  mem : m ∈ s.setBlockIndexCandidates
  linked : ∀ c ∈ s.setBlockIndexCandidates, s.Linked c
  unfailed : ∀ x, x <:+ m → (s.data x).nStatus.failedMask = false
  unparked : ∀ x, x <:+ m → (s.data x).nStatus.parkedMask = false
  better : ∀ c ∈ s.setBlockIndexCandidates, s.workLess env m c →
    ∃ x, x ≠ [] ∧ x <:+ c ∧ ¬ x <:+ s.tip ∧
      ((s.data x).nStatus.failedMask ∨ (s.data x).nStatus.parkedMask)

/-- What chain selection does on its way: entries, order and bodies stay, flags spread, and a
candidate that goes is flagged or below the tip. -/
structure Selects (env : Env) (s s' : Chainstate) : Prop where
  narrows : Narrows s s'
  flags : FlagsSpread s s'
  keeps : ∀ c ∈ s.setBlockIndexCandidates, c ∈ s'.setBlockIndexCandidates ∨
    (s'.data c).nStatus.failedMask ∨ (s'.data c).nStatus.parkedMask ∨
    s'.workLess env c s'.tip

theorem Selects.refl (env : Env) (s : Chainstate) : Selects env s s :=
  ⟨.refl s, .refl s, fun _ h => .inl h⟩

section

variable {env : Env} {s s' : Chainstate} {m : BlockPtr}

section
variable (h : Target env s m)
include h

theorem Target.usableCandidate : s.UsableCandidate m :=
  ⟨h.mem, fun x hx => usable_iff.2 ⟨h.unfailed x hx.2.1, h.unparked x hx.2.1,
    h.wf.cand_data m h.mem x hx.1 hx.2.1⟩⟩

theorem Target.not_usableCandidate {c : BlockPtr}
    (hlt : s.workLess env m c) : ¬ s.UsableCandidate c := by
  intro hc
  obtain ⟨x, hx, hxc, hoff, hflag⟩ := h.better c hc.1 hlt
  have hx := usable_iff.1 (hc.2 x ⟨hx, hxc, hoff⟩)
  rw [hx.1, hx.2.1] at hflag
  simp at hflag

theorem Target.sifts (hn : Narrows s s') (hs : Sifts s s') : Target env s' m where
  wf := h.wf.narrow hn (hs.tip ▸ h.wf.tip_rooted) (hs.tip ▸ h.wf.tip_data) fun x hx => by
    rw [hn.workLess, hs.tip]
    exact h.wf.cand_above x (hn.candidates x hx)
  mem := hs.mem h.usableCandidate
  linked x hx y hy hyx := by
    have := h.linked x (hn.candidates x hx) y hy hyx
    simpa [BlockData.haveNumChainTxs, hn.count] using this
  unfailed x hx := by
    by_contra hx'
    obtain ⟨u, hux, hu⟩ := hs.flagsSpread.fromFailed x (by simpa using hx')
    simp [h.unfailed u (hux.trans hx)] at hu
  unparked x hx := by
    by_contra hx'
    obtain ⟨u, hux, hu⟩ := hs.flagsSpread.fromParked x (by simpa using hx')
    simp [h.unparked u (hux.trans hx)] at hu
  better x hx hlt := by
    rw [hn.workLess] at hlt
    obtain ⟨y, hy, hyx, hoff, hyf⟩ := h.better x (hn.candidates x hx) hlt
    exact ⟨y, hy, hyx, hs.tip ▸ hoff, hyf.imp hs.failed hs.parked⟩

/-- **`FindMostWorkChain` returns the target.** -/
theorem Target.findMostWorkChain :
    ∃ s', s.findMostWorkChain env = some (s', m) ∧ Target env s' m ∧ Selects env s s' ∧
      s'.tip = s.tip := by
  obtain ⟨s', c, hrun, hs⟩ := findMostWorkChain_sifts env fun c hc x hx =>
    h.linked c hc x hx.1 hx.2.1
  obtain ⟨hn, ht, hc⟩ := findMostWorkChain_spec hrun
  have hm := hs.mem h.usableCandidate
  have hcm : c = m := by
    rcases hc with ⟨-, hempty⟩ | ⟨hmem, hpath, hmax⟩
    · simp [hempty] at hm
    have hle := hmax m hm
    rw [hn.workLess] at hle
    rcases trichotomous_of (fun a b => s.workLess env a b) c m with hlt | heq | hlt
    · simp [hle] at hlt
    · exact heq
    · exact absurd (hs.usableCandidate hn hmem hpath) (h.not_usableCandidate hlt)
  subst hcm
  refine ⟨s', hrun, h.sifts hn hs, ⟨hn, hs.flagsSpread, fun d hd => ?_⟩, ht⟩
  by_cases hgone : d ∈ s'.setBlockIndexCandidates
  · exact .inl hgone
  · obtain ⟨t, ht, -, hflag⟩ := hs.erased d hd hgone
    exact .inr ((hflag (h.wf.cand_data d hd t ht.1 ht.2.1)).imp_right .inl)

end

end

/-! ## Connecting towards the target -/

/-- The blocks of the branch connect and disconnect at every call. -/
structure Connectable (env : Env) (b : BlockPtr) : Prop where
  connect : ∀ n x, x ≠ [] → x <:+ b → env.connectBlock n x = .ok
  disconnect : ∀ n x, x ≠ [] → x <:+ b → env.disconnectBlock n x

theorem Connectable.suffix {env : Env} {a b : BlockPtr} (h : Connectable env b) (hab : a <:+ b) :
    Connectable env a :=
  ⟨fun n x hx hxa => h.connect n x hx (hxa.trans hab),
    fun n x hx hxa => h.disconnect n x hx (hxa.trans hab)⟩

/-- The tip climbed on the branch of `m`, which still is a candidate. -/
structure Climbs (env : Env) (m : BlockPtr) (s s' : Chainstate) : Prop where
  selects : Selects env s s'
  mem : m ∈ s'.setBlockIndexCandidates
  up : s.tip <:+ s'.tip
  on : s'.tip <:+ m

section

variable {env : Env} {s s' s'' : Chainstate} {m : BlockPtr}

theorem workLess_irrefl (s : Chainstate) (env : Env) (b : BlockPtr) :
    s.workLess env b b = false := by
  have := irrefl_of (fun a b => s.workLess env a b) b
  simpa using this

variable {b : BlockPtr}

theorem workLess_ancestor {a c : BlockPtr} (hr : Rooted env b) (hab : a <:+ b) (ha : a ≠ [])
    (h : s.workLess env c a) : s.workLess env c b := by
  by_contra hn
  simp [workLess_of_ancestor hr hab ha (by simpa using hn)] at h

theorem Selects.trans (h : Selects env s s') (h' : Selects env s' s'')
    (hup : ∀ c, s.workLess env c s'.tip → s.workLess env c s''.tip) : Selects env s s'' := by
  refine ⟨h.narrows.trans h'.narrows, h.flags.trans h'.flags, fun c hc => ?_⟩
  rcases h.keeps c hc with hc | hc | hc | hc
  · exact h'.keeps c hc
  · exact .inr (.inl (h'.flags.failed c hc))
  · exact .inr (.inr (.inl (h'.flags.parked c hc)))
  · rw [h.narrows.workLess] at hc
    refine .inr (.inr (.inr ?_))
    rw [h'.narrows.workLess, h.narrows.workLess]
    exact hup c hc

theorem Climbs.trans (h : Climbs env m s s') (h' : Climbs env m s' s'') (hr : Rooted env m)
    (hne : s.tip ≠ []) : Climbs env m s s'' := by
  have hne' : s'.tip ≠ [] := fun he => hne (suffix_nil.1 (he ▸ h.up))
  have hne'' : s''.tip ≠ [] := fun he => hne' (suffix_nil.1 (he ▸ h'.up))
  refine ⟨h.selects.trans h'.selects fun c hc => ?_, h'.mem, h.up.trans h'.up, h'.on⟩
  exact workLess_ancestor (hr.suffix h'.on hne'') h'.up hne' hc

theorem markConnected_flags (s : Chainstate) (b : BlockPtr) :
    FlagsSpread s (s.markConnected b) := by
  unfold markConnected
  split
  · exact .refl s
  have hst := s.modifyStatus_nStatus b fun st => { st with haveUndo := true }.raiseValidity .scripts
  refine .of_same (fun x => ?_) (fun x => ?_) fun x => ?_
  all_goals
    rw [hst]
    split
  · exact field_raiseValidity (·.failedMask)
  · rfl
  · exact field_raiseValidity (·.parkedMask)
  · rfl
  · unfold BlockStatus.raiseValidity
    grind
  · exact le_refl _

theorem connectTip_ok (hb : b.tail = s.tip) (hc : ∀ n, env.connectBlock n b = .ok) :
    ∃ s', s.connectTip env b = some (s', .ok) ∧ s'.tip = b ∧ FlagsSpread s s' ∧ Narrows s s' ∧
      s'.setBlockIndexCandidates = s.setBlockIndexCandidates := by
  have he : s.connectTip env b =
      some ({ ({ s with calls := s.calls + 1 } : Chainstate).markConnected b with tip := b }, .ok) := by
    unfold connectTip
    rw [if_neg (by simpa using hb)]
    simp [hc]
  refine ⟨_, he, rfl, ?_, (connectTip_spec he).1, ?_⟩
  · have h0 : FlagsSpread s { s with calls := s.calls + 1 } := .of_data rfl
    exact (h0.trans (markConnected_flags _ b)).trans (.of_data rfl)
  · unfold markConnected
    split <;> rfl

theorem pruneBlockIndexCandidates_some (hm : m ∈ s.setBlockIndexCandidates)
    (hw : s.workLess env m s.tip = false) :
    ∃ s', s.pruneBlockIndexCandidates env = some s' ∧ s'.tip = s.tip ∧ Selects env s s' ∧
      m ∈ s'.setBlockIndexCandidates := by
  have hmem : m ∈ s.setBlockIndexCandidates.filter fun c => !s.workLess env c s.tip :=
    mem_filter.2 ⟨hm, by rw [hw]; rfl⟩
  have he : s.pruneBlockIndexCandidates env = some { s with
      setBlockIndexCandidates :=
        s.setBlockIndexCandidates.filter fun c => !s.workLess env c s.tip } := by
    exact if_neg (ne_nil_of_mem hmem)
  refine ⟨_, he, rfl, ⟨(pruneBlockIndexCandidates_spec he).1, .of_data rfl, fun c hc => ?_⟩, hmem⟩
  by_cases hlt : s.workLess env c s.tip
  · exact .inr (.inr (.inr hlt))
  · exact .inl (mem_filter.2 ⟨hc, by simpa using hlt⟩)

variable (old front : BlockPtr)

theorem connectBlocks_cons {l : List BlockPtr} (hr : Rooted env m)
    (hm : m ∈ s.setBlockIndexCandidates) (hc : Connectable env m) (hb : b.tail = s.tip)
    (hbm : b <:+ m) (hne : b ≠ []) :
    ∃ s', Climbs env m s s' ∧ s'.tip = b ∧ connectBlocks env old front (b :: l) s =
        if old = [] ∨ nChainWork b > nChainWork old then some (s', .better)
        else connectBlocks env old front l s' := by
  obtain ⟨s₁, h1, ht1, hf1, hn1, hc1⟩ := connectTip_ok hb fun n => hc.connect n b hne hbm
  have hw : s₁.workLess env m s₁.tip = false := by
    rw [ht1]
    exact workLess_of_ancestor hr hbm hne (s₁.workLess_irrefl env m)
  obtain ⟨s2, h2, ht2, hs2, hm2⟩ := pruneBlockIndexCandidates_some (hc1 ▸ hm) hw
  refine ⟨s2, ⟨⟨hn1.trans hs2.narrows, hf1.trans hs2.flags, fun c hcc => ?_⟩, hm2, ?_, ?_⟩, ?_, ?_⟩
  · exact hs2.keeps c (hc1 ▸ hcc)
  · rw [ht2, ht1, ← hb]
    exact tail_suffix b
  · rw [ht2, ht1]
    exact hbm
  · rw [ht2, ht1]
  · conv_lhs => unfold connectBlocks
    simp [h1, h2, ht2, ht1]

theorem connectBlocks_append (l l' : List BlockPtr) :
    connectBlocks env old front (l ++ l') s = (connectBlocks env old front l s).bind fun r =>
      if r.2 = .more then connectBlocks env old front l' r.1 else some r := by
  induction l generalizing s with
  | nil => rfl
  | cons b l ih =>
    rw [cons_append, connectBlocks, connectBlocks]
    cases s.connectTip env b with
    | none => rfl
    | some r =>
      obtain ⟨s₁, o⟩ := r
      cases o with
      | ok =>
        simp only
        cases s₁.pruneBlockIndexCandidates env with
        | none => rfl
        | some s2 =>
          simp only [bind_some]
          split
          · rfl
          · exact ih
      | invalid =>
        simp only
        cases s₁.invalidChainFound front <;> rfl
      | mutated => rfl
      | error => rfl

/-- **A batch** ends at its last block, or at one of more work than the old tip. -/
theorem connectBlocks_reaches (hr : Rooted env m)
    (hm : m ∈ s.setBlockIndexCandidates) (hc : Connectable env m) (hne : s.tip ≠ [])
    (htb : s.tip <:+ b) (hbm : b <:+ m) :
    ∃ s', Climbs env m s s' ∧
      (connectBlocks env old front (pathAbove (nHeight s.tip) b).reverse s = some (s', .more) ∧
          s'.tip = b ∨
        connectBlocks env old front (pathAbove (nHeight s.tip) b).reverse s = some (s', .better) ∧
          (old = [] ∨ nChainWork old < nChainWork s'.tip)) := by
  -- the induction is on the top of the batch: it is connected last
  induction b with
  | nil => exact absurd (suffix_nil.1 htb) hne
  | cons x b ih =>
    unfold pathAbove
    by_cases he : s.tip = x :: b
    · rw [he, if_pos rfl]
      exact ⟨s, ⟨.refl env s, hm, suffix_refl _, he ▸ hbm⟩, .inl ⟨rfl, he⟩⟩
    have htb' := (suffix_cons_iff.1 htb).resolve_left he
    have hh : nHeight (x :: b) ≠ nHeight s.tip := by
      have := htb'.length_le
      have := nHeight_eq (x :: b)
      have := nHeight_eq s.tip
      simp only [length_cons] at *
      omega
    rw [if_neg hh, reverse_cons, connectBlocks_append]
    obtain ⟨s₁, h1, ⟨h2, ht1⟩ | ⟨h2, hw⟩⟩ := ih htb' ((suffix_cons x b).trans hbm)
    · obtain ⟨s2, h3, ht2, h4⟩ := connectBlocks_cons old front (b := x :: b)
        hr h1.mem hc ht1.symm hbm (by simp)
      rw [h2, bind_some, if_pos rfl, h4]
      refine ⟨s2, h1.trans h3 hr hne, ?_⟩
      split
      · next hw => exact .inr ⟨rfl, ht2.symm ▸ hw⟩
      · exact .inl ⟨rfl, ht2⟩
    · rw [h2]
      exact ⟨s₁, h1, .inr ⟨by simp, hw⟩⟩

/-- **The batches** end at `m`, or at a block of more work than the old tip. -/
theorem connectLoop_reaches (old : BlockPtr) (fuel : Nat) (hr : Rooted env m)
    (hm : m ∈ s.setBlockIndexCandidates) (hc : Connectable env m) (hne : s.tip ≠ [])
    (htm : s.tip <:+ m) (hfuel : m.length < s.tip.length + fuel) :
    ∃ s', connectLoop env old m fuel (nHeight s.tip) s = some (s', false) ∧ Climbs env m s s' ∧
      (s'.tip = m ∨ old = [] ∨ nChainWork old < nChainWork s'.tip) := by
  induction fuel generalizing s with
  | zero =>
    have := htm.length_le
    omega
  | succ fuel ih =>
    have hlen := htm.length_le
    have h1 := nHeight_eq s.tip
    have h2 := nHeight_eq m
    unfold connectLoop
    split
    · have : s.tip = m := suffix_eq_of_length htm (suffix_refl m) (by omega)
      exact ⟨s, rfl, ⟨.refl env s, hm, suffix_refl _, htm⟩, .inl this⟩
    next he =>
    have hb := getAncestor_length (b := m) (h := min (nHeight s.tip + 32) (nHeight m)) (by omega)
      (by omega)
    have hbm := getAncestor_suffix m (min (nHeight s.tip + 32) (nHeight m))
    have htb := suffix_of_suffix_length_le htm hbm (by omega)
    obtain ⟨s₁, h3, ⟨h4, ht⟩ | ⟨h4, hw⟩⟩ := connectBlocks_reaches old ((pathAbove (nHeight s.tip)
        (getAncestor m (min (nHeight s.tip + 32) (nHeight m)))).headD []) hr hm hc hne htb hbm
    · have hh : min (nHeight s.tip + 32) (nHeight m) = nHeight s₁.tip := by
        rw [ht, nHeight_eq (getAncestor _ _)]
        omega
      have hlt : s.tip.length < s₁.tip.length := by
        have := nHeight_eq s₁.tip
        omega
      have hne1 : s₁.tip ≠ [] := fun he => hne (suffix_nil.1 (he ▸ h3.up))
      simp only [h4]
      rw [hh]
      obtain ⟨s2, h5, h6, h7⟩ := ih h3.mem hne1 h3.on (by omega)
      exact ⟨s2, h5, h3.trans h6 hr hne, h7⟩
    · simp only [h4]
      exact ⟨s₁, rfl, h3, .inr hw⟩

end

/-! ## The whole call -/

/-- The tip moved on to the branch of `m`: no lower in the order, and `m` still a candidate. -/
structure Pursues (env : Env) (m : BlockPtr) (s s' : Chainstate) : Prop where
  wf : Wf env s'
  selects : Selects env s s'
  mem : m ∈ s'.setBlockIndexCandidates
  on : s'.tip <:+ m
  up : s'.tip = m ∨ nChainWork s.tip < nChainWork s'.tip
  stays : s.tip <:+ m → s.tip <:+ s'.tip

section

variable {env : Env} {s s' s₁ : Chainstate} {m cached : BlockPtr} {n : Nat}

theorem disconnectTo_some {fork : BlockPtr} (hf : fork <:+ s.tip) (hne : fork ≠ [])
    (hd : ∀ k x, x ≠ [] → x <:+ s.tip → env.disconnectBlock k x)
    (hn : s.tip.length ≤ fork.length + n) :
    ∃ s', disconnectTo env fork n s = some s' ∧ s'.data = s.data ∧
      s'.setBlockIndexCandidates = s.setBlockIndexCandidates := by
  induction n generalizing s with
  | zero =>
    have he : s.tip = fork := (suffix_eq_of_length hf (suffix_refl _)
      (le_antisymm hf.length_le (by omega))).symm
    unfold disconnectTo
    rw [if_pos (.inr he)]
    exact ⟨s, rfl, rfl, rfl⟩
  | succ n ih =>
    unfold disconnectTo
    by_cases he : s.tip = fork
    · rw [if_pos (.inr he)]
      exact ⟨s, rfl, rfl, rfl⟩
    have htne : s.tip ≠ [] := fun h0 => hne (suffix_nil.1 (h0 ▸ hf))
    rw [if_neg (by simp [he, htne])]
    have hft := suffix_tail_of_ne hf (Ne.symm he)
    -- the fork is not empty, so the tip is not genesis
    rcases ht : s.tip with _ | ⟨x, _ | ⟨y, b⟩⟩
    · exact absurd ht htne
    · rw [ht] at hft
      exact absurd (suffix_nil.1 hft) hne
    · have h1 : s.disconnectTip env = some
          { s with tip := y :: b, calls := s.calls + 1, disconnects := s.disconnects + 1 } := by
        unfold disconnectTip
        rw [ht]
        simp only
        rw [hd s.calls _ (by simp) (ht ▸ suffix_refl _), if_pos rfl]
      rw [h1]
      rw [ht] at hft hn hd
      exact ih hft
        (fun k z hz hzb => hd k z hz (hzb.trans (suffix_cons _ _)))
        (by simp only [length_cons] at hn ⊢; omega)

/-- **One step towards a connectable candidate** ends at it, or at a block of its branch with
more work than the old tip. -/
theorem activateBestChainStep_reaches (h : Wf env s) (hm : m ∈ s.setBlockIndexCandidates)
    (hc : Connectable env m) (ht : Connectable env s.tip) :
    ∃ s', s.activateBestChainStep env m = some (s', false) ∧ Pursues env m s s' := by
  have hr := h.cand_rooted m hm
  have hfork : meet m s.tip ≠ [] := by
    intro he
    have := suffix_meet hr.genesis h.tip_rooted.genesis
    rw [he] at this
    exact absurd (suffix_nil.1 this) (by simp)
  obtain ⟨s₁, h1, hd1, hc1⟩ := disconnectTo_some (n := s.tip.length)
    (meet_suffix_right m s.tip) hfork ht.disconnect (by omega)
  obtain ⟨hn1, ht1, -⟩ := disconnectTo_spec h1 h.tip_rooted.ne_nil
  obtain ⟨s2, h2, h3, h4⟩ := connectLoop_reaches s.tip (m.length + 1) hr (hc1 ▸ hm) hc (ht1 ▸ hfork)
    (ht1 ▸ meet_suffix_left m s.tip) (by omega)
  have he : s.activateBestChainStep env m = some (s2, false) := by
    unfold activateBestChainStep
    simp only [findFork_eq_meet, h1]
    rw [← ht1]
    exact h2
  obtain ⟨hn, hup, -, hne, ha⟩ := activateBestChainStep_spec he h.tip_rooted h.cand_above
  have hd0 : FlagsSpread s s₁ := .of_data hd1
  refine ⟨s2, he, ⟨?_, ⟨hn, hd0.trans h3.selects.flags, fun c hcc => ?_⟩, h3.mem, h3.on, ?_, ?_⟩⟩
  · exact h.narrow hn (hr.suffix h3.on hne)
      (fun x hx hxt => h.cand_data m hm x hx (hxt.trans h3.on)) ha
  · exact h3.selects.keeps c (hc1 ▸ hcc)
  · rcases h4 with he | he | hw
    · exact .inl he
    · exact absurd he h.tip_rooted.ne_nil
    · exact .inr hw
  · intro htm
    rw [meet_comm, meet_eq_left htm] at hup
    exact hup

theorem activateIteration_reaches (fuel : Nat) (h : Wf env s₁)
    (hm : m ∈ s₁.setBlockIndexCandidates) (hc : Connectable env m) (ht : Connectable env s₁.tip)
    (hs : s₁.tip = s.tip)
    (hfind : (if cached = [] then s.findMostWorkChain env else some (s, cached)) = some (s₁, m)) :
    ∃ s', activateIteration env (fuel + 1) s cached = some (s', m, decide (s'.tip = m)) ∧
      Pursues env m s₁ s' := by
  have hne := (h.cand_rooted m hm).ne_nil
  unfold activateIteration activateInner
  rw [hfind]
  by_cases he : m = s₁.tip
  · refine ⟨s₁, by simp [he], h, .refl env s₁, hm, he ▸ suffix_refl _, .inl he.symm,
      fun _ => suffix_refl _⟩
  obtain ⟨s2, h2, h3⟩ := activateBestChainStep_reaches h hm hc ht
  have htip : s2.tip ≠ [] := h3.wf.tip_rooted.ne_nil
  -- the step did not end below the starting tip
  have hstop : ¬ (s2.tip = [] ∨ s.tip ≠ [] ∧ s2.workLess env s2.tip s.tip) := by
    rintro (h0 | ⟨-, h0⟩)
    · exact htip h0
    · rw [h3.selects.narrows.workLess, ← hs] at h0
      rcases h3.up with he2 | hw
      · simp [he2, h.cand_above m hm] at h0
      · have := workLess_iff.1 h0
        omega
  refine ⟨s2, ?_, h3⟩
  simp [if_neg (not_or.2 ⟨hne, he⟩), h2, if_neg hstop]

theorem activateLoop_reaches (fuel : Nat) (h : Wf env s)
    (hm : m ∈ s.setBlockIndexCandidates) (hc : Connectable env m) (ht : s.tip <:+ m)
    (hn : m.length < s.tip.length + n) :
    ∃ s', activateLoop env (fuel + 1) n m s = some s' ∧ Pursues env m s s' ∧ s'.tip = m := by
  induction n generalizing s with
  | zero =>
    have := ht.length_le
    omega
  | succ n ih =>
    have hr := h.cand_rooted m hm
    obtain ⟨s₁, h1, h2⟩ := activateIteration_reaches fuel h hm hc (hc.suffix ht) rfl
      (if_neg hr.ne_nil)
    unfold activateLoop
    rw [h1]
    by_cases he : s₁.tip = m
    · rw [decide_eq_true he]
      exact ⟨s₁, rfl, h2, he⟩
    rw [decide_eq_false he]
    have hw := h2.up.resolve_left he
    have hlt : s.tip.length < s₁.tip.length := by
      refine lt_of_le_of_ne (h2.stays ht).length_le fun hl => ?_
      rw [suffix_eq_of_length (h2.stays ht) (suffix_refl _) hl] at hw
      omega
    obtain ⟨s2, h3, h4, h5⟩ := ih h2.wf h2.mem h2.on (by omega)
    refine ⟨s2, h3, ⟨h4.wf, ?_, h4.mem, h4.on, .inl h5, fun _ => ?_⟩, h5⟩
    · refine h2.selects.trans h4.selects fun c hcc => ?_
      rw [h5]
      exact workLess_ancestor hr h2.on h2.wf.tip_rooted.ne_nil hcc
    · rw [h5]
      exact ht

/-- **`ActivateBestChain` returns with the target as its tip.** -/
theorem activateBestChain_reaches (h : Target env s m) (hc : Connectable env m)
    (ht : Connectable env s.tip) {fuel : Nat} (hfuel : m.length < fuel) :
    ∃ s', activateBestChain env fuel s = some s' ∧ Wf env s' ∧ Selects env s s' ∧
      m ∈ s'.setBlockIndexCandidates ∧ s'.tip = m := by
  obtain ⟨n, rfl⟩ : ∃ n, fuel = n + 1 := ⟨fuel - 1, by omega⟩
  obtain ⟨s₁, h1, h2, h3, ht1⟩ := h.findMostWorkChain
  obtain ⟨s2, h4, h5⟩ := activateIteration_reaches n h2.wf
    h2.mem hc (ht1 ▸ ht) ht1 ((if_pos rfl).trans h1)
  -- nothing was dropped for being below the tip before the first step
  have hsel : ∀ {s'}, Selects env s₁ s' → Selects env s s' := by
    intro s' hs
    refine ⟨h3.narrows.trans hs.narrows, h3.flags.trans hs.flags, fun c hcc => ?_⟩
    rcases h3.keeps c hcc with h0 | h0 | h0 | h0
    · exact hs.keeps c h0
    · exact .inr (.inl (hs.flags.failed c h0))
    · exact .inr (.inr (.inl (hs.flags.parked c h0)))
    · simp [h3.narrows.workLess, ht1, h.wf.cand_above c hcc] at h0
  unfold activateBestChain activateLoop
  rw [h4]
  by_cases he : s2.tip = m
  · rw [decide_eq_true he]
    exact ⟨s2, rfl, h5.wf, hsel h5.selects, h5.mem, he⟩
  rw [decide_eq_false he]
  have hpos := length_pos_iff.2 h5.wf.tip_rooted.ne_nil
  obtain ⟨s3, h6, h7, h8⟩ := activateLoop_reaches n (n := n) h5.wf h5.mem hc h5.on (by omega)
  refine ⟨s3, h6, h7.wf, hsel (h5.selects.trans h7.selects fun c hcc => ?_), h7.mem, h8⟩
  rw [h8]
  exact workLess_ancestor (h2.wf.cand_rooted m h2.mem) h5.on h5.wf.tip_rooted.ne_nil hcc

end

end Chainstate

end BitcoinPurity
