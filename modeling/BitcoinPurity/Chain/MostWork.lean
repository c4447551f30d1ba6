import BitcoinPurity.Chain.Parking

/-!
What `FindMostWorkChain` returns, and what it leaves behind.

`Sifts s s'` relates the states before and after any number of rounds: a candidate that is gone has
an unusable block on its path, and the only change to an entry is a child flag above a block that
had the mark before.  So it is with the whole search (`findMostWorkChain_sifts`); the best candidate
of the sifted set is then the best usable one of the set before (`findMostWorkChain_selects`).
-/

namespace BitcoinPurity

namespace Chainstate

/-! ## Specification -/

variable (s : Chainstate)

/-- Every block on the path from `c` down to the active chain is linked: `HaveNumChainTxs` says
that the transactions of the block and of all blocks below it have been received. -/
def LinkedPath (c : BlockPtr) : Prop :=
  ∀ x, s.OnPath x c → (s.data x).haveNumChainTxs

/-- A candidate that can be activated. -/
def UsableCandidate (c : BlockPtr) : Prop :=
  c ∈ s.setBlockIndexCandidates ∧ ∀ x, s.OnPath x c → s.usable x

/-- A block below `b` and off the active chain has the mark. -/
def MarkedBelow (mark : BlockStatus → Bool) (b : BlockPtr) : Prop :=
  ∃ t, t ≠ b ∧ s.OnPath t b ∧ mark (s.data t).nStatus

def addChildFlags (d : BlockData) (failed parked : Bool) : BlockData :=
  { d with nStatus := { d.nStatus with
    failedChild := d.nStatus.failedChild || failed
    parkedChild := d.nStatus.parkedChild || parked } }

/-- `s'` came from `s` by rounds of `FindMostWorkChain`. -/
structure Sifts (s s' : Chainstate) : Prop where
  tip : s'.tip = s.tip
  data : ∀ x, ∃ failed parked, s'.data x = addChildFlags (s.data x) failed parked ∧
    (failed → s.MarkedBelow BlockStatus.failedMask x) ∧
    (parked → s.MarkedBelow BlockStatus.parkedMask x)
  erased : ∀ c ∈ s.setBlockIndexCandidates, c ∉ s'.setBlockIndexCandidates →
    ∃ t, s.OnPath t c ∧ s.usable t = false ∧ ((s.data t).nStatus.haveData →
      (s'.data c).nStatus.failedMask ∨ (s'.data c).nStatus.parkedMask)

/-! ## Rounds -/

section

variable {env : Env} {s s' s'' : Chainstate} {b c m t x : BlockPtr}

theorem OnPath.of_tip (h : s.OnPath x b) (ht : s'.tip = s.tip) : s'.OnPath x b :=
  ⟨h.1, h.2.1, ht ▸ h.2.2⟩

theorem OnPath.suffix (h : s.OnPath x b) (hb : b <:+ c) : s.OnPath x c :=
  ⟨h.1, h.2.1.trans hb, h.2.2⟩

theorem usable_eq_false : s.usable x = false ↔ (s.data x).nStatus.failedMask ∨
    (s.data x).nStatus.parkedMask ∨ (s.data x).nStatus.haveData = false := by
  rw [usable, Bool.not_eq_false', Bool.or_eq_true, Bool.or_eq_true, Bool.not_eq_true', or_assoc]

@[simp] theorem failedMask_addChildFlags (d : BlockData) (failed parked : Bool) :
    (addChildFlags d failed parked).nStatus.failedMask = (d.nStatus.failedMask || failed) :=
  (Bool.or_assoc _ _ _).symm

@[simp] theorem parkedMask_addChildFlags (d : BlockData) (failed parked : Bool) :
    (addChildFlags d failed parked).nStatus.parkedMask = (d.nStatus.parkedMask || parked) :=
  (Bool.or_assoc _ _ _).symm

namespace Sifts

theorem refl (s : Chainstate) : Sifts s s :=
  ⟨rfl, fun x => ⟨false, false, by simp [addChildFlags], by simp, by simp⟩, fun _ h h' => absurd h h'⟩

variable (h : Sifts s s')
include h

theorem haveData (x : BlockPtr) : (s'.data x).nStatus.haveData = (s.data x).nStatus.haveData := by
  obtain ⟨f, p, hd, -⟩ := h.data x
  rw [hd, addChildFlags]

theorem failed (hx : (s.data x).nStatus.failedMask) : (s'.data x).nStatus.failedMask := by
  obtain ⟨f, p, hd, -⟩ := h.data x
  rw [hd, failedMask_addChildFlags, hx, Bool.true_or]

theorem parked (hx : (s.data x).nStatus.parkedMask) : (s'.data x).nStatus.parkedMask := by
  obtain ⟨f, p, hd, -⟩ := h.data x
  rw [hd, parkedMask_addChildFlags, hx, Bool.true_or]

theorem fromFailed (hx : (s'.data x).nStatus.failedMask) :
    (s.data x).nStatus.failedMask ∨ s.MarkedBelow BlockStatus.failedMask x := by
  obtain ⟨f, p, hd, hf, -⟩ := h.data x
  rw [hd, failedMask_addChildFlags, Bool.or_eq_true] at hx
  exact hx.imp_right hf

theorem fromParked (hx : (s'.data x).nStatus.parkedMask) :
    (s.data x).nStatus.parkedMask ∨ s.MarkedBelow BlockStatus.parkedMask x := by
  obtain ⟨f, p, hd, -, hp⟩ := h.data x
  rw [hd, parkedMask_addChildFlags, Bool.or_eq_true] at hx
  exact hx.imp_right hp

theorem markedBelow {mark : BlockStatus → Bool} (hfrom : ∀ {t}, mark (s'.data t).nStatus →
      mark (s.data t).nStatus ∨ s.MarkedBelow mark t)
    (hx : s'.MarkedBelow mark x) : s.MarkedBelow mark x := by
  obtain ⟨t, htx, hpath, ht⟩ := hx
  have hpath := hpath.of_tip h.tip.symm
  rcases hfrom ht with ht | ⟨u, hut, hu, hm⟩
  · exact ⟨t, htx, hpath, ht⟩
  · exact ⟨u, fun he => hut (Branch.suffix_antisymm hu.2.1 (he ▸ hpath.2.1)),
      hu.suffix hpath.2.1, hm⟩

theorem unusable (hx : s'.OnPath x c) (hu : s'.usable x = false) :
    ∃ t, s.OnPath t c ∧ s.usable t = false := by
  have hx := hx.of_tip h.tip.symm
  rcases usable_eq_false.1 hu with hu | hu | hu
  · rcases h.fromFailed hu with hf | ⟨t, -, ht, hf⟩
    · exact ⟨x, hx, usable_eq_false.2 (.inl hf)⟩
    · exact ⟨t, ht.suffix hx.2.1, usable_eq_false.2 (.inl hf)⟩
  · rcases h.fromParked hu with hp | ⟨t, -, ht, hp⟩
    · exact ⟨x, hx, usable_eq_false.2 (.inr (.inl hp))⟩
    · exact ⟨t, ht.suffix hx.2.1, usable_eq_false.2 (.inr (.inl hp))⟩
  · exact ⟨x, hx, usable_eq_false.2 (.inr (.inr ((h.haveData x).symm.trans hu)))⟩

theorem trans (h' : Sifts s' s'') : Sifts s s'' where
  tip := h'.tip.trans h.tip
  data x := by
    obtain ⟨f, p, hd, hf, hp⟩ := h.data x
    obtain ⟨f', p', hd', hf', hp'⟩ := h'.data x
    refine ⟨f || f', p || p', ?_, fun hx => ?_, fun hx => ?_⟩
    · rw [hd', hd]
      simp [addChildFlags, Bool.or_assoc]
    · exact (Bool.or_eq_true _ _ ▸ hx).elim hf fun hx => h.markedBelow h.fromFailed (hf' hx)
    · exact (Bool.or_eq_true _ _ ▸ hx).elim hp fun hx => h.markedBelow h.fromParked (hp' hx)
  erased c hc hgone := by
    by_cases hmid : c ∈ s'.setBlockIndexCandidates
    · obtain ⟨x, hx, hu, hflag⟩ := h'.erased c hmid hgone
      by_cases hd : (s'.data x).nStatus.haveData
      · obtain ⟨t, ht, hut⟩ := h.unusable hx hu
        exact ⟨t, ht, hut, fun _ => hflag hd⟩
      rw [h.haveData] at hd
      exact ⟨x, hx.of_tip h.tip.symm, usable_eq_false.2 (.inr (.inr (by simpa using hd))),
        fun hd' => absurd hd' hd⟩
    · obtain ⟨t, ht, hu, hflag⟩ := h.erased c hc hmid
      exact ⟨t, ht, hu, fun hd => (hflag hd).imp h'.failed h'.parked⟩

theorem erase (ht : s.OnPath t b) (hu : s.usable t = false) (hflag : (s.data t).nStatus.haveData →
      (s'.data b).nStatus.failedMask ∨ (s'.data b).nStatus.parkedMask) :
    Sifts s (s'.eraseCandidate b) where
  tip := h.tip
  data := h.data
  erased c hc hgone := by
    by_cases hcb : c = b
    · subst hcb
      exact ⟨t, ht, hu, hflag⟩
    · exact h.erased c hc fun hm => hgone ((mem_eraseCandidate _ _).2 ⟨hm, hcb⟩)

end Sifts

theorem markUnusable_data (test : BlockStatus) (s : Chainstate) (b : BlockPtr) :
    ∃ failed parked, (failed = true → test.failedMask = true) ∧
      (parked = true → test.parkedMask = true) ∧
      (test.failedMask = true ∨ test.parkedMask = true → (failed || parked) = true) ∧
      ∀ x, (markUnusable test s b).data x =
        if x = b then addChildFlags (s.data x) failed parked else s.data x := by
  unfold markUnusable
  split
  · next hf =>
    exact ⟨true, false, fun _ => hf, by simp, fun _ => rfl, fun x => by
      simp [modifyStatus, modify, addChildFlags]⟩
  split
  · next hp =>
    exact ⟨false, true, by simp, fun _ => hp, fun _ => rfl, fun x => by
      simp [modifyStatus, modify, addChildFlags]⟩
  next hf hp =>
  exact ⟨false, false, by simp, by simp, fun h => (h.elim hf hp).elim, fun x => by
    simp [addChildFlags]⟩

theorem sifts_markUnusable (hne : t ≠ b) (ht : s.OnPath t b) (hu : s.usable t = false) :
    Sifts s ((markUnusable (s.data t).nStatus s b).eraseCandidate b) := by
  obtain ⟨f, p, hf, hp, hfp, hd⟩ := markUnusable_data (s.data t).nStatus s b
  have h : Sifts s (markUnusable (s.data t).nStatus s b) := by
    refine ⟨markUnusable_tip _ _ _, fun x => ?_, fun c hc hgone => ?_⟩
    · rw [hd]
      split
      · next hx =>
        subst hx
        exact ⟨f, p, rfl, fun h => ⟨t, hne, ht, hf h⟩, fun h => ⟨t, hne, ht, hp h⟩⟩
      · exact (Sifts.refl s).data x
    · rw [markUnusable_candidates] at hgone
      exact absurd hc hgone
  refine h.erase ht hu fun hdata => ?_
  have hmark : (s.data t).nStatus.failedMask ∨ (s.data t).nStatus.parkedMask := by
    simpa [usable_eq_false, hdata] using hu
  rw [hd, if_pos rfl]
  rcases (Bool.or_eq_true _ _ ▸ hfp hmark) with h | h <;> simp [h]

theorem sifts_removeChain {test : BlockStatus} (htest : (s.data t).nStatus = test)
    (ht : s.OnPath t b) (hu : s.usable t = false) : Sifts s (removeChain t test b s) := by
  induction b generalizing s with
  | nil => exact absurd (List.suffix_nil.1 ht.2.1) ht.1
  | cons x b ih =>
    unfold removeChain
    split
    · next he =>
      subst he
      refine (Sifts.refl s).erase ht hu fun hdata => ?_
      simpa [usable_eq_false, hdata] using hu
    next hne =>
    subst htest
    have hmark := sifts_markUnusable (Ne.symm hne) ht hu
    obtain ⟨f, p, -, -, -, hd⟩ := markUnusable_data (s.data t).nStatus s (x :: b)
    have hsame : ((markUnusable (s.data t).nStatus s (x :: b)).eraseCandidate (x :: b)).data t =
        s.data t := (hd t).trans (if_neg (Ne.symm hne))
    refine hmark.trans (ih (by rw [hsame]) ⟨ht.1, ?_, hmark.tip ▸ ht.2.2⟩ ?_)
    · exact (List.suffix_cons_iff.1 ht.2.1).resolve_left (Ne.symm hne)
    · rw [usable, hsame]
      exact hu

/-- **The search.** It ends, and it sifts the candidates. -/
theorem findMostWorkLoop_sifts {fuel : Nat} (hl : ∀ c ∈ s.setBlockIndexCandidates, s.LinkedPath c)
    (hfuel : s.setBlockIndexCandidates.length < fuel) :
    ∃ s' m, findMostWorkLoop env fuel s = some (s', m) ∧ Sifts s s' := by
  induction fuel generalizing s with
  | zero => omega
  | succ fuel ih =>
    unfold findMostWorkLoop
    cases hlast : LastBy.lastBy (s.workLess env) s.setBlockIndexCandidates with
    | none => exact ⟨s, [], rfl, .refl s⟩
    | some c =>
      have hc := LastBy.lastBy_mem hlast
      have htells := s.checkPath_tells c
      simp only
      cases hp : s.checkPath c with
      | usable => exact ⟨s, c, rfl, .refl s⟩
      | assertFailed =>
        rw [hp] at htells
        obtain ⟨x, hx, hnum, -⟩ := htells
        simp [hl c hc x hx] at hnum
      | unusable t =>
        rw [hp] at htells
        have hround := sifts_removeChain rfl htells.1 htells.2.1
        have hsub := removeChain_sublist t (s.data t).nStatus c s
        have hlt := removeChain_length_lt (s.data t).nStatus hc htells.1.1 htells.1.2.1
        obtain ⟨s', m, hrun, hrest⟩ := ih
          (fun d hd x hx => by
            obtain ⟨f, p, hdata, -⟩ := hround.data x
            rw [hdata]
            exact hl d (hsub.subset hd) x (hx.of_tip hround.tip.symm)) (by omega)
        exact ⟨s', m, hrun, hround.trans hrest⟩

theorem findMostWorkChain_sifts (env : Env) (hl : ∀ c ∈ s.setBlockIndexCandidates, s.LinkedPath c) :
    ∃ s' m, s.findMostWorkChain env = some (s', m) ∧ Sifts s s' :=
  findMostWorkLoop_sifts hl (Nat.lt_succ_self _)

/-! ## The best usable candidate -/

theorem Sifts.mem (h : Sifts s s') (hc : s.UsableCandidate c) : c ∈ s'.setBlockIndexCandidates := by
  by_contra hgone
  obtain ⟨t, ht, hu, -⟩ := h.erased c hc.1 hgone
  simp [hc.2 t ht] at hu

theorem Sifts.usableCandidate (h : Sifts s s') (hn : Narrows s s')
    (hm : m ∈ s'.setBlockIndexCandidates) (hp : s'.checkPath m = .usable) :
    s.UsableCandidate m := by
  refine ⟨hn.candidates m hm, fun x hx => ?_⟩
  have htells := s'.checkPath_tells m
  rw [hp] at htells
  have hx' := usable_iff.1 (htells x (hx.of_tip h.tip))
  rw [usable_iff]
  refine ⟨?_, ?_, (h.haveData x).symm.trans hx'.2.2⟩
  · exact Bool.eq_false_of_not_eq_true fun hf => by simp [h.failed hf] at hx'
  · exact Bool.eq_false_of_not_eq_true fun hf => by simp [h.parked hf] at hx'

end

/-- **`FindMostWorkChain`** ends on every set of linked candidates.  It returns the greatest usable
candidate, the null pointer if there is none.  A candidate that it erases has an unusable block on
its path, and the flags that it adds are child flags above failed and above parked blocks. -/
theorem findMostWorkChain_selects {env : Env} {s : Chainstate}
    (hlinked : ∀ c ∈ s.setBlockIndexCandidates, s.LinkedPath c) :
    ∃ s' m, s.findMostWorkChain env = some (s', m) ∧ (m = [] ∧ (∀ c, ¬ s.UsableCandidate c) ∨
        s.UsableCandidate m ∧ ∀ c, s.UsableCandidate c → c ≠ m → s.workLess env c m) ∧
      (∀ c ∈ s.setBlockIndexCandidates, c ∉ s'.setBlockIndexCandidates →
        ∃ t, s.OnPath t c ∧ s.usable t = false) ∧
      ∀ x, ∃ failed parked, s'.data x = addChildFlags (s.data x) failed parked ∧
        (failed → s.MarkedBelow BlockStatus.failedMask x) ∧
        (parked → s.MarkedBelow BlockStatus.parkedMask x) := by
  obtain ⟨s', m, hrun, hsift⟩ := findMostWorkChain_sifts env hlinked
  obtain ⟨hn, -, hm⟩ := findMostWorkChain_spec hrun
  refine ⟨s', m, hrun, ?_, fun c hc hgone => ?_, hsift.data⟩
  · rcases hm with ⟨rfl, hempty⟩ | ⟨hmem, hpath, hmax⟩
    · refine .inl ⟨rfl, fun c hc => ?_⟩
      simpa [hempty] using hsift.mem hc
    refine .inr ⟨hsift.usableCandidate hn hmem hpath, fun c hc hne => ?_⟩
    have hle := hmax c (hsift.mem hc)
    rw [hn.workLess] at hle
    rcases trichotomous_of (fun a b => s.workLess env a b) c m with h | h | h
    · exact h
    · exact absurd h hne
    · simp [hle] at h
  · obtain ⟨t, ht, hu, -⟩ := hsift.erased c hc hgone
    exact ⟨t, ht, hu⟩

/-- Genesis is active; of the branches on it one has failed, one is parked, and the third has less
work. -/
def markedForks : Chainstate :=
  { freshChainstate (regtestEnv 6) with
    tip := regtestBranch []
    data := fun b =>
      { chainTxCount := 1
        nStatus :=
          { haveData := true
            failedValid := decide (b = regtestBranch [1])
            parked := decide (b = regtestBranch [4]) } }
    setBlockIndexCandidates :=
      [regtestBranch [3, 2, 1], regtestBranch [2, 1], regtestBranch [5, 4], regtestBranch [6]] }

theorem findMostWorkChain_selects_markedForks : (markedForks.findMostWorkChain (regtestEnv 6)).map
        (fun r => (r.2, r.1.setBlockIndexCandidates)) =
      some (regtestBranch [6], [regtestBranch [6]]) ∧
    ∃ s' m, markedForks.findMostWorkChain (regtestEnv 6) = some (s', m) ∧
      ∀ c ∈ markedForks.setBlockIndexCandidates, c ∉ s'.setBlockIndexCandidates →
        ∃ t, markedForks.OnPath t c ∧ markedForks.usable t = false := by
  obtain ⟨s', m, hrun, -, herased, -⟩ :=
    @findMostWorkChain_selects (regtestEnv 6) markedForks fun _ _ _ _ => rfl
  exact ⟨by decide +kernel, s', m, hrun, herased⟩

end Chainstate

end BitcoinPurity
