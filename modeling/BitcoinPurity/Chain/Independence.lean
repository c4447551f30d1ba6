import BitcoinPurity.Chain.Selection

/-!
Failing, parking, reconsidering and unparking the first block `r` of a branch, in any order.

The branch forks off the active chain below `r` and its tip `b` has more work than the active
tip `a`.  The four calls edit flags and candidates lazily: what one leaves behind the others
find.  `Rivals` is what all of them keep; `AtRest` adds which of the two tips is active.

`tip_iff_clean`: after every step of every sequence of calls the next `ActivateBestChain` comes to
rest at `b` if `r` is clean, and at `a` otherwise; where a block above `r` has a flag of its own it
need not (`tip_stays_below_parked`).
-/

namespace BitcoinPurity

open List BlockStatus BlockValidity Chainstate

namespace Chainstate

/-! ## Flags above and beside a block -/

def failedAt (s : Chainstate) (b : BlockPtr) : Bool := (s.data b).nStatus.failedMask

def parkedAt (s : Chainstate) (b : BlockPtr) : Bool := (s.data b).nStatus.parkedMask

/-- Marks that only spread upwards. -/
structure Spread (m m' : BlockPtr → Bool) : Prop where
  mono : ∀ b, m b → m' b
  source : ∀ b, m' b → ∃ t, t <:+ b ∧ m t

/-- Marks that may also be set above `r`, and cleared above or below it. -/
structure Rewrites (r : BlockPtr) (m m' : BlockPtr → Bool) : Prop where
  off : ∀ b, ¬ r <:+ b → ¬ b <:+ r → m b → m' b
  source : ∀ b, m' b → r <:+ b ∨ ∃ t, t <:+ b ∧ m t

section

variable {r : BlockPtr} {m m' m'' : BlockPtr → Bool}

theorem false_of {p q : Bool} (h : p → q) (hq : q = false) : p = false :=
  Bool.eq_false_iff.2 fun hp => Bool.eq_false_iff.1 hq (h hp)

theorem Spread.refl (m : BlockPtr → Bool) : Spread m m :=
  ⟨fun _ h => h, fun b h => ⟨b, suffix_refl b, h⟩⟩

theorem Spread.trans (h : Spread m m') (h' : Spread m' m'') : Spread m m'' := by
  refine ⟨fun b hb => h'.mono b (h.mono b hb), fun b hb => ?_⟩
  obtain ⟨t, htb, ht⟩ := h'.source b hb
  obtain ⟨u, hut, hu⟩ := h.source t ht
  exact ⟨u, hut.trans htb, hu⟩

theorem Spread.rewrites (h : Spread m m') : Rewrites r m m' :=
  ⟨fun b _ _ => h.mono b, fun b hb => .inr (h.source b hb)⟩

theorem Rewrites.refl (m : BlockPtr → Bool) : Rewrites r m m := (Spread.refl m).rewrites

theorem Rewrites.clean {a : BlockPtr} (h : Rewrites r m m') (hr : ¬ r <:+ a)
    (hm : ∀ x, x <:+ a → m x = false) : ∀ x, x <:+ a → m' x = false := by
  intro x hx
  by_contra hn
  obtain ⟨t, ht, hmt⟩ := (h.source x (by simpa using hn)).resolve_left fun hrx => hr (hrx.trans hx)
  simp [hm t (ht.trans hx)] at hmt

theorem Spread.clean {a : BlockPtr} (h : Spread m m') (hm : ∀ x, x <:+ a → m x = false) :
    ∀ x, x <:+ a → m' x = false := by
  intro x hx
  by_contra hn
  obtain ⟨t, ht, hmt⟩ := h.source x (by simpa using hn)
  simp [hm t (ht.trans hx)] at hmt

theorem Rewrites.trans (h : Rewrites r m m') (h' : Rewrites r m' m'') : Rewrites r m m'' := by
  refine ⟨fun b h1 h2 hb => h'.off b h1 h2 (h.off b h1 h2 hb), fun b hb => ?_⟩
  rcases h'.source b hb with hrb | ⟨t, htb, ht⟩
  · exact .inl hrb
  rcases h.source t ht with hrt | ⟨u, hut, hu⟩
  · exact .inl (hrt.trans htb)
  · exact .inr ⟨u, hut.trans htb, hu⟩

end

variable {s s' : Chainstate} {a b r : BlockPtr} {env : Env}

theorem FlagsSpread.failedAt (h : FlagsSpread s s') : Spread s.failedAt s'.failedAt :=
  ⟨h.failed, h.fromFailed⟩

theorem FlagsSpread.parkedAt (h : FlagsSpread s s') : Spread s.parkedAt s'.parkedAt :=
  ⟨h.parked, h.fromParked⟩

theorem SameFailures.failedAt (h : SameFailures s s') : s'.failedAt = s.failedAt :=
  congrArg Marks.marked h.marks

/-- What every call does at most: entries and their order stay, the flags change on the branch
of `r` only, and new candidates have all their transactions. -/
structure Edits (env : Env) (r : BlockPtr) (s s' : Chainstate) : Prop where
  known : s'.known = s.known
  work : ∀ x y, s'.workLess env x y = s.workLess env x y
  num : ∀ x, (s'.data x).haveNumChainTxs = (s.data x).haveNumChainTxs
  failed : Rewrites r s.failedAt s'.failedAt
  parked : Rewrites r s.parkedAt s'.parkedAt
  validity : ∀ x, (s.data x).nStatus.validity.level ≤ (s'.data x).nStatus.validity.level
  cand : ∀ c ∈ s'.setBlockIndexCandidates,
    c ∈ s.setBlockIndexCandidates ∨ (s.data c).haveNumChainTxs

/-- Chain selection sees the block, unless it is parked. -/
abbrev Offered (s : Chainstate) (c : BlockPtr) : Prop :=
  c ∈ s.setBlockIndexCandidates ∨ s.parkedAt c

section

variable {env : Env} {r : BlockPtr} {s s' s'' : Chainstate}

theorem Edits.refl (env : Env) (r : BlockPtr) (s : Chainstate) : Edits env r s s :=
  ⟨rfl, fun _ _ => rfl, fun _ => rfl, .refl _, .refl _, fun _ => le_refl _, fun _ h => .inl h⟩

theorem Edits.trans (h : Edits env r s s') (h' : Edits env r s' s'') : Edits env r s s'' where
  known := h'.known.trans h.known
  work x y := (h'.work x y).trans (h.work x y)
  num x := (h'.num x).trans (h.num x)
  failed := h.failed.trans h'.failed
  parked := h.parked.trans h'.parked
  validity x := (h.validity x).trans (h'.validity x)
  cand c hc := by
    rcases h'.cand c hc with hc | hc
    · exact h.cand c hc
    · exact .inr ((h.num c).symm.trans hc)

theorem Edits.of_bodies (hb : SameBodies s s') (hf : Rewrites r s.failedAt s'.failedAt)
    (hp : Rewrites r s.parkedAt s'.parkedAt)
    (hv : ∀ x, (s.data x).nStatus.validity.level ≤ (s'.data x).nStatus.validity.level)
    (hc : ∀ c ∈ s'.setBlockIndexCandidates,
      c ∈ s.setBlockIndexCandidates ∨ (s.data c).haveNumChainTxs) : Edits env r s s' :=
  ⟨hb.known, hb.workLess env, hb.haveNumChainTxs, hf, hp, hv, hc⟩

theorem Edits.of_data (hd : s'.data = s.data) (hk : s'.known = s.known)
    (hc : ∀ c ∈ s'.setBlockIndexCandidates,
      c ∈ s.setBlockIndexCandidates ∨ (s.data c).haveNumChainTxs) :
    Edits env r s s' ∧ s'.failedAt = s.failedAt ∧ s'.parkedAt = s.parkedAt := by
  have hf : s'.failedAt = s.failedAt := by
    unfold failedAt
    rw [hd]
  have hp : s'.parkedAt = s.parkedAt := by
    unfold parkedAt
    rw [hd]
  refine ⟨⟨hk, fun x y => ?_, fun x => by rw [hd], hf ▸ .refl _, hp ▸ .refl _, fun x => by rw [hd],
    hc⟩, hf, hp⟩
  unfold workLess
  rw [hd]

theorem Selects.edits (h : Selects env s s') : Edits env r s s' where
  known := h.narrows.known
  work := h.narrows.workLess env
  num x := by simp only [BlockData.haveNumChainTxs, h.narrows.count]
  failed := h.flags.failedAt.rewrites
  parked := h.flags.parkedAt.rewrites
  validity := h.flags.validity
  cand c hc := .inl (h.narrows.candidates c hc)

theorem offerAll_edits {p : Chainstate → BlockPtr → Bool} {l : List BlockPtr} (ht : s.tip ≠ [])
    (hn : ∀ c ∈ l, ∀ s1, SameIndex s s1 → p s1 c → (s.data c).haveNumChainTxs) :
    Edits env r s (s.offerAll env p l) := by
  obtain ⟨hs, hc⟩ := offerAll_spec env p l ht
  have ho := offerAll_offers env p l s
  refine .of_bodies (.of_sameIndex hs) ho.flags.failedAt.rewrites ho.flags.parkedAt.rewrites
    ho.flags.validity fun c hcc => (hc c hcc).imp_right ?_
  rintro ⟨hcl, -, s1, hs1, hp⟩
  exact hn c hcl s1 hs1 hp

abbrev setFailure (s : Chainstate) (x : BlockPtr) (v c : BlockStatus → Bool) : Chainstate :=
  s.modifyStatus x fun st => { st with failedValid := v st, failedChild := c st }

variable {x : BlockPtr} (v c : BlockStatus → Bool)

theorem setFailure_failedAt (s : Chainstate) (x y : BlockPtr) : (s.setFailure x v c).failedAt y =
      if y = x then v (s.data y).nStatus || c (s.data y).nStatus else s.failedAt y := by
  unfold failedAt
  rw [modifyStatus_nStatus]
  split <;> rfl

theorem setFailure_parkedAt (s : Chainstate) (x : BlockPtr) :
    (s.setFailure x v c).parkedAt = s.parkedAt := by
  funext y
  unfold parkedAt
  rw [modifyStatus_nStatus]
  split <;> rfl

theorem setFailure_edits
    (hset : (v (s.data x).nStatus || c (s.data x).nStatus) → r <:+ x ∨ s.failedAt x)
    (hoff : s.failedAt x → (v (s.data x).nStatus || c (s.data x).nStatus) ∨
      r <:+ x ∨ x <:+ r) : Edits env r s (s.setFailure x v c) := by
  refine .of_bodies (.of_sameIndex (SameIndex.modify_failure s x v c)) ⟨?_, ?_⟩
    (setFailure_parkedAt v c s x ▸ .refl _) (fun y => ?_) fun _ hc => .inl hc
  · intro y h1 h2 hy
    rw [setFailure_failedAt]
    grind
  · intro y hy
    rw [setFailure_failedAt] at hy
    grind
  · rw [modifyStatus_nStatus]
    split <;> exact le_refl _

end

/-! ## The invariant -/

/-- `r` is the first block of a branch off the chain of `a`, and `b` is on it with more work; all
blocks connect. -/
structure Fork (env : Env) (r a b : BlockPtr) : Prop where
  branch : r <:+ b
  parent : r.tail <:+ a
  parent_ne : r.tail ≠ []
  off : ¬ r <:+ a
  work : nChainWork a < nChainWork b
  connects : Connectable env a
  connects' : Connectable env b

theorem Fork.ne_nil (h : Fork env r a b) : r ≠ [] := by
  rintro rfl
  exact h.off (nil_suffix)

theorem Fork.below (h : Fork env r a b) {x : BlockPtr} (hx : x <:+ r) (hne : ¬ r <:+ x) :
    x <:+ a := by
  refine (Branch.suffix_tail_of_ne hx ?_).trans h.parent
  rintro rfl
  exact hne (suffix_refl _)

theorem Fork.beside (h : Fork env r a b) {x : BlockPtr} (hx : x <:+ b) (hne : ¬ r <:+ x) :
    x <:+ a :=
  h.below ((Branch.suffix_total hx h.branch).resolve_right hne) hne

/-- What holds before and after every call: the chain of `a` is clean and best beside the branch,
`b` is best on it, a flag on the branch up to `b` is a flag of `r`, and `b` is a candidate or
flagged. -/
structure Rivals (env : Env) (r a b : BlockPtr) (s : Chainstate) : Prop where
  wf : Wf env s
  linked : ∀ c, (s.data c).haveNumChainTxs → s.Linked c
  cand_num : ∀ c ∈ s.setBlockIndexCandidates, (s.data c).haveNumChainTxs
  active_num : (s.data a).haveNumChainTxs
  active_valid : transactions.level ≤ (s.data a).nStatus.validity.level
  branch_num : (s.data b).haveNumChainTxs
  branch_valid : transactions.level ≤ (s.data b).nStatus.validity.level
  unfailed : ∀ x, x <:+ a → s.failedAt x = false
  unparked : ∀ x, x <:+ a → s.parkedAt x = false
  best_above : ∀ c ∈ s.known, (s.data c).haveNumChainTxs → r <:+ c →
    s.workLess env b c = false
  best_beside : ∀ c ∈ s.known, (s.data c).haveNumChainTxs → ¬ r <:+ c →
    s.workLess env a c → ∃ x, x ≠ [] ∧ x <:+ c ∧ (s.failedAt x ∨ s.parkedAt x)
  above_failed : ∀ x, r <:+ x → x <:+ b → s.failedAt x → s.failedAt r
  above_parked : ∀ x, r <:+ x → x <:+ b → s.parkedAt x → s.parkedAt r
  ready : b ∈ s.setBlockIndexCandidates ∨ s.failedAt b ∨ s.parkedAt b

def Clean (s : Chainstate) (r : BlockPtr) : Prop := s.failedAt r = false ∧ s.parkedAt r = false

section

variable {env : Env} {r a b : BlockPtr} {s s' : Chainstate}

theorem not_clean_iff : ¬ s.Clean r ↔ s.failedAt r ∨ s.parkedAt r := by
  unfold Clean
  rw [not_and_or, Bool.not_eq_false, Bool.not_eq_false]

variable {x c : BlockPtr}

theorem asymm_workLess {y : BlockPtr} (h : s.workLess env x y) : s.workLess env y x = false := by
  have := asymm_of (fun x y => s.workLess env x y) h
  simpa using this

theorem Rivals.known_of_num (h : Rivals env r a b s) (hne : c ≠ [])
    (hc : (s.data c).haveNumChainTxs) : c ∈ s.known :=
  h.wf.data_known c ((h.wf.linked c hc).self hne)

theorem Rivals.cand_known (h : Rivals env r a b s)
    (hc : c ∈ s.setBlockIndexCandidates) : c ∈ s.known :=
  h.known_of_num (h.wf.cand_rooted c hc).ne_nil (h.cand_num c hc)

theorem Fork.active_ne (h : Fork env r a b) : a ≠ [] := by
  rintro rfl
  exact h.parent_ne (suffix_nil.1 h.parent)

theorem Fork.workLess (h : Fork env r a b) (s : Chainstate) : s.workLess env a b :=
  workLess_iff.2 (.inl h.work)

variable (hk : Fork env r a b)
include hk

theorem Fork.spread {m m' : BlockPtr → Bool} (hs : Spread m m')
    (hclean : ∀ x, x <:+ a → m x = false)
    (habove : ∀ x, r <:+ x → x <:+ b → m x → m r) (hxb : x <:+ b) (hx : m' x) : m r := by
  obtain ⟨t, htx, ht⟩ := hs.source x hx
  by_cases hrt : r <:+ t
  · exact habove t hrt (htx.trans hxb) ht
  · simp [hclean t (hk.beside (htx.trans hxb) hrt)] at ht

section
variable (h : Rivals env r a b s)
include h

/-- **What the calls keep.** -/
theorem Rivals.edit (he : Edits env r s s')
    (hwf : Wf env s') (hf : ∀ x, r <:+ x → x <:+ b → s'.failedAt x → s'.failedAt r)
    (hp : ∀ x, r <:+ x → x <:+ b → s'.parkedAt x → s'.parkedAt r)
    (hready : b ∈ s'.setBlockIndexCandidates ∨ s'.failedAt b ∨ s'.parkedAt b) :
    Rivals env r a b s' where
  wf := hwf
  linked c hc x hx hxc := by
    rw [he.num] at hc ⊢
    exact h.linked c hc x hx hxc
  cand_num c hc := by
    rw [he.num]
    exact (he.cand c hc).elim (h.cand_num c) id
  active_num := (he.num a).trans h.active_num
  active_valid := h.active_valid.trans (he.validity a)
  branch_num := (he.num b).trans h.branch_num
  branch_valid := h.branch_valid.trans (he.validity b)
  unfailed := he.failed.clean hk.off h.unfailed
  unparked := he.parked.clean hk.off h.unparked
  best_above c hc hn hr := by
    rw [he.work]
    exact h.best_above c (he.known ▸ hc) ((he.num c).symm.trans hn) hr
  best_beside c hc hn hr hw := by
    rw [he.work] at hw
    obtain ⟨x, hx, hxc, hflag⟩ := h.best_beside c (he.known ▸ hc) ((he.num c).symm.trans hn) hr hw
    have h1 : ¬ r <:+ x := fun hrx => hr (hrx.trans hxc)
    -- a flagged block is not below `r`, where everything is clean
    have h2 : ¬ x <:+ r := by
      intro hxr
      rw [h.unfailed x (hk.below hxr h1), h.unparked x (hk.below hxr h1)] at hflag
      simp at hflag
    exact ⟨x, hx, hxc, hflag.imp (he.failed.off x h1 h2) (he.parked.off x h1 h2)⟩
  above_failed := hf
  above_parked := hp
  ready := hready

theorem Rivals.known_above (hrx : r <:+ x) (hxb : x <:+ b) : x ∈ s.known := by
  have hx : x ≠ [] := fun he => hk.ne_nil (suffix_nil.1 (he ▸ hrx))
  exact h.known_of_num hx (h.linked b h.branch_num x hx hxb)

theorem Rivals.spread_failed (hs : Spread s.failedAt s'.failedAt) (hxb : x <:+ b) :
    s'.failedAt x → s.failedAt r :=
  hk.spread hs h.unfailed h.above_failed hxb

theorem Rivals.spread_parked (hs : Spread s.parkedAt s'.parkedAt) (hxb : x <:+ b) :
    s'.parkedAt x → s.parkedAt r :=
  hk.spread hs h.unparked h.above_parked hxb

theorem Rivals.clear (hc : s.Clean r) (hx : x <:+ b) :
    s.failedAt x = false ∧ s.parkedAt x = false := by
  constructor
  · exact false_of (h.spread_failed hk (.refl _) hx) hc.1
  · exact false_of (h.spread_parked hk (.refl _) hx) hc.2

end

/-! ## Coming to rest -/

/-- After a call: the target of chain selection is `b` if `r` is clean, and `a` otherwise. -/
structure Pending (env : Env) (r a b : BlockPtr) (s : Chainstate) : Prop where
  rivals : Rivals env r a b s
  tip : s.tip <:+ a ∨ s.tip <:+ b
  active : ¬ s.Clean r → a ∈ s.setBlockIndexCandidates ∧ ¬ r <:+ s.tip

/-- Between the steps: `a` is active and a candidate, or `b` is active and `r` is clean. -/
structure AtRest (env : Env) (r a b : BlockPtr) (s : Chainstate) : Prop where
  rivals : Rivals env r a b s
  rest : s.tip = a ∧ a ∈ s.setBlockIndexCandidates ∨ s.tip = b ∧ s.Clean r

theorem Pending.off_tip (h : Pending env r a b s) (hr : ¬ r <:+ x)
    (hx : s.failedAt x ∨ s.parkedAt x) : ¬ x <:+ s.tip := by
  intro hxt
  have hxa : x <:+ a := h.tip.elim hxt.trans fun ht => hk.beside (hxt.trans ht) hr
  rw [h.rivals.unfailed x hxa, h.rivals.unparked x hxa] at hx
  simp at hx

theorem Pending.target_branch (h : Pending env r a b s) (hc : s.Clean r) : Target env s b where
  wf := h.rivals.wf
  mem := by
    obtain ⟨h1, h2⟩ := h.rivals.clear hk hc (suffix_refl b)
    rcases h.rivals.ready with hb | hb | hb
    · exact hb
    · simp [h1] at hb
    · simp [h2] at hb
  linked c hcc := h.rivals.linked c (h.rivals.cand_num c hcc)
  unfailed x hx := (h.rivals.clear hk hc hx).1
  unparked x hx := (h.rivals.clear hk hc hx).2
  better c hcc hlt := by
    have hkn := h.rivals.cand_known hcc
    have hnum := h.rivals.cand_num c hcc
    by_cases hr : r <:+ c
    · simp [h.rivals.best_above c hkn hnum hr] at hlt
    have hac := trans_of (fun x y => s.workLess env x y) (hk.workLess s) hlt
    obtain ⟨x, hx, hxc, hflag⟩ := h.rivals.best_beside c hkn hnum hr hac
    exact ⟨x, hx, hxc, h.off_tip hk (fun hrx => hr (hrx.trans hxc)) hflag, hflag⟩

theorem Pending.target_active (h : Pending env r a b s) (hc : ¬ s.Clean r) : Target env s a where
  wf := h.rivals.wf
  mem := (h.active hc).1
  linked c hcc := h.rivals.linked c (h.rivals.cand_num c hcc)
  unfailed := h.rivals.unfailed
  unparked := h.rivals.unparked
  better c hcc hlt := by
    by_cases hr : r <:+ c
    · exact ⟨r, hk.ne_nil, hr, (h.active hc).2, not_clean_iff.1 hc⟩
    obtain ⟨x, hx, hxc, hflag⟩ := h.rivals.best_beside c (h.rivals.cand_known hcc)
      (h.rivals.cand_num c hcc) hr hlt
    exact ⟨x, hx, hxc, h.off_tip hk (fun hrx => hr (hrx.trans hxc)) hflag, hflag⟩

theorem Rivals.select (h : Rivals env r a b s) (hs : Selects env s s') (hwf : Wf env s')
    (ht : s'.workLess env b s'.tip = false) : Rivals env r a b s' ∧ (s'.Clean r ↔ s.Clean r) := by
  have hf := hs.flags.failedAt
  have hp := hs.flags.parkedAt
  refine ⟨h.edit hk hs.edits hwf ?_ ?_ ?_, ?_⟩
  · exact fun x _ hxb hx => hf.mono r (h.spread_failed hk hf hxb hx)
  · exact fun x _ hxb hx => hp.mono r (h.spread_parked hk hp hxb hx)
  · rcases h.ready with hb | hb | hb
    · rcases hs.keeps b hb with hb | hb | hb | hb
      · exact .inl hb
      · exact .inr (.inl hb)
      · exact .inr (.inr hb)
      · simp [ht] at hb
    · exact .inr (.inl (hf.mono b hb))
    · exact .inr (.inr (hp.mono b hb))
  · rw [← not_iff_not, not_clean_iff, not_clean_iff]
    exact or_congr ⟨h.spread_failed hk hf hk.branch, hf.mono r⟩
      ⟨h.spread_parked hk hp hk.branch, hp.mono r⟩

/-- **`ActivateBestChain` after a call** returns, and comes to rest at the tip that `r` says. -/
theorem Pending.activate (h : Pending env r a b s) {fuel : Nat} (ha : a.length < fuel)
    (hb : b.length < fuel) :
    ∃ s', activateBestChain env fuel s = some s' ∧ AtRest env r a b s' ∧
      (s'.Clean r → s'.tip = b) ∧ (¬ s'.Clean r → s'.tip = a) := by
  have htip : Connectable env s.tip := h.tip.elim hk.connects.suffix hk.connects'.suffix
  by_cases hc : s.Clean r
  · obtain ⟨s', h1, hwf, hs, -, ht⟩ :=
      activateBestChain_reaches (h.target_branch hk hc) hk.connects' htip hb
    obtain ⟨hr, hcl⟩ := h.rivals.select hk hs hwf (ht ▸ workLess_irrefl s' env b)
    exact ⟨s', h1, ⟨hr, .inr ⟨ht, hcl.2 hc⟩⟩, fun _ => ht, fun hn => absurd (hcl.2 hc) hn⟩
  obtain ⟨s', h1, hwf, hs, hm, ht⟩ :=
    activateBestChain_reaches (h.target_active hk hc) hk.connects htip ha
  have hab : s'.workLess env b s'.tip = false := by
    rw [ht]
    exact asymm_workLess (hk.workLess s')
  obtain ⟨hr, hcl⟩ := h.rivals.select hk hs hwf hab
  exact ⟨s', h1, ⟨hr, .inl ⟨ht, hm⟩⟩, fun hn => absurd (hcl.1 hn) hc, fun _ => ht⟩

end

/-! ## Parking and unparking -/

section

variable {env : Env} {r a b : BlockPtr} {s : Chainstate}

variable {s' s'' : Chainstate} {x : BlockPtr} {l : List BlockPtr}

theorem Rivals.pending_active (h : Rivals env r a b s') (hk : Fork env r a b) (ht : s'.tip = a)
    (hm : a ∈ s'.setBlockIndexCandidates) : Pending env r a b s' :=
  ⟨h, .inl (ht ▸ suffix_refl _), fun _ => ⟨hm, ht ▸ hk.off⟩⟩

theorem contains_iff : s.contains x ↔ x ≠ [] ∧ x <:+ s.tip :=
  chainContains_iff

/-- **`ParkBlock(r)`** while `r` is not active. -/
theorem park_pending (h : AtRest env r a b s) (hk : Fork env r a b) (hr : ¬ r <:+ s.tip) :
    Pending env r a b (s.parkBlock r).1 := by
  obtain ⟨ht, ha⟩ := h.rest.resolve_right fun ht => hr (ht.1 ▸ hk.branch)
  have hwf := h.rivals.wf.parkBlock r
  have hsame := (s.parkBlock_spec r).1
  have he : (s.parkBlock r).1 =
      (s.modifyStatus r fun st => { st with parked := true }).eraseCandidate r := by
    unfold parkBlock
    rw [if_neg fun hc => hr (contains_iff.1 hc).2]
  generalize (s.parkBlock r).1 = s' at hwf hsame he ⊢
  have hst : ∀ x, (s'.data x).nStatus = if x = r then
      { (s.data x).nStatus with parked := true } else (s.data x).nStatus := by
    intro x
    rw [he]
    exact s.modifyStatus_nStatus r (fun st => { st with parked := true }) x
  have hf : s'.failedAt = s.failedAt := by
    funext x
    unfold failedAt
    rw [hst]
    split <;> rfl
  have hp : ∀ x, s'.parkedAt x ↔ x = r ∨ s.parkedAt x := by
    intro x
    unfold parkedAt
    rw [hst]
    split
    · next hx => simp [hx, parkedMask]
    · next hx => simp [hx]
  have hc : ∀ c, c ∈ s'.setBlockIndexCandidates ↔ c ∈ s.setBlockIndexCandidates ∧ c ≠ r := by
    intro c
    rw [he]
    exact mem_eraseCandidate _ r
  have hed : Edits env r s s' := by
    refine .of_bodies (.of_sameIndex hsame) (hf ▸ .refl _) ⟨?_, ?_⟩ (fun x => ?_)
      fun c hcc => .inl ((hc c).1 hcc).1
    · exact fun x _ _ hx => (hp x).2 (.inr hx)
    · grind
    · rw [hst]
      split <;> exact le_refl _
  refine (h.rivals.edit hk hed hwf ?_ ?_ ?_).pending_active hk (hsame.tip.trans ht)
    ((hc a).2 ⟨ha, ?_⟩)
  · rw [hf]
    exact h.rivals.above_failed
  · exact fun _ _ _ _ => (hp r).2 (.inl rfl)
  · by_cases hb : b = r
    · exact .inr (.inr ((hp b).2 (.inl hb)))
    · rw [hf, hc, hp]
      exact h.rivals.ready.imp (fun h => ⟨h, hb⟩) fun h => h.imp_right .inr
  · rintro rfl
    exact hk.off (suffix_refl _)

theorem clearParked_parkedAt (l : List BlockPtr) (s : Chainstate) (x : BlockPtr) :
    (s.clearParked l).parkedAt x ↔ x ∉ l ∧ s.parkedAt x := by
  unfold parkedAt clearParked
  simp only
  split
  · next hx => simp [hx, parkedMask]
  · next hx => simp [hx]

theorem clearParked_failedAt (l : List BlockPtr) (s : Chainstate) :
    (s.clearParked l).failedAt = s.failedAt := by
  funext x
  unfold failedAt clearParked
  simp only
  split <;> rfl

theorem clearParked_edits (hl : ∀ x ∈ l, r <:+ x ∨ x <:+ r) : Edits env r s (s.clearParked l) := by
  refine .of_bodies (.clearParked l s) (clearParked_failedAt l s ▸ .refl _) ⟨?_, ?_⟩ (fun x => ?_)
    fun c hc => .inl hc
  · intro x h1 h2 hx
    exact (clearParked_parkedAt l s x).2 ⟨fun hxl => (hl x hxl).elim h1 h2, hx⟩
  · exact fun x hx => .inr ⟨x, suffix_refl x, ((clearParked_parkedAt l s x).1 hx).2⟩
  · simp only [clearParked]
    split <;> exact le_refl _

theorem mem_parkedDescendants (hr : r ≠ []) :
    x ∈ s.parkedDescendants r ↔ x ∈ s.known ∧ r <:+ x ∧ s.parkedAt x := by
  unfold parkedDescendants
  rw [mem_filter, Bool.and_eq_true, decide_eq_true_eq]
  refine and_congr_right fun _ => and_congr_left fun _ => ?_
  exact ⟨fun h => h ▸ getAncestor_suffix _ _, fun h => getAncestor_of_suffix h hr⟩

theorem Rivals.cleared (h : Rivals env r a b s) (hk : Fork env r a b) :
    Edits env r s (s.cleared r) ∧ (s.cleared r).failedAt = s.failedAt ∧
      ∀ x, x <:+ b → (s.cleared r).parkedAt x = false := by
  refine ⟨(clearParked_edits fun x hx => ?_).trans (clearParked_edits fun x hx => ?_), ?_, ?_⟩
  · exact .inl ((mem_parkedDescendants hk.ne_nil).1 hx).2.1
  · exact .inr (mem_parkedAncestors.1 hx).2.1
  · rw [Chainstate.cleared, clearParked_failedAt, clearParked_failedAt]
  · intro x hxb
    by_contra hn
    rw [Chainstate.cleared, Bool.not_eq_false, clearParked_parkedAt, clearParked_parkedAt] at hn
    obtain ⟨-, hnd, hp⟩ := hn
    by_cases hrx : r <:+ x
    · exact hnd ((mem_parkedDescendants hk.ne_nil).2 ⟨h.known_above hk hrx hxb, hrx, hp⟩)
    · simp [h.unparked x (hk.beside hxb hrx)] at hp

/-- **`UnparkBlock(r)`.** -/
theorem unpark_pending (h : AtRest env r a b s) (hk : Fork env r a b) :
    Pending env r a b (s.unparkBlock env r) := by
  obtain ⟨hwf, -, htip⟩ := h.rivals.wf.unparkBlock r
  obtain ⟨hed, hf, hp⟩ := h.rivals.cleared hk
  have hne : (s.cleared r).tip ≠ [] := h.rivals.wf.tip_rooted.ne_nil
  have hoff : Edits env r (s.cleared r) (s.unparkBlock env r) :=
    offerAll_edits hne fun c _ s1 hs1 hc =>
      ((SameBodies.of_sameIndex hs1).haveNumChainTxs c).symm.trans hc
  have ho : Offers (s.cleared r) (s.unparkBlock env r) := offerAll_offers env _ _ _
  have hparked : s.parkedAt b → (s.unparkBlock env r).Offered b := by
    intro hb
    have hkn := h.rivals.known_above hk hk.branch (suffix_refl b)
    refine offerAll_mem (s := s.cleared r) hne (mem_append_left _
      ((mem_parkedDescendants hk.ne_nil).2 ⟨hkn, hk.branch, hb⟩)) ?_ ?_
    · intro s1 hs1 _ _
      rw [(SameBodies.of_sameIndex hs1).haveNumChainTxs, hed.num]
      exact h.rivals.branch_num
    · rw [hed.work]
      show s.workLess env b s.tip = false
      rcases h.rest with ⟨ht, -⟩ | ⟨ht, -⟩
      · rw [ht]
        exact asymm_workLess (hk.workLess s)
      · rw [ht]
        exact workLess_irrefl s env b
  generalize s.unparkBlock env r = s' at hwf htip hoff ho hparked ⊢
  have hf' : s'.failedAt = s.failedAt := by
    rw [← hf]
    exact ho.failures.failedAt
  -- the offers park nothing up to `b`, since nothing below is parked
  have hp' := ho.flags.parkedAt.clean hp
  have keep : ∀ c ∈ s.setBlockIndexCandidates, s'.parkedAt c = false →
      c ∈ s'.setBlockIndexCandidates := by
    intro c hc hpc
    refine (ho.keeps c hc).resolve_right fun hn => ?_
    simp [parkedAt, hn] at hpc
  have hriv : Rivals env r a b s' := by
    refine h.rivals.edit hk (hed.trans hoff) hwf ?_ ?_ ?_
    · rw [hf']
      exact h.rivals.above_failed
    · intro x _ hxb hx
      simp [hp' x hxb] at hx
    · rcases h.rivals.ready with hb | hb | hb
      · exact .inl (keep b hb (hp' b (suffix_refl b)))
      · exact .inr (.inl (hf' ▸ hb))
      · exact (hparked hb).imp_right .inr
  rcases h.rest with ⟨ht, ha⟩ | ⟨ht, hc⟩
  · exact hriv.pending_active hk (htip.trans ht) (keep a ha (hriv.unparked a (suffix_refl a)))
  refine ⟨hriv, .inr (htip.trans ht ▸ suffix_refl _), fun hn => absurd ⟨?_, ?_⟩ hn⟩
  · rw [hf']
    exact hc.1
  · exact hp' r hk.branch

/-! ## Reconsidering -/

/-- What the first pass of `ResetBlockFailureFlags(r)` does: failure flags only go, and an
unparked candidate stays. -/
structure Resets (env : Env) (r : BlockPtr) (s s' : Chainstate) : Prop where
  edits : Edits env r s s'
  failed : ∀ x, s'.failedAt x → s.failedAt x
  parked : Spread s.parkedAt s'.parkedAt
  keeps : ∀ c ∈ s.setBlockIndexCandidates, s'.Offered c
  tip : s'.tip = s.tip

/-- The block is a candidate once it is clean. -/
def Due (env : Env) (s : Chainstate) (x : BlockPtr) : Prop :=
  (s.data x).haveNumChainTxs ∧ transactions.level ≤ (s.data x).nStatus.validity.level ∧
    s.workLess env s.tip x

theorem Resets.due (h : Resets env r s s') (hx : Due env s x) : Due env s' x := by
  refine ⟨(h.edits.num x).trans hx.1, hx.2.1.trans (h.edits.validity x), ?_⟩
  rw [h.edits.work, h.tip]
  exact hx.2.2

theorem Resets.refl (env : Env) (r : BlockPtr) (s : Chainstate) : Resets env r s s :=
  ⟨.refl env r s, fun _ h => h, .refl _, fun _ h => .inl h, rfl⟩

theorem Resets.trans (h : Resets env r s s') (h' : Resets env r s' s'') : Resets env r s s'' := by
  refine ⟨h.edits.trans h'.edits, fun x hx => h.failed x (h'.failed x hx),
    h.parked.trans h'.parked, fun c hc => ?_, h'.tip.trans h.tip⟩
  rcases h.keeps c hc with hc | hc
  · exact h'.keeps c hc
  · exact .inr (h'.parked.mono c hc)

theorem Resets.setFailure (v c : BlockStatus → Bool)
    (hset : (v (s.data x).nStatus || c (s.data x).nStatus) → s.failedAt x)
    (hoff : s.failedAt x → (v (s.data x).nStatus || c (s.data x).nStatus) ∨
      r <:+ x ∨ x <:+ r) : Resets env r s (s.setFailure x v c) := by
  refine ⟨setFailure_edits v c (fun h => .inr (hset h)) hoff, fun y hy => ?_,
    setFailure_parkedAt v c s x ▸ .refl _, fun _ h => .inl h, rfl⟩
  rw [setFailure_failedAt] at hy
  split at hy
  · next he =>
    rw [he] at hy ⊢
    exact hset hy
  · exact hy

theorem Resets.withFailed (env : Env) (r : BlockPtr) (s : Chainstate) (l : List BlockPtr) :
    Resets env r s { s with failedBlocks := l } :=
  ⟨And.left (Edits.of_data rfl rfl fun _ h => .inl h), fun _ h => h, .refl _, fun _ h => .inl h,
    rfl⟩

theorem Resets.offer (ht : s.tip ≠ []) (hn : (s.data x).haveNumChainTxs) :
    Resets env r s (s.tryAddBlockIndexCandidate env x) := by
  obtain ⟨hs, hc⟩ := tryAddBlockIndexCandidate_spec env x ht
  have ho := (tryAddBlockIndexCandidate_offers env s x).1
  refine ⟨.of_bodies (.of_sameIndex hs) ho.flags.failedAt.rewrites ho.flags.parkedAt.rewrites
    ho.flags.validity fun c hcc => ?_, fun y hy => ?_, ho.flags.parkedAt, ho.keeps, hs.tip⟩
  · grind
  · rw [ho.failures.failedAt] at hy
    exact hy

theorem reconsider_resets (env : Env) (ht : s.tip ≠ []) (hon : r <:+ x ∨ x <:+ r) :
    Resets env r s (s.reconsider env x) ∧
      (∀ y, (s.reconsider env x).failedAt y = if y = x then false else s.failedAt y) ∧
      (Due env s x → (s.reconsider env x).Offered x) := by
  have h1 : Resets env r s (s.setFailure x (fun _ => false) fun _ => false) :=
    .setFailure _ _ (by simp) fun _ => .inr hon
  have hf := setFailure_failedAt (fun _ => false) (fun _ => false) s x
  have h3 := fun s1 => Resets.withFailed env r s1 (s1.failedBlocks.filter (· ≠ x))
  generalize hs1 : s.setFailure x (fun _ => false) (fun _ => false) = s1 at h1 hf
  have he : s.reconsider env x = (if s1.hasValidTransactions x && s1.workLess env s1.tip x then
      s1.tryAddBlockIndexCandidate env x else s1).eraseFailed x := by
    rw [← hs1]
    rfl
  rw [he]
  split
  · next hp =>
    have h2 : Resets env r s1 (s1.tryAddBlockIndexCandidate env x) :=
      .offer (h1.tip ▸ ht) (hasValidTransactions_linked (Bool.and_eq_true_iff.1 hp).1)
    obtain ⟨ho, hin⟩ := tryAddBlockIndexCandidate_offers env s1 x
    refine ⟨(h1.trans h2).trans (h3 _), fun y => ?_, fun _ => ?_⟩
    · exact (congrFun ho.failures.failedAt y).trans (hf y)
    · exact hin (asymm_workLess (Bool.and_eq_true_iff.1 hp).2)
  · next hp =>
    refine ⟨h1.trans (h3 _), fun y => hf y, fun hx => absurd ?_ hp⟩
    have hfx : (s1.data x).nStatus.failedMask = false := (hf x).trans (if_pos rfl)
    obtain ⟨hn, hv, hw⟩ := h1.due hx
    refine Bool.and_eq_true_iff.2 ⟨?_, hw⟩
    unfold hasValidTransactions isValid
    rw [hn, hfx]
    simpa using hv

section

variable (env : Env) (recheck : Option (BlockPtr → Bool))

/-- One entry of the first pass: it touches the failure flags of its own block only, and clears
and offers it if it is on the branch and passes its checks. -/
theorem resetEntry_resets (hr : r ≠ []) (hx : x ≠ []) (ht : s.tip ≠ []) :
    Resets env r s (s.resetEntry env recheck r x) ∧
      (∀ y ≠ x, (s.resetEntry env recheck r x).failedAt y = s.failedAt y) ∧
      (r <:+ x → (recheck.any fun ok => !ok x) = false →
        (s.resetEntry env recheck r x).failedAt x = false ∧
        (s.failedAt x → Due env s x → (s.resetEntry env recheck r x).Offered x)) := by
  unfold resetEntry
  simp only
  split
  · next hf =>
    have hon := (onBranch_iff hr hx).1 (Bool.and_eq_true_iff.1 hf).2
    split
    · next hno =>
      refine ⟨.refl env r s, fun _ _ => rfl, fun _ hok => ?_⟩
      simp [hok] at hno
    obtain ⟨h1, h2, h3⟩ := reconsider_resets env ht hon.symm
    grind
  · next hf =>
    -- a block above `r` that is not taken here has not failed
    have hclean : r <:+ x → s.failedAt x = false := by
      intro hrx
      by_contra hn
      rw [Bool.not_eq_false] at hn
      exact hf (Bool.and_eq_true_iff.2 ⟨hn, (onBranch_iff hr hx).2 (.inr hrx)⟩)
    split
    · next hs =>
      have hfx : s.failedAt x := by
        simp only [Bool.and_eq_true] at hs
        simp [failedAt, failedMask, hs.1.1]
      have h1 : Resets env r s (s.setFailure x (fun _ => true) fun _ => false) :=
        .setFailure _ _ (fun _ => hfx) fun _ => .inl rfl
      refine ⟨h1.trans (.withFailed env r _ _), fun y hy => ?_, fun hrx => ?_⟩
      · exact (setFailure_failedAt (fun _ => true) (fun _ => false) s x y).trans (if_neg hy)
      · simp [hclean hrx] at hfx
    · refine ⟨.refl env r s, fun _ _ => rfl, fun hrx _ => ⟨hclean hrx, fun hfx => ?_⟩⟩
      simp [hclean hrx] at hfx

theorem foldl_resetEntry_resets (hr : r ≠ []) (hl : ∀ x ∈ l, x ≠ []) (ht : s.tip ≠ []) :
    Resets env r s (l.foldl (resetEntry env recheck r) s) := by
  refine foldlRecOn (motive := Resets env r s) l _ (.refl env r s) fun s' h x hx => ?_
  exact h.trans (resetEntry_resets env recheck hr (hl x hx) (h.tip ▸ ht)).1

theorem foldl_resetEntry_cleared (hr : r ≠ [])
    (hl : ∀ y ∈ l, y ≠ []) (ht : s.tip ≠ []) (hx : x ∈ l) (hon : r <:+ x)
    (hok : (recheck.any fun ok => !ok x) = false) :
    (l.foldl (resetEntry env recheck r) s).failedAt x = false ∧
      (s.failedAt x → Due env s x → (l.foldl (resetEntry env recheck r) s).Offered x) := by
  induction l generalizing s with
  | nil => cases hx
  | cons y l ih =>
    have hl' : ∀ z ∈ l, z ≠ [] := fun z hz => hl z (mem_cons_of_mem y hz)
    obtain ⟨h1, h2, h3⟩ :=
      resetEntry_resets env recheck hr (hl y mem_cons_self) ht
    by_cases he : x = y
    · -- its turn; the rest of the pass undoes nothing
      subst he
      have h4 := foldl_resetEntry_resets env recheck hr hl' (h1.tip ▸ ht)
      obtain ⟨h5, h6⟩ := h3 hon hok
      refine ⟨false_of (h4.failed x) h5, fun hf hd => ?_⟩
      rcases h6 hf hd with hin | hin
      · exact h4.keeps x hin
      · exact .inr (h4.parked.mono x hin)
    · obtain ⟨h4, h5⟩ := ih hl' (h1.tip ▸ ht) ((mem_cons.1 hx).resolve_left he)
      refine ⟨h4, fun hf hd => h5 ?_ (h1.due hd)⟩
      rw [h2 x he]
      exact hf

end

/-- What the second pass on signet does to entries above `r`: it fails only blocks above failed
ones. -/
structure Retains (env : Env) (r b : BlockPtr) (s s' : Chainstate) : Prop where
  edits : Edits env r s s'
  mono : ∀ x, s.failedAt x → s'.failedAt x
  clear : (∀ x, x <:+ b → s.failedAt x = false) → ∀ x, x <:+ b → s'.failedAt x = false
  parked : s'.parkedAt = s.parkedAt
  keeps : ∀ c ∈ s.setBlockIndexCandidates,
    c ∈ s'.setBlockIndexCandidates ∨ s'.failedAt c

theorem Retains.refl (env : Env) (r b : BlockPtr) (s : Chainstate) : Retains env r b s s :=
  ⟨.refl env r s, fun _ h => h, id, rfl, fun _ h => .inl h⟩

theorem Retains.trans (h : Retains env r b s s') (h' : Retains env r b s' s'') :
    Retains env r b s s'' := by
  refine ⟨h.edits.trans h'.edits, fun x hx => h'.mono x (h.mono x hx),
    fun hc => h'.clear (h.clear hc), h'.parked.trans h.parked, fun c hc => ?_⟩
  rcases h.keeps c hc with hc | hc
  · exact h'.keeps c hc
  · exact .inr (h'.mono c hc)

theorem retainFailure_retains (env : Env) (b : BlockPtr) (hx : r <:+ x) :
    Retains env r b s (s.retainFailure x) := by
  unfold retainFailure
  split
  · next hcond =>
    have hpar : s.failedAt x.tail := (Bool.and_eq_true_iff.1 hcond).2
    let s1 := s.setFailure x (·.failedValid) fun _ => true
    have hf : ∀ y, s1.failedAt y = if y = x then true else s.failedAt y := by
      intro y
      rw [setFailure_failedAt, Bool.or_true]
    have h1 : Edits env r s s1 :=
      setFailure_edits _ _ (fun _ => .inl hx) fun _ => .inl (Bool.or_true _)
    have h2 : Edits env r s1 (s1.eraseCandidate x) :=
      .of_bodies ⟨rfl, rfl, fun _ => rfl, fun _ => rfl, fun _ => rfl⟩ (.refl _) (.refl _)
        (fun _ => le_refl _) fun c hc => .inl ((mem_eraseCandidate _ x).1 hc).1
    refine ⟨h1.trans h2, fun y hy => ?_, fun hc y hy => ?_,
      setFailure_parkedAt (·.failedValid) (fun _ => true) s x, fun c hc => ?_⟩
    · refine (hf y).trans ?_
      rw [hy, ite_self]
    · refine (hf y).trans ?_
      rw [if_neg, hc y hy]
      rintro rfl
      simp [hc _ ((tail_suffix y).trans hy)] at hpar
    · by_cases he : c = x
      · exact .inr ((hf c).trans (if_pos he))
      · exact .inl ((mem_eraseCandidate _ x).2 ⟨hc, he⟩)
  · exact .refl env r b s

theorem Rivals.reset (h : Rivals env r a b s) (hk : Fork env r a b)
    (recheck : Option (BlockPtr → Bool)) :
    ∃ s1, s1 = s.known.foldl (resetEntry env recheck r) s ∧ Resets env r s s1 ∧
      Retains env r b s1 (s.resetBlockFailureFlags env recheck r) := by
  refine ⟨_, rfl, foldl_resetEntry_resets env recheck hk.ne_nil
    (fun x hx => (h.wf.known_rooted x hx).ne_nil) h.wf.tip_rooted.ne_nil, ?_⟩
  cases recheck with
  | none => exact .refl env r b _
  | some ok =>
    refine foldlRecOn (motive := Retains env r b _) _ _ (.refl env r b _) fun _ h1 x hx =>
      h1.trans (retainFailure_retains env b ?_)
    obtain ⟨hxk, hp⟩ := mem_filter.1 ((mem_insertionSort _).1 hx)
    simp only [Bool.and_eq_true] at hp
    have hon := (onBranch_iff hk.ne_nil (h.wf.known_rooted x hxk).ne_nil).1 hp.1.2
    -- what is below `r` has not failed
    by_contra hrx
    have hf := h.unfailed x (hk.below (hon.resolve_right hrx) hrx)
    simp [failedAt, hp.1.1] at hf

/-- **`ResetBlockFailureFlags(r)`**, where on signet the blocks up to `b` pass their checks. -/
theorem reset_pending (h : AtRest env r a b s) (hk : Fork env r a b)
    {recheck : Option (BlockPtr → Bool)}
    (hok : ∀ x, x <:+ b → (recheck.any fun ok => !ok x) = false) :
    Pending env r a b (s.resetBlockFailureFlags env recheck r) := by
  obtain ⟨hwf, hs⟩ := h.rivals.wf.resetBlockFailureFlags recheck r
  obtain ⟨s1, hs1, h1, h2⟩ := h.rivals.reset hk recheck
  have hed := h1.edits.trans h2.edits
  have hl : ∀ x ∈ s.known, x ≠ [] := fun x hx => (h.rivals.wf.known_rooted x hx).ne_nil
  have htip := h.rivals.wf.tip_rooted.ne_nil
  -- nothing up to `b` is failed any more
  have hf1 : ∀ x, x <:+ b → s1.failedAt x = false := by
    intro x hxb
    by_cases hrx : r <:+ x
    · have hkn := h.rivals.known_above hk hrx hxb
      rw [hs1]
      exact (foldl_resetEntry_cleared env recheck hk.ne_nil hl htip hkn hrx (hok x hxb)).1
    exact false_of (h1.failed x) (h.rivals.unfailed x (hk.beside hxb hrx))
  have hf := h2.clear hf1
  generalize s.resetBlockFailureFlags env recheck r = s' at hwf hs h2 hed hf ⊢
  have hp : Spread s.parkedAt s'.parkedAt := h2.parked ▸ h1.parked
  have hready1 : s1.Offered b := by
    rcases h.rivals.ready with hb | hb | hb
    · exact h1.keeps b hb
    · rcases h.rest with ⟨ht, -⟩ | ⟨-, hc⟩
      · rw [hs1]
        refine (foldl_resetEntry_cleared env recheck hk.ne_nil hl htip
          (h.rivals.known_above hk hk.branch (suffix_refl b)) hk.branch
          (hok b (suffix_refl b))).2 hb ⟨h.rivals.branch_num, h.rivals.branch_valid, ?_⟩
        rw [ht]
        exact hk.workLess s
      · simp [(h.rivals.clear hk hc (suffix_refl b)).1] at hb
    · exact .inr (h1.parked.mono b hb)
  have keep : ∀ c, c ∈ s1.setBlockIndexCandidates → s'.failedAt c = false →
      c ∈ s'.setBlockIndexCandidates := by
    intro c hc hfc
    refine (h2.keeps c hc).resolve_right fun hn => ?_
    simp [hn] at hfc
  have hriv : Rivals env r a b s' := by
    refine h.rivals.edit hk hed hwf ?_ ?_ ?_
    · intro x _ hxb hx
      simp [hf x hxb] at hx
    · exact fun x _ hxb hx => hp.mono r (h.rivals.spread_parked hk hp hxb hx)
    · refine hready1.imp (fun hb => keep b hb (hf b (suffix_refl b))) fun hb => .inr ?_
      rw [h2.parked]
      exact hb
  rcases h.rest with ⟨ht, ha⟩ | ⟨ht, hc⟩
  · refine hriv.pending_active hk (hs.tip.trans ht) (keep a ?_ (hriv.unfailed a (suffix_refl a)))
    refine (h1.keeps a ha).resolve_right fun hn => ?_
    simp [h1.parked.clean h.rivals.unparked a (suffix_refl a)] at hn
  refine ⟨hriv, .inr (hs.tip.trans ht ▸ suffix_refl _), fun hn => absurd ⟨?_, ?_⟩ hn⟩
  · exact hf r hk.branch
  · exact false_of (h.rivals.spread_parked hk hp hk.branch) hc.2

/-! ## Invalidating -/

/-- What `InvalidateBlock(r)` does to the flags: failures come in above `r`, parked flags
spread. -/
structure Fails (env : Env) (r : BlockPtr) (s s' : Chainstate) : Prop where
  edits : Edits env r s s'
  mono : ∀ x, s.failedAt x → s'.failedAt x
  parked : Spread s.parkedAt s'.parkedAt

theorem Fails.refl (env : Env) (r : BlockPtr) (s : Chainstate) : Fails env r s s :=
  ⟨.refl env r s, fun _ h => h, .refl _⟩

theorem Fails.trans (h : Fails env r s s') (h' : Fails env r s' s'') : Fails env r s s'' :=
  ⟨h.edits.trans h'.edits, fun x hx => h'.mono x (h.mono x hx), h.parked.trans h'.parked⟩

theorem Fails.setFailure (v c : BlockStatus → Bool)
    (hv : (v (s.data x).nStatus || c (s.data x).nStatus))
    (hx : r <:+ x ∨ s.failedAt x) : Fails env r s (s.setFailure x v c) := by
  refine ⟨setFailure_edits v c (fun _ => hx) fun _ => .inl hv, fun y hy => ?_,
    setFailure_parkedAt v c s x ▸ .refl _⟩
  rw [setFailure_failedAt]
  split
  · next he =>
    rw [he]
    exact hv
  · exact hy

theorem Fails.of_data (hd : s'.data = s.data) (hk : s'.known = s.known)
    (hc : ∀ c ∈ s'.setBlockIndexCandidates,
      c ∈ s.setBlockIndexCandidates ∨ (s.data c).haveNumChainTxs) : Fails env r s s' := by
  obtain ⟨he, hf, hp⟩ : Edits env r s s' ∧ _ := Edits.of_data hd hk hc
  exact ⟨he, fun x h => hf ▸ h, hp ▸ .refl _⟩

theorem Fails.offerAll {p : Chainstate → BlockPtr → Bool} (ht : s.tip ≠ [])
    (hn : ∀ c ∈ l, ∀ s1, SameIndex s s1 → p s1 c → (s.data c).haveNumChainTxs) :
    Fails env r s (s.offerAll env p l) := by
  have ho := offerAll_offers env p l s
  refine ⟨offerAll_edits ht hn, fun x hx => ?_, ho.flags.parkedAt⟩
  rw [ho.failures.failedAt]
  exact hx

theorem setBlockFailureFlags_fails (env : Env) (hr : r ≠ []) (s : Chainstate) :
    Fails env r s (s.setBlockFailureFlags r) := by
  have hst := s.setBlockFailureFlags_nStatus r
  have hp : (s.setBlockFailureFlags r).parkedAt = s.parkedAt := by
    funext x
    unfold parkedAt
    rw [hst]
    split <;> rfl
  have hmono : ∀ x, s.failedAt x → (s.setBlockFailureFlags r).failedAt x := by
    intro x hx
    unfold failedAt
    rw [hst]
    split
    · simp [failedMask]
    · exact hx
  refine ⟨.of_bodies (.setBlockFailureFlags s r) ⟨fun x _ _ => hmono x, fun x hx => ?_⟩
    (hp ▸ .refl _) (fun x => ?_) fun c hc => .inl hc, hmono, hp ▸ .refl _⟩
  · unfold failedAt at hx
    rw [hst] at hx
    split at hx
    · next hd => exact .inl ((isDescendant_iff hr).1 hd).2.2
    · exact .inr ⟨x, suffix_refl x, hx⟩
  · rw [hst]
    split <;> exact le_refl _

theorem markDisconnected_fails (env : Env) {w t : BlockPtr} (hw : r <:+ w)
    (hn : (s.data w.tail).haveNumChainTxs) :
    Fails env r s (s.markDisconnected w t) ∧ (s.markDisconnected w t).failedAt w := by
  let s1 := s.setFailure w (fun _ => true) (·.failedChild)
  have h1 : Fails env r s s1 := .setFailure _ _ (Bool.true_or _) (.inl hw)
  have h2 : Fails env r s1 ((s1.eraseCandidate w).insertCandidate w.tail) := by
    refine .of_data (insertCandidate_data _ _) (SameIndex.insertCandidate _ _).known fun c hc => ?_
    rcases (mem_insertCandidate _ _).1 hc with rfl | hc
    · exact .inr ((h1.edits.num _).trans hn)
    · exact .inl ((mem_eraseCandidate _ _).1 hc).1
  have hf : s1.failedAt w := by
    rw [setFailure_failedAt, if_pos rfl]
    rfl
  have h12 := h1.trans h2
  unfold markDisconnected
  simp only
  split
  · next hcond =>
    have h3 : ∀ s1, (s1.data t).nStatus.failedValid →
        Fails env r s1 (s1.setFailure t (fun _ => false) fun _ => true) := fun s1 h =>
      .setFailure _ _ rfl (.inr (by simp [failedAt, failedMask, h]))
    exact ⟨h12.trans (h3 _ hcond.2), (h3 _ hcond.2).mono w (h2.mono w hf)⟩
  · exact ⟨h12, h2.mono w hf⟩

/-- `InvalidateBlock(r)` between two rounds of its loop, started in `s` with `b` active. -/
structure Disconnecting (env : Env) (r b : BlockPtr) (s : Chainstate) (l : Invalidation) : Prop where
  wf : Wf env l.chain
  listed : l.Linked
  fails : Fails env r s l.chain
  tip : l.chain.tip <:+ b
  fork : r.tail <:+ l.chain.tip
  start : l.pindexWasInChain = false → l.chain.tip = b
  marked : l.pindexWasInChain → l.toMarkFailed <:+ b ∧ l.toMarkFailed ≠ [] ∧
    l.toMarkFailed.tail = l.chain.tip ∧ l.chain.failedAt l.toMarkFailed ∧
    l.chain.failedAt b

theorem disconnectTip_some {x y : CBlockHeader} {c : BlockPtr} (ht : s.tip = x :: y :: c)
    (hd : ∀ n, env.disconnectBlock n s.tip) : ∃ s', s.disconnectTip env = some s' := by
  unfold disconnectTip
  rw [ht]
  simp only
  rw [← ht, hd, if_pos rfl]
  exact ⟨_, rfl⟩

variable {l : Invalidation}

theorem Disconnecting.round {s1 : Chainstate} (h : Disconnecting env r b s l)
    (hl : s.Linked b) (hr : r <:+ l.chain.tip)
    (hd : l.chain.disconnectTip env = some s1) : Disconnecting env r b s (l.round env s1) := by
  obtain ⟨hwf, hlink, htip, -⟩ := h.wf.round h.listed hd
  obtain ⟨hb, ht, htne, hc, hdata, -⟩ := disconnectTip_bodies hd
  have htne' : l.chain.tip.tail ≠ [] := ht ▸ htne
  have h0 : Fails env r l.chain s1 := .of_data hdata hb.known fun c hcc => .inl (hc ▸ hcc)
  have hnum : (s1.data l.chain.tip.tail).haveNumChainTxs := by
    rw [h0.edits.num, h.fails.edits.num]
    exact hl _ htne' ((tail_suffix _).trans h.tip)
  obtain ⟨h1, hf⟩ := markDisconnected_fails env hr hnum
  have h2 : Fails env r (s1.markDisconnected l.chain.tip l.toMarkFailed) (l.round env s1).chain := by
    refine .offerAll ?_ fun c hcc s2 _ _ => ?_
    · rw [(markDisconnected_spec s1 l.chain.tip l.toMarkFailed).2.1]
      exact htne
    · rw [h1.edits.num, h0.edits.num]
      exact (h.listed c (mem_filter.1 hcc).1).2
  have hfr : (l.round env s1).chain.failedAt l.chain.tip := h2.mono _ hf
  refine ⟨hwf, hlink, h.fails.trans ((h0.trans h1).trans h2), ?_, ?_, fun hn => ?_,
    fun _ => ⟨h.tip, ?_, htip.symm, hfr, ?_⟩⟩
  · rw [htip]
    exact (tail_suffix _).trans h.tip
  · rw [htip]
    exact Branch.tail_suffix_tail hr
  · cases hn
  · exact h.wf.tip_rooted.ne_nil
  · cases hwas : l.pindexWasInChain with
    | false =>
      rw [h.start hwas] at hfr
      exact hfr
    | true => exact ((h0.trans h1).trans h2).mono b (h.marked hwas).2.2.2.2

/-- **The loop of `InvalidateBlock(r)`** ends below `r`. -/
theorem Disconnecting.loop {n : Nat} (h : Disconnecting env r b s l)
    (hl : s.Linked b) (hk : Fork env r a b) (hn : l.chain.tip.length ≤ r.tail.length + n) :
    ∃ l', Invalidation.loop env r n l = (l', true) ∧ Disconnecting env r b s l' ∧
      l'.chain.tip = r.tail := by
  induction n generalizing l with
  | zero =>
    refine ⟨l, rfl, h, (Branch.suffix_eq_of_length h.fork (suffix_refl _) ?_).symm⟩
    exact le_antisymm h.fork.length_le (by omega)
  | succ n ih =>
    unfold Invalidation.loop
    by_cases hc : l.chain.contains r
    · have hr := (contains_iff.1 hc).2
      rw [hc]
      simp only [Bool.not_true, Bool.false_eq_true, if_false]
      have hlen : l.chain.tip.tail ≠ [] := fun he =>
        hk.parent_ne (suffix_nil.1 (he ▸ Branch.tail_suffix_tail hr))
      match ht : l.chain.tip with
      | [] => rw [ht] at hlen; exact absurd rfl hlen
      | [x] => rw [ht] at hlen; exact absurd rfl hlen
      | x :: y :: c =>
        obtain ⟨s1, hd⟩ := disconnectTip_some ht fun k =>
          hk.connects'.disconnect k _ h.wf.tip_rooted.ne_nil h.tip
        have htip := (h.wf.round h.listed hd).2.2.1
        rw [hd]
        refine ih (h.round hl hr hd) ?_
        grind
    · rw [Bool.not_eq_true] at hc
      rw [hc]
      have hr : ¬ r <:+ l.chain.tip := by
        intro hr
        simp [contains_iff.2 ⟨hk.ne_nil, hr⟩] at hc
      refine ⟨l, rfl, h, Branch.suffix_antisymm ?_ h.fork⟩
      refine Branch.suffix_tail_of_ne ((Branch.suffix_total h.tip hk.branch).resolve_right hr) ?_
      exact fun he => hr (he ▸ suffix_refl _)

theorem mark_fails (env : Env) (hwas : l.pindexWasInChain → l.chain.failedAt r) :
    Fails env r l.chain (l.mark r) ∧ (l.mark r).failedAt r ∧
      (∀ x ≠ r, (l.mark r).failedAt x = l.chain.failedAt x) ∧
      ∀ c ∈ l.chain.setBlockIndexCandidates, c ≠ r → c ∈ (l.mark r).setBlockIndexCandidates := by
  unfold Invalidation.mark
  split
  · have hf := setFailure_failedAt (fun _ => true) (·.failedChild) l.chain r
    have h1 : Fails env r l.chain (l.chain.setFailure r (fun _ => true) (·.failedChild)) :=
      .setFailure _ _ (Bool.true_or _) (.inl (suffix_refl r))
    refine ⟨h1.trans (.of_data rfl rfl fun c hc => ?_), ?_, fun x hx => ?_, fun c hc hcr => ?_⟩
    · exact .inl ((mem_eraseCandidate _ r).1 hc).1
    · exact (hf r).trans (if_pos rfl)
    · exact (hf x).trans (if_neg hx)
    · exact (mem_eraseCandidate _ r).2 ⟨hc, hcr⟩
  · next hcond =>
    refine ⟨.refl env r _, ?_, fun _ _ => rfl, fun _ hc _ => hc⟩
    by_cases hw : l.pindexWasInChain
    · exact hwas hw
    · simpa [hw, failedAt] using hcond

/-- **The end of `InvalidateBlock(r)`**: `r` has failed, and valid blocks of enough work are
candidates. -/
theorem finish_fails (h : Wf env l.chain) (hr : r ≠ [])
    (hl : l.toMarkFailed = r) (hoff : ¬ r <:+ l.chain.tip)
    (hwas : l.pindexWasInChain → l.chain.failedAt r) :
    ∃ s', l.finish env r = some (s', true) ∧ Fails env r l.chain s' ∧ s'.failedAt r ∧
      (∀ c ∈ l.chain.setBlockIndexCandidates, c ≠ r → s'.Offered c) ∧
      ∀ c ∈ l.chain.known, c ≠ r → l.chain.failedAt c = false → (l.chain.data c).haveNumChainTxs →
        transactions.level ≤ (l.chain.data c).nStatus.validity.level →
        l.chain.workLess env c l.chain.tip = false → s'.Offered c := by
  obtain ⟨hm, hmr, hmf, hmc⟩ := mark_fails env hwas
  obtain ⟨hwf, htm⟩ := h.mark r
  have htip := hwf.tip_rooted.ne_nil
  let offer (s : Chainstate) (c : BlockPtr) : Bool :=
    s.hasValidTransactions c && !s.workLess env c s.tip
  have ho := offerAll_offers env offer (l.mark r).known (l.mark r)
  obtain ⟨hsi, -⟩ := offerAll_spec env offer (l.mark r).known htip
  have h2 : Fails env r _ ((l.mark r).offerAll env offer (l.mark r).known) :=
    .offerAll htip fun c _ s1 hs1 hp =>
      ((SameBodies.of_sameIndex hs1).haveNumChainTxs c).symm.trans
        (hasValidTransactions_linked (Bool.and_eq_true_iff.1 hp).1)
  have h3 := setBlockFailureFlags_fails env hr ((l.mark r).offerAll env offer (l.mark r).known)
  refine ⟨_, ?_, (hm.trans h2).trans h3, h3.mono r (h2.mono r hmr), fun c hc hcr => ?_,
    fun c hk hcr hf hn hv hw => ?_⟩
  · unfold Invalidation.finish
    have hnot : l.chain.contains l.toMarkFailed = false := by
      rw [hl, Bool.eq_false_iff]
      exact fun hc => hoff (contains_iff.1 hc).2
    rw [hnot]
    simp only [Bool.false_eq_true, if_false]
    unfold invalidChainFound
    rw [if_neg (hsi.tip ▸ htip), hl]
    rfl
  · exact (ho.keeps c (hmc c hc hcr)).imp_right (h3.parked.mono c)
  · refine (offerAll_mem htip (hm.edits.known ▸ hk) ?_ ?_).imp_right (h3.parked.mono c)
    · intro s1 hs1 hsf hfl
      have hfc : (s1.data c).nStatus.failedMask = false :=
        (congrFun hsf.failedAt c).trans ((hmf c hcr).trans hf)
      rw [Bool.and_eq_true, hs1.workLess, hs1.tip, hm.edits.work, htm, hw]
      refine ⟨?_, rfl⟩
      unfold hasValidTransactions isValid
      rw [(SameBodies.of_sameIndex hs1).haveNumChainTxs, hm.edits.num, hn, hfc]
      simpa using (hv.trans (hm.edits.validity c)).trans (hfl.validity c)
    · rw [hm.edits.work, htm]
      exact hw

theorem Rivals.fail (h : Rivals env r a b s) (hk : Fork env r a b) (hf : Fails env r s s')
    (hwf : Wf env s') (hr : s'.failedAt r) (ht : s'.tip <:+ a)
    (ha : s'.Offered a)
    (hready : b ∈ s'.setBlockIndexCandidates ∨ s'.failedAt b ∨ s'.parkedAt b) :
    Pending env r a b s' := by
  have hriv : Rivals env r a b s' := by
    refine h.edit hk hf.edits hwf (fun _ _ _ _ => hr) ?_ hready
    exact fun x _ hxb hx => hf.parked.mono r (h.spread_parked hk hf.parked hxb hx)
  refine ⟨hriv, .inl ht, fun _ => ⟨ha.resolve_right fun hp => ?_, fun hrt => ?_⟩⟩
  · simp [hriv.unparked a (suffix_refl a)] at hp
  · exact hk.off (hrt.trans ht)

/-- **`InvalidateBlock(r)`**, not interrupted. -/
theorem invalidate_pending (h : AtRest env r a b s) (hk : Fork env r a b) (rounds : Nat)
    (hrounds : b.length ≤ rounds) :
    ∃ s', s.invalidateBlock env rounds r = some (s', true) ∧ Pending env r a b s' := by
  have hriv := h.rivals
  have hheight : nHeight r ≠ 0 := by
    have := length_pos_iff.2 hk.parent_ne
    rw [length_tail] at this
    rw [nHeight_eq]
    omega
  have har : a ≠ r := fun he => hk.off (he ▸ suffix_refl _)
  have hak := hriv.known_of_num hk.active_ne hriv.active_num
  have hlist := hriv.wf.candidateBlocksByWork_linked r
  let l : Invalidation := ⟨s, r, false, s.candidateBlocksByWork env r⟩
  have hinv {l' s'} (hloop : Invalidation.loop env r rounds l = (l', true))
      (h1 : l'.finish env r = some (s', true)) : s.invalidateBlock env rounds r = some (s', true) := by
    unfold invalidateBlock
    rw [if_neg hheight, hloop]
    exact h1
  rcases h.rest with ⟨ht, ha⟩ | ⟨ht, hc⟩
  · -- `r` is not active: the loop has no round
    have hoff : ¬ r <:+ s.tip := ht ▸ hk.off
    have hloop : Invalidation.loop env r rounds l = (l, true) := by
      cases rounds with
      | zero => rfl
      | succ n =>
        unfold Invalidation.loop
        rw [if_pos]
        rw [Bool.not_eq_true', Bool.eq_false_iff]
        exact fun hc => hoff (contains_iff.1 hc).2
    obtain ⟨s', h1, h2, h3, h4, -⟩ :=
      finish_fails (l := l) hriv.wf hk.ne_nil rfl hoff (by simp [l])
    have hi := hinv hloop h1
    obtain ⟨hwf, hts⟩ := hriv.wf.invalidateBlock hi
    refine ⟨s', hi, hriv.fail hk h2 hwf h3 (ht ▸ hts) (h4 a ha har) ?_⟩
    by_cases hbr : b = r
    · exact .inr (.inl (hbr ▸ h3))
    rcases hriv.ready with hb | hb | hb
    · exact (h4 b hb hbr).imp_right .inr
    · exact .inr (.inl (h2.mono b hb))
    · exact .inr (.inr (h2.parked.mono b hb))
  · -- `b` is active: the loop disconnects down to the fork
    have hstart : Disconnecting env r b s l := by
      refine ⟨hriv.wf, hlist, .refl env r s, ht ▸ suffix_refl _, ?_, fun _ => ht, ?_⟩
      · rw [ht]
        exact (tail_suffix r).trans hk.branch
      · simp [l]
    obtain ⟨l, hloop, hd, htl⟩ := hstart.loop (n := rounds) (hriv.linked b hriv.branch_num) hk
      (by rw [ht]; omega)
    have hoff : ¬ r <:+ l.chain.tip := htl ▸ Branch.not_suffix_tail hk.ne_nil
    have hwas : l.pindexWasInChain := by
      by_contra hn
      have := hd.start (by simpa using hn)
      rw [this] at hoff
      exact hoff hk.branch
    obtain ⟨hmb, hmne, hmt, hmf, hfb⟩ := hd.marked hwas
    have hmr : l.toMarkFailed = r := by
      refine Branch.suffix_eq_of_length hmb hk.branch ?_
      have h1 := congrArg length (hmt.trans htl)
      have h2 := length_pos_iff.2 hmne
      have h3 := length_pos_iff.2 hk.ne_nil
      simp only [length_tail] at h1
      omega
    obtain ⟨s', h1, h2, h3, -, h5⟩ := finish_fails hd.wf hk.ne_nil hmr hoff fun _ => hmr ▸ hmf
    have hi := hinv hloop h1
    obtain ⟨hwf, -⟩ := hriv.wf.invalidateBlock hi
    have hts : s'.tip = l.chain.tip := (hd.wf.finish h1).2
    refine ⟨s', hi, hriv.fail hk (hd.fails.trans h2) hwf h3 ?_ (h5 a ?_ har ?_ ?_ ?_ ?_)
      (.inr (.inl (h2.mono b hfb)))⟩
    · rw [hts, htl]
      exact hk.parent
    · rw [hd.fails.edits.known]
      exact hak
    · exact hd.fails.edits.failed.clean hk.off hriv.unfailed a (suffix_refl a)
    · rw [hd.fails.edits.num]
      exact hriv.active_num
    · exact hriv.active_valid.trans (hd.fails.edits.validity a)
    · -- the fork is below `a`
      rw [htl]
      exact workLess_of_ancestor (hriv.wf.known_rooted a hak) hk.parent hk.parent_ne
        (workLess_irrefl _ env a)

end

/-! ## Every sequence of calls -/

/-- The operator's calls on `r`. -/
inductive RivalCall
  | invalidateBlock
  | resetBlockFailureFlags
  | parkBlock
  | unparkBlock
deriving DecidableEq

/-- A call on `r`; `ParkBlock` is not called while `r` is active. -/
def RivalCall.apply (env : Env) (recheck : Option (BlockPtr → Bool)) (rounds : Nat)
    (r : BlockPtr) : RivalCall → Chainstate → Option Chainstate
  | .invalidateBlock, s => (s.invalidateBlock env rounds r).map (·.1)
  | .resetBlockFailureFlags, s => some (s.resetBlockFailureFlags env recheck r)
  | .parkBlock, s => if s.contains r then none else some (s.parkBlock r).1
  | .unparkBlock, s => some (s.unparkBlock env r)

/-- A call followed by a completed `ActivateBestChain`. -/
def rivalStep (env : Env) (recheck : Option (BlockPtr → Bool)) (fuel : Nat) (r : BlockPtr)
    (c : RivalCall) (s : Chainstate) : Option Chainstate :=
  (c.apply env recheck fuel r s).bind (activateBestChain env fuel)

section

variable {env : Env} {r a b : BlockPtr} {s s' : Chainstate} {recheck : Option (BlockPtr → Bool)}
  {fuel : Nat}

theorem AtRest.step (h : AtRest env r a b s) (hk : Fork env r a b)
    (hok : ∀ x, x <:+ b → (recheck.any fun ok => !ok x) = false) (ha : a.length < fuel)
    (hb : b.length < fuel) {c : RivalCall} (hc : c = .parkBlock → ¬ r <:+ s.tip) :
    ∃ s', rivalStep env recheck fuel r c s = some s' ∧ AtRest env r a b s' ∧
      (s'.Clean r → s'.tip = b) ∧ (¬ s'.Clean r → s'.tip = a) := by
  have hpend : ∃ s1, c.apply env recheck fuel r s = some s1 ∧ Pending env r a b s1 := by
    cases c with
    | invalidateBlock =>
      obtain ⟨s1, h1, h2⟩ := invalidate_pending h hk fuel (le_of_lt hb)
      exact ⟨s1, by simp [RivalCall.apply, h1], h2⟩
    | resetBlockFailureFlags => exact ⟨_, rfl, reset_pending h hk hok⟩
    | parkBlock =>
      have hr := hc rfl
      refine ⟨_, if_neg fun hn => hr (contains_iff.1 hn).2, park_pending h hk hr⟩
    | unparkBlock => exact ⟨_, rfl, unpark_pending h hk⟩
  obtain ⟨s1, h1, h2⟩ := hpend
  obtain ⟨s', h3, h4⟩ := h2.activate hk ha hb
  refine ⟨s', ?_, h4⟩
  unfold rivalStep
  rw [h1]
  exact h3

/-- **The calls are independent**: after every step of every sequence of calls the tip is `b` if
and only if `r` is neither failed nor parked, and `a` otherwise; and every call (`ParkBlock` while
`r` is not active) can be taken next. -/
theorem tip_iff_clean (hk : Fork env r a b) (h : Rivals env r a b s) (ht : s.tip = a)
    (hm : a ∈ s.setBlockIndexCandidates)
    (hok : ∀ x, x <:+ b → (recheck.any fun ok => !ok x) = false) (ha : a.length < fuel)
    (hb : b.length < fuel) {calls : List RivalCall}
    (hrun : Runs.runAll (rivalStep env recheck fuel r) calls s = some s') :
    (calls ≠ [] → (s'.tip = b ↔ s'.Clean r) ∧ (¬ s'.Clean r → s'.tip = a)) ∧
      ∀ c, (c = .parkBlock → ¬ r <:+ s'.tip) → (rivalStep env recheck fuel r c s').isSome := by
  have hne : a ≠ b := fun he => absurd hk.work (by simp [he])
  -- the run lemma: at rest after every step, and where `r` says once a step was taken
  have hrest : AtRest env r a b s' ∧ (calls ≠ [] →
      (s'.Clean r → s'.tip = b) ∧ (¬ s'.Clean r → s'.tip = a)) := by
    have h0 : AtRest env r a b s := ⟨h, .inl ⟨ht, hm⟩⟩
    clear h ht hm
    induction calls generalizing s with
    | nil =>
      cases hrun
      exact ⟨h0, fun hn => absurd rfl hn⟩
    | cons c calls ih =>
      obtain ⟨s₁, h1, h2⟩ := Option.bind_eq_some_iff.1 hrun
      have hpark : c = .parkBlock → ¬ r <:+ s.tip := by
        rintro rfl hr
        simp [rivalStep, RivalCall.apply, if_pos (contains_iff.2 ⟨hk.ne_nil, hr⟩)] at h1
      obtain ⟨s₂, h3, h4, h5, h6⟩ := h0.step hk hok ha hb hpark
      rw [h1] at h3
      cases h3
      obtain ⟨h7, h8⟩ := ih h2 h4
      refine ⟨h7, fun _ => ?_⟩
      cases calls with
      | nil =>
        cases h2
        exact ⟨h5, h6⟩
      | cons => exact h8 (by simp)
  refine ⟨fun hn => ?_, fun c hc => ?_⟩
  · grind
  · obtain ⟨s₁, h1, -⟩ := hrest.1.step hk hok ha hb hc
    rw [h1]
    rfl

end

/-- Block 1 on genesis is active; blocks 2 and 3 are stored on a branch beside it. -/
def forkedChainstate : Chainstate where
  known := [regtestBranch [], regtestBranch [1], regtestBranch [2], regtestBranch [3, 2]]
  data b := if b ∈ [regtestBranch [], regtestBranch [1], regtestBranch [2], regtestBranch [3, 2]] then
      { nStatus := { validity := .transactions, haveData := true }, nTx := 1,
        chainTxCount := b.length, nSequenceId := b.length }
    else {}
  blocksUnlinked := []
  setBlockIndexCandidates := [regtestBranch [1], regtestBranch [3, 2]]
  tip := regtestBranch [1]
  failedBlocks := []
  nBlockSequenceId := 5
  calls := 0

theorem regtestBranch_rooted (d : Int) (l : List Nat) :
    Rooted (regtestEnv d) (regtestBranch l) := by
  refine ⟨suffix_append _ _, fun x y hxy _ => ?_⟩
  have hx : x ∈ regtestBranch l := hxy.subset mem_cons_self
  have hbits : x.nBits = (regtestHeader 0).nBits := by
    rcases mem_append.1 hx with hx | hx
    · obtain ⟨n, -, rfl⟩ := mem_map.1 hx
      rfl
    · rw [mem_singleton.1 hx]
  rw [hbits]
  decide

theorem forked_data (x : BlockPtr) :
    forkedChainstate.failedAt x = false ∧ forkedChainstate.parkedAt x = false ∧
      ((forkedChainstate.data x).nStatus.haveData → x ∈ forkedChainstate.known) ∧
      ((forkedChainstate.data x).haveNumChainTxs → x ∈ forkedChainstate.known) := by
  unfold failedAt parkedAt forkedChainstate
  dsimp only
  split
  · next hx => exact ⟨rfl, rfl, fun _ => hx, fun _ => hx⟩
  · exact ⟨rfl, rfl, (nomatch ·), (nomatch ·)⟩

theorem forked_linked {c : BlockPtr} (hc : c ∈ forkedChainstate.known) :
    forkedChainstate.HaveBranch c ∧ forkedChainstate.Linked c := by
  have hall : ∀ c ∈ forkedChainstate.known, ∀ x ∈ c.tails, x ≠ [] →
      (forkedChainstate.data x).nStatus.haveData ∧
        (forkedChainstate.data x).haveNumChainTxs := by decide
  exact ⟨fun x hx hxc => (hall c hc x ((mem_tails _ _).2 hxc) hx).1,
    fun x hx hxc => (hall c hc x ((mem_tails _ _).2 hxc) hx).2⟩

theorem forked_wf : Wf (regtestEnv 6) forkedChainstate := by
  have hroot : ∀ c ∈ forkedChainstate.known, Rooted (regtestEnv 6) c := by
    intro c hc
    simp only [forkedChainstate, mem_cons, not_mem_nil, or_false] at hc
    rcases hc with rfl | rfl | rfl | rfl <;> exact regtestBranch_rooted 6 _
  have hcand : ∀ c ∈ forkedChainstate.setBlockIndexCandidates, c ∈ forkedChainstate.known := by
    decide
  refine ⟨regtestBranch_rooted 6 [1], hroot, fun b hb => (forked_data b).2.2.1 hb,
    fun c hc => hroot c (hcand c hc), fun e he => absurd he (not_mem_nil), nodup_nil,
    fun b hb => (forked_linked ((forked_data b).2.2.2 hb)).1, (forked_linked (by decide)).1,
    fun c hc => (forked_linked (hcand c hc)).1, ?_⟩
  unfold CandAbove
  decide

theorem forked_rivals : Rivals (regtestEnv 6) (regtestBranch [2]) (regtestBranch [1])
    (regtestBranch [3, 2]) forkedChainstate where
  wf := forked_wf
  linked c hc := (forked_linked ((forked_data c).2.2.2 hc)).2
  cand_num := by decide
  active_num := by decide
  active_valid := by decide
  branch_num := by decide
  branch_valid := by decide
  unfailed x _ := (forked_data x).1
  unparked x _ := (forked_data x).2.1
  best_above := by decide
  best_beside c hc _ hr hw := by
    have hno : ∀ c ∈ forkedChainstate.known, ¬ regtestBranch [2] <:+ c →
        forkedChainstate.workLess (regtestEnv 6) (regtestBranch [1]) c = false := by decide
    simp [hno c hc hr] at hw
  above_failed x _ _ hx := by
    simp [(forked_data x).1] at hx
  above_parked x _ _ hx := by
    simp [(forked_data x).2.1] at hx
  ready := by decide

theorem forked_fork : Fork (regtestEnv 6) (regtestBranch [2]) (regtestBranch [1])
    (regtestBranch [3, 2]) :=
  ⟨by decide, by decide, by decide, by decide, by decide, ⟨fun _ _ _ _ => rfl, fun _ _ _ _ => rfl⟩,
    ⟨fun _ _ _ _ => rfl, fun _ _ _ _ => rfl⟩⟩

/-- Parked, failed, unparked: block 1 stays active.  Then reconsidered: block 3 is. -/
theorem tip_iff_clean_reconsidered : ∃ s s' : Chainstate,
    Runs.runAll (rivalStep (regtestEnv 6) none 5 (regtestBranch [2]))
      [.parkBlock, .invalidateBlock, .unparkBlock] forkedChainstate = some s ∧
    Runs.runAll (rivalStep (regtestEnv 6) none 5 (regtestBranch [2]))
      [.parkBlock, .invalidateBlock, .unparkBlock, .resetBlockFailureFlags] forkedChainstate =
        some s' ∧
    s.failedAt (regtestBranch [2]) ∧ s.tip = regtestBranch [1] ∧
    s'.tip = regtestBranch [3, 2] ∧ s'.Clean (regtestBranch [2]) := by
  refine (Option.map_eq_some_iff.1 (by decide :
    Option.map (·.failedAt (regtestBranch [2])) _ = some true)).imp fun s ⟨h, hf⟩ =>
    (Option.map_eq_some_iff.1 (by decide : Option.map (·.tip) _ =
      some (regtestBranch [3, 2]))).imp fun s' ⟨h', ht⟩ => ⟨h, h', hf, ?_, ht, ?_⟩
  · exact ((tip_iff_clean forked_fork forked_rivals rfl (by decide) (fun _ _ => rfl) (by decide)
      (by decide) h).1 (by simp)).2 (not_clean_iff.2 (.inl hf))
  · exact ((tip_iff_clean forked_fork forked_rivals rfl (by decide) (fun _ _ => rfl) (by decide)
      (by decide) h').1 (by simp)).1.1 ht

/-- Block 3 is parked, above `r`: `r` is clean, and block 1 stays active. -/
theorem tip_stays_below_parked : Fork (regtestEnv 6) (regtestBranch [2]) (regtestBranch [1])
      (regtestBranch [3, 2]) ∧
    ∃ s, rivalStep (regtestEnv 6) none 5 (regtestBranch [2]) .resetBlockFailureFlags
        (forkedChainstate.parkBlock (regtestBranch [3, 2])).1 = some s ∧
      s.Clean (regtestBranch [2]) ∧ s.tip = regtestBranch [1] := by
  refine ⟨forked_fork, (Option.map_eq_some_iff.1 (by decide : Option.map (fun s : Chainstate =>
    (s.failedAt (regtestBranch [2]), s.parkedAt (regtestBranch [2]), s.tip)) _ =
      some (false, false, regtestBranch [1]))).imp fun s ⟨h, heq⟩ => ⟨h, ?_⟩⟩
  rw [Prod.mk.injEq, Prod.mk.injEq] at heq
  exact ⟨⟨heq.1, heq.2.1⟩, heq.2.2⟩

end Chainstate

end BitcoinPurity
