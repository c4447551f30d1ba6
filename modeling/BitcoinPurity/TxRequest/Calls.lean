import BitcoinPurity.TxRequest.Consistency

/-!
Every call of the request tracker ends, passes its assertions and leaves a state that passes
`SanityCheck`: `TxRequestTracker.sane_calls`, for every sequence of calls.
-/

namespace BitcoinPurity

open Sorted List Announcement AnnouncementState TxRequestTracker Prod.Lex
open Option (bind_eq_bind bind_some)

/-- `SanityCheck` passes. -/
structure Sane (computer : PriorityComputer) (s : TxRequestTracker) : Prop where
  consistent : ConsistentIndex computer s.index
  exact : Exact s

/-! ## Positions in the `ByTxHash` index -/

section
variable {env : TrackerEnv} {index : List Announcement} {a b : Announcement}

theorem byTxHashView_le_iff : env.byTxHashView index a ≤ env.byTxHashView index b ↔
    a.txhash < b.txhash ∨ a.txhash = b.txhash ∧ (a.state.rank < b.state.rank ∨
      a.state.rank = b.state.rank ∧ ((if a.state = .candidateReady then env.computer.of a else 0) <
            (if b.state = .candidateReady then env.computer.of b else 0) ∨
          (if a.state = .candidateReady then env.computer.of a else 0) =
            (if b.state = .candidateReady then env.computer.of b else 0) ∧
          env.ties.byTxHash index a ≤ env.ties.byTxHash index b)) := by
  simp [TrackerEnv.byTxHashView, toLex_le_toLex]

section

variable (h : env.byTxHashView index a ≤ env.byTxHashView index b)
include h

theorem txhash_le_of_view_le : a.txhash ≤ b.txhash := by
  rw [byTxHashView_le_iff] at h
  omega

theorem rank_le_of_view_le (htx : a.txhash = b.txhash) : a.state.rank ≤ b.state.rank := by
  rw [byTxHashView_le_iff] at h
  omega

theorem priority_le_of_view_le (htx : a.txhash = b.txhash) (ha : a.state = .candidateReady)
    (hb : b.state = .candidateReady) : env.computer.of a ≤ env.computer.of b := by
  rw [byTxHashView_le_iff, if_pos ha, if_pos hb, ha, hb] at h
  omega

end

theorem view_lt_of_rank_lt (htx : a.txhash = b.txhash) (h : a.state.rank < b.state.rank) :
    env.byTxHashView index a < env.byTxHashView index b := by
  rw [← not_le]
  intro hle
  have := rank_le_of_view_le hle htx.symm
  omega

theorem eq_of_view_eq (ha : a ∈ index) (hb : b ∈ index)
    (h : env.byTxHashView index a = env.byTxHashView index b) : a = b :=
  env.ties.byTxHash_inj index a ha b hb (congrArg (fun v => (ofLex (ofLex (ofLex v).2).2).2) h)

theorem rank_of_isSelected (h : a.isSelected) : 2 ≤ a.state.rank ∧ a.state.rank ≤ 3 := by
  rcases isSelected_iff.1 h with h | h <;> rw [h] <;> decide

theorem isSelected_of_rank (h : 2 ≤ a.state.rank) (h' : a.state.rank ≤ 3) : a.isSelected := by
  rw [isSelected_iff]
  cases hs : a.state <;> rw [hs] at h <;> simp_all [rank]

theorem rank_eq_one : a.state.rank = 1 ↔ a.state = .candidateReady := by
  cases a.state <;> decide

theorem rank_lt_four : a.state.rank < 4 ↔ a.state ≠ .completed := by
  cases a.state <;> decide

end

/-! ## Single steps -/

section
variable {index : List Announcement} {a b : Announcement}

theorem perm_cons_of_mem (ha : a ∈ index) : ∃ rest, index.Perm (a :: rest) :=
  ⟨index.erase a, perm_cons_erase ha⟩

theorem perm_cons_cons_of_mem (ha : a ∈ index) (hb : b ∈ index) (hne : b ≠ a) :
    ∃ rest, index.Perm (a :: b :: rest) := by
  obtain ⟨rest, hp⟩ := perm_cons_of_mem ha
  have hb' : b ∈ rest := (mem_cons.1 (hp.mem_iff.1 hb)).resolve_left hne
  obtain ⟨rest', hp'⟩ := perm_cons_of_mem hb'
  exact ⟨rest', hp.trans (hp'.cons a)⟩

theorem ConsistentIndex.selected_unique {computer : PriorityComputer}
    (h : ConsistentIndex computer index) (ha : a ∈ index) (hb : b ∈ index)
    (htx : a.txhash = b.txhash) (hsa : a.isSelected) (hsb : b.isSelected) : b = a := by
  by_contra hne
  obtain ⟨rest, hp⟩ := perm_cons_cons_of_mem ha hb hne
  have hpair := (hp.pairwise_iff fun h htx hs => h htx.symm hs.symm).1 h.selected
  exact (pairwise_cons.1 hpair).1 b (by simp) htx ⟨hsa, hsb⟩

end

variable {s : TxRequestTracker} {index index' : List Announcement}

theorem Exact.eq_of_peer {a b : Announcement} (h : Exact s)
    (ha : a ∈ s.index) (hb : b ∈ s.index) (hpeer : a.peer = b.peer) (htx : a.txhash = b.txhash) :
    a = b :=
  inj_on_of_nodup_map h.peers ha hb (by rw [hpeer, htx])

theorem Exact.not_mem_of_perm {a : Announcement}
    {rest : List Announcement} (h : Exact s) (hp : s.index.Perm (a :: rest)) : a ∉ rest := by
  have hnodup := (hp.map _).nodup_iff.1 h.peers
  rw [map_cons, nodup_cons] at hnodup
  exact fun hmem => hnodup.1 (mem_map_of_mem hmem)

/-- What `ChangeAndReselect` does to the index. -/
inductive Reselected (it : Announcement) (st : AnnouncementState) :
    List Announcement → List Announcement → Prop
  | alone {index index' rest : List Announcement} (hp : index.Perm (it :: rest))
      (hp' : index'.Perm (it.setState st :: rest)) : Reselected it st index index'
  | next {index index' rest : List Announcement} {r : Announcement}
      (hr : r.state = .candidateReady) (htx : r.txhash = it.txhash)
      (hp : index.Perm (it :: r :: rest))
      (hp' : index'.Perm (it.setState st :: r.setState .candidateBest :: rest)) :
      Reselected it st index index'

theorem Reselected.countP_lt {it : Announcement} {st : AnnouncementState}
    (h : Reselected it st index index')
    {p : Announcement → Bool} (hit : p it) (hst : p (it.setState st) = false)
    (hbest : ∀ r : Announcement, r.state = .candidateReady →
      p (r.setState .candidateBest) = p r) : index'.countP p < index.countP p := by
  cases h with
  | alone hp hp' =>
    rw [hp.countP_eq, hp'.countP_eq, countP_cons_toNat, countP_cons_toNat, hit, hst]
    exact Nat.lt_succ_self _
  | next hr htx hp hp' =>
    rw [hp.countP_eq, hp'.countP_eq]
    grind

/-- What `MakeCompleted` does to the index, with what is left of the announcement. -/
inductive CompletedBy (it : Announcement) :
    List Announcement → Option Announcement → List Announcement → Prop
  | already {index index' : List Announcement} (hst : it.state = .completed)
      (hp : index' = index) : CompletedBy it index (some it) index'
  | erased {index index' : List Announcement}
      (hp : index'.Perm (index.filter fun a => a.txhash != it.txhash)) :
      CompletedBy it index none index'
  | changed {index index' : List Announcement} (h : Reselected it .completed index index') :
      CompletedBy it index (some (it.setState .completed)) index'

theorem ConsistentIndex.forget {computer : PriorityComputer}
    {txhash : Nat} (h : ConsistentIndex computer index)
    (hp : index'.Perm (index.filter fun a => a.txhash != txhash)) :
    ConsistentIndex computer index' := by
  rw [consistentIndex_iff] at h ⊢
  intro t
  have hpt := hp.filter fun a => a.txhash == t
  rw [filter_filter] at hpt
  by_cases ht : t = txhash
  · have hnil : groupOf t index' = [] := by
      refine List.Perm.eq_nil (hpt.trans (.of_eq ?_))
      simp [ht]
    rw [hnil]
    exact ⟨by simp, by simp, by simp, by simp⟩
  · refine (h t).perm ((List.Perm.of_eq ?_).trans hpt.symm)
    refine filter_congr fun a _ => ?_
    by_cases ha : a.txhash = t
    · simp [ha, ht]
    · simp [ha]

namespace TxRequestTracker

variable {env : TrackerEnv} {s : TxRequestTracker} {it r : Announcement}
  {st : AnnouncementState} {rest : List Announcement}

/-- `Modify` keeps the tracker sane if the group of the transaction stays consistent. -/
theorem modify_sane (ann : Announcement) (h : Sane env.computer s) (hp : s.index.Perm (it :: rest))
    (hpeer : ann.peer = it.peer) (htx : ann.txhash = it.txhash)
    (hgroup : ConsistentGroup env.computer (it :: groupOf it.txhash rest) →
      ConsistentGroup env.computer (ann :: groupOf it.txhash rest)) :
    ∃ s', modify it ann s = some s' ∧ Sane env.computer s' ∧ s'.index.Perm (ann :: rest) := by
  obtain ⟨s', hs', hexact, hp'⟩ := modify_spec h.exact hp hpeer htx
  exact ⟨s', hs', ⟨h.consistent.replace hp hp' htx hgroup, hexact⟩, hp'⟩

theorem modify_two_sane (ann : Announcement) (h : Sane env.computer s)
    (hp : s.index.Perm (it :: r :: rest))
    (hpeer : ann.peer = it.peer) (htx : ann.txhash = it.txhash) (hr : r.txhash = it.txhash)
    (hgroup : ConsistentGroup env.computer (it :: r :: groupOf it.txhash rest) →
      ConsistentGroup env.computer (ann :: r.setState st :: groupOf it.txhash rest)) :
    ∃ s', (modify r (r.setState st) s).bind (modify it ann) = some s' ∧ Sane env.computer s' ∧
      s'.index.Perm (ann :: r.setState st :: rest) := by
  obtain ⟨s1, hs1, hexact1, hp1⟩ := @modify_spec s r (r.setState st) (it :: rest) h.exact
    (hp.trans (.swap r it rest)) rfl rfl
  obtain ⟨s2, hs2, hexact2, hp2⟩ := modify_spec hexact1 (hp1.trans (.swap it _ rest)) hpeer htx
  refine ⟨s2, by rw [hs1, bind_some, hs2], ⟨?_, hexact2⟩, hp2⟩
  exact h.consistent.replace_two hp hp2 htx hr hr hgroup

/-- **`ChangeAndReselect`** keeps the tracker sane. -/
theorem changeAndReselect_spec (h : Sane env.computer s) (hit : it ∈ s.index)
    (hst : st = .completed ∨ st = .candidateDelayed) (hlive : st = .completed →
      ∃ a ∈ s.index, a ≠ it ∧ a.txhash = it.txhash ∧ a.state ≠ .completed) :
    ∃ s', changeAndReselect env it st s = some s' ∧ Sane env.computer s' ∧
      Reselected it st s.index s'.index := by
  -- without a ready announcement to take the place, only the iterator's one changes
  have halone : (it.isSelected → ∀ a ∈ s.index, a.txhash = it.txhash → a.state ≠ .candidateReady) →
      ∃ s', modify it (it.setState st) s = some s' ∧ Sane env.computer s' ∧
        Reselected it st s.index s'.index := by
    intro hready
    obtain ⟨rest, hp⟩ := perm_cons_of_mem hit
    have hgroup := fun hg : ConsistentGroup env.computer (it :: groupOf it.txhash rest) =>
      hg.demote hst ?_ ?_
    · exact (modify_sane (it.setState st) h hp rfl rfl hgroup).imp fun s' hs' =>
        ⟨hs'.1, hs'.2.1, .alone hp hs'.2.2⟩
    · intro hsel a ha
      rw [mem_groupOf] at ha
      exact hready hsel a (hp.mem_iff.2 (mem_cons_of_mem it ha.1)) ha.2
    · intro hc
      obtain ⟨a, ha, hne, htx, hac⟩ := hlive hc
      have ha' : a ∈ rest := (mem_cons.1 (hp.mem_iff.1 ha)).resolve_left hne
      exact ⟨a, mem_groupOf.2 ⟨ha', htx⟩, hac⟩
  unfold changeAndReselect
  simp only [hst]
  cases hsel : it.isSelected with
  | false =>
    exact halone fun hc => by rw [hsel] at hc; cases hc
  | true =>
    have hrank := rank_of_isSelected hsel
    simp only [if_true]
    cases hprev : prev (env.byTxHashView s.index) s.index it with
    | none =>
      refine halone fun _ a ha htx hr => ?_
      have := rank_le_of_view_le (le_of_prev_eq_none hprev ha) htx.symm
      have := rank_eq_one.2 hr
      omega
    | some p =>
      obtain ⟨hpmem, hplt⟩ := mem_of_prev hprev
      -- a ready announcement stands at or before the previous one
      have hbefore : ∀ a ∈ s.index, a.txhash = it.txhash → a.state = .candidateReady →
          env.byTxHashView s.index a ≤ env.byTxHashView s.index p := by
        intro a ha htx hr
        refine le_prev hprev ha (view_lt_of_rank_lt htx ?_)
        rw [hr]
        exact hrank.1
      simp only
      split
      next hp =>
        have hne : p ≠ it := fun heq => (heq ▸ hplt).false
        obtain ⟨rest, hperm⟩ := perm_cons_cons_of_mem hit hpmem hne
        refine (modify_two_sane (it.setState st) h hperm rfl rfl hp.1 fun hg =>
          hg.reselect hst hsel fun a ha hr => ?_).imp fun s' hs' =>
            ⟨hs'.1, hs'.2.1, .next hp.2 hp.1 hperm hs'.2.2⟩
        rw [mem_groupOf] at ha
        have hamem : a ∈ s.index := hperm.mem_iff.2 (by simp [ha.1])
        exact priority_le_of_view_le (hbefore a hamem ha.2 hr) (ha.2.trans hp.1.symm) hr hp.2
      next hp =>
        refine halone fun _ a ha htx hr => ?_
        have hle := hbefore a ha htx hr
        have htx1 := txhash_le_of_view_le hle
        have htx2 := txhash_le_of_view_le hplt.le
        have hptx : p.txhash = it.txhash := by omega
        have hlow := rank_le_of_view_le hle (htx.trans hptx.symm)
        have hhigh := rank_le_of_view_le hplt.le hptx
        have hpr : p.state.rank ≠ 1 := fun h1 => hp ⟨hptx, rank_eq_one.1 h1⟩
        rw [rank_eq_one.2 hr] at hlow
        have hpsel := @isSelected_of_rank p (by omega) (by omega)
        have := h.consistent.selected_unique hit hpmem hptx.symm hsel hpsel
        exact (this ▸ hplt).false

/-- **`PromoteCandidateReady`** keeps the tracker sane, and one announcement less is delayed. -/
theorem promoteCandidateReady_spec (h : Sane env.computer s) (hit : it ∈ s.index)
    (hst : it.state = .candidateDelayed) :
    ∃ s', promoteCandidateReady env it s = some s' ∧ Sane env.computer s' ∧
      s'.index.countP isWaiting < s.index.countP isWaiting := by
  obtain ⟨rest, hp⟩ := perm_cons_of_mem hit
  obtain ⟨s1, hs1, hexact1, hp1⟩ := @modify_spec s it (it.setState .candidateReady) rest
    h.exact hp rfl rfl
  have hcount := hp.countP_eq isWaiting
  have hcount1 := hp1.countP_eq isWaiting
  have hwait : it.isWaiting := by simp [isWaiting, hst]
  -- the announcement is the new best one when nothing of its transaction is selected
  have hfirst : (∀ a ∈ rest, a.txhash = it.txhash → ¬ a.isSelected) →
      ∃ s', modify (it.setState .candidateReady)
          ((it.setState .candidateReady).setState .candidateBest) s1 = some s' ∧
        Sane env.computer s' ∧
        s'.index.countP isWaiting < s.index.countP isWaiting := by
    intro hnone
    obtain ⟨s2, hs2, hexact2, hp2⟩ := @modify_spec s1 _
      ((it.setState .candidateReady).setState .candidateBest) rest hexact1 hp1 rfl rfl
    refine ⟨s2, hs2, ⟨?_, hexact2⟩, ?_⟩
    · refine h.consistent.replace hp hp2 rfl fun hg => hg.promote_first hst fun a ha => ?_
      rw [mem_groupOf] at ha
      exact hnone a ha.1 ha.2
    · rw [hp2.countP_eq, hcount, countP_cons_toNat, countP_cons_toNat, hwait]
      simp [isWaiting]
  unfold promoteCandidateReady
  simp only [hst, bind_eq_bind, bind_some, hs1]
  cases hnext : next (env.byTxHashView s1.index) s1.index (it.setState .candidateReady) with
  | none =>
    refine hfirst fun a ha htx hsel => ?_
    have hle := le_of_next_eq_none hnext (hp1.mem_iff.2 (mem_cons_of_mem _ ha))
    have hrank := rank_le_of_view_le hle htx
    have := rank_of_isSelected hsel
    have := @rank_eq_one (it.setState .candidateReady)
    simp only [setState_state, iff_true] at this hrank
    omega
  | some n =>
    obtain ⟨hnmem, hlt⟩ := mem_of_next hnext
    have hne : n ≠ it.setState .candidateReady := fun heq => (heq ▸ hlt).false
    have hnrest : n ∈ rest := (mem_cons.1 (hp1.mem_iff.1 hnmem)).resolve_left hne
    have hnindex : n ∈ s.index := hp.mem_iff.2 (mem_cons_of_mem it hnrest)
    -- a selected announcement stands at or after the next one
    have hafter : ∀ a ∈ rest, a.txhash = it.txhash → a.isSelected →
        env.byTxHashView s1.index n ≤ env.byTxHashView s1.index a := by
      intro a ha htx hsel
      refine next_le hnext (hp1.mem_iff.2 (mem_cons_of_mem _ ha)) (view_lt_of_rank_lt htx.symm ?_)
      exact (rank_of_isSelected hsel).1
    have htxn := txhash_le_of_view_le hlt.le
    rw [setState_txhash] at htxn
    simp only
    split
    next hnew =>
      refine hfirst fun a ha htx hsel => ?_
      have hle := hafter a ha htx hsel
      have htxa := txhash_le_of_view_le hle
      have htxeq : n.txhash = it.txhash := by omega
      have hrank := rank_le_of_view_le hle (htxeq.trans htx.symm)
      have hcompleted : n.state = .completed := hnew.resolve_left (not_not.2 htxeq)
      have := rank_of_isSelected hsel
      rw [hcompleted] at hrank
      have : completed.rank = 4 := rfl
      omega
    next hnew =>
      push Not at hnew
      obtain ⟨htxeq, hlive⟩ := hnew
      have hrank : 1 ≤ n.state.rank := rank_le_of_view_le hlt.le htxeq.symm
      split
      next hbest =>
        obtain ⟨rest', hp'⟩ := perm_cons_of_mem hnrest
        have hp1' := (hp1.trans (hp'.cons _)).trans (.swap _ _ _)
        obtain ⟨s2, hs2, hexact2, hp2⟩ := @modify_spec s1 n (n.setState .candidateReady) _
          hexact1 hp1' rfl rfl
        obtain ⟨s3, hs3, hexact3, hp3⟩ := @modify_spec s2 _
          ((it.setState .candidateReady).setState .candidateBest) _ hexact2
          (hp2.trans (.swap _ _ _)) rfl rfl
        rw [hs2, bind_some, hs3]
        refine ⟨s3, rfl, ⟨?_, hexact3⟩, ?_⟩
        · exact h.consistent.replace_two (hp.trans (hp'.cons it)) hp3 rfl htxeq htxeq
            fun hg => hg.promote_above hbest.1 hbest.2
        · rw [hp3.countP_eq, hcount, (hp'.cons it).countP_eq]
          simp only [countP_cons_toNat, isWaiting, hbest.1, hst]
          exact Nat.lt_succ_self _
      next hbest =>
        refine ⟨s1, rfl, ⟨?_, hexact1⟩, ?_⟩
        · have hselected : n.state ≠ .candidateReady → n.isSelected := by
            intro hr
            have := mt rank_eq_one.1 hr
            have := rank_lt_four.2 hlive
            exact isSelected_of_rank (by omega) (by omega)
          refine h.consistent.replace hp hp1 rfl fun hg => hg.promote_behind ?_ ?_
          · by_cases hr : n.state = .candidateReady
            · obtain ⟨b, hb, htxb, hsel⟩ := h.consistent.ready n hnindex hr
              have hbne : b ≠ it := by
                rintro rfl
                simp [isSelected_iff, hst] at hsel
              have hbrest := (mem_cons.1 (hp.mem_iff.1 hb)).resolve_left hbne
              exact ⟨b, mem_groupOf.2 ⟨hbrest, htxb.trans htxeq⟩, hsel⟩
            · exact ⟨n, mem_groupOf.2 ⟨hnrest, htxeq⟩, hselected hr⟩
          · intro a ha habest
            rw [mem_groupOf] at ha
            have haindex : a ∈ s.index := hp.mem_iff.2 (mem_cons_of_mem it ha.1)
            by_cases hr : n.state = .candidateReady
            · have hle := priority_le_of_view_le hlt.le htxeq.symm rfl hr
              exact hle.trans (h.consistent.best a haindex n hnindex (ha.2.trans htxeq.symm)
                habest hr)
            have hasel : a.isSelected := isSelected_iff.2 (.inl habest)
            have heq := h.consistent.selected_unique haindex hnindex (ha.2.trans htxeq.symm)
              hasel (hselected hr)
            rw [← heq] at habest ⊢
            exact not_lt.1 fun hgt => hbest ⟨habest, hgt⟩
        · rw [hcount1, hcount, countP_cons_toNat, countP_cons_toNat, hwait]
          simp [isWaiting]

theorem isOnlyNonCompleted_iff (hit : it ∈ s.index) (hst : it.state ≠ .completed) :
    isOnlyNonCompleted env it s ↔
      ∀ a ∈ s.index, a.txhash = it.txhash → a ≠ it → a.state = .completed := by
  have hrank := rank_lt_four.2 hst
  simp only [isOnlyNonCompleted, Bool.and_eq_true, Bool.not_eq_true', Option.any_eq_false,
    Bool.and_eq_false_imp, beq_iff_eq, bne_eq_false_iff_eq, beq_eq_false_iff_ne]
  constructor
  · rintro ⟨hbefore, hafter⟩ a ha htx hne
    by_contra hlive
    have hview := mt (@eq_of_view_eq env s.index a it ha hit) hne
    rcases lt_or_gt_of_ne hview with hlt | hgt
    · cases hprev : prev (env.byTxHashView s.index) s.index it with
      | none => exact absurd (le_of_prev_eq_none hprev ha) (not_le.2 hlt)
      | some p =>
        have hle := txhash_le_of_view_le (le_prev hprev ha hlt)
        have hle' := txhash_le_of_view_le (mem_of_prev hprev).2.le
        exact hbefore p hprev (by omega)
    · cases hnext : next (env.byTxHashView s.index) s.index it with
      | none => exact absurd (le_of_next_eq_none hnext ha) (not_le.2 hgt)
      | some n =>
        have hle := next_le hnext ha hgt
        have htxle := txhash_le_of_view_le hle
        have htxle' := txhash_le_of_view_le (mem_of_next hnext).2.le
        have htxn : n.txhash = it.txhash := by omega
        have hcompleted := hafter n hnext htxn
        have hrankle := rank_le_of_view_le hle (htxn.trans htx.symm)
        have := mt rank_lt_four.1 (not_not.2 hcompleted)
        have := rank_lt_four.2 hlive
        omega
  · intro hall
    constructor
    · intro p hprev htx
      obtain ⟨hmem, hlt⟩ := mem_of_prev hprev
      have hcompleted := hall p hmem htx fun heq => (heq ▸ hlt).false
      have hrankle := rank_le_of_view_le hlt.le htx
      have := mt rank_lt_four.1 (not_not.2 hcompleted)
      omega
    · intro n hnext htx
      obtain ⟨hmem, hlt⟩ := mem_of_next hnext
      exact hall n hmem htx fun heq => (heq ▸ hlt).false

variable {fuel txhash : Nat} {a b : Announcement} {peer : Int} {start : Option Announcement}

/-- **The erasing loops**: from the first announcement of the transaction on, all of them are
erased and no other. -/
theorem eraseTxHash_spec {view : Announcement → Nat ×ₗ Nat ×ₗ Nat ×ₗ Nat}
    (hmono : ∀ a b, view a ≤ view b → a.txhash ≤ b.txhash)
    (hinj : ∀ a ∈ s.index, ∀ b ∈ s.index, view a = view b → a = b) (h : Exact s)
    (hstart : Leads view s.index (fun a => a.txhash == txhash) start)
    (hfuel : s.index.length ≤ fuel) :
    ∃ s', eraseTxHash view txhash fuel start s = some s' ∧ Exact s' ∧
      s'.index.Perm (s.index.filter fun a => a.txhash != txhash) := by
  -- the others of the content before the loop are kept
  let inv s' : Prop := Exact s' ∧ s'.index ⊆ s.index ∧
    (s'.index.filter fun a => a.txhash != txhash).Perm (s.index.filter fun a => a.txhash != txhash)
  have hwalk := @walk_spec _ _ _ view (fun a => a.txhash == txhash) _ _ index inv
    (eraseTxHash view txhash) fuel start s
  refine (hwalk ?_ ?_ ?_ ?_ ⟨h, fun _ ha => ha, .refl _⟩ hstart
    (countP_le_length.trans hfuel)).imp ?_
  · grind
  · intro fuel start s hstart
    cases start with
    | none => cases fuel <;> rfl
    | some x => cases fuel <;> simp [eraseTxHash, by simpa using hstart]
  · rintro fuel s1 x ⟨hexact, hsub, hfilter⟩ hx htx
    rw [beq_iff_eq] at htx
    obtain ⟨rest, hp⟩ := perm_cons_of_mem hx
    obtain ⟨s2, hs2, hexact2, hp2⟩ := erase_spec hexact hp
    have hnotin := hexact.not_mem_of_perm hp
    refine ⟨next view s1.index x, s2, ?_, ⟨hexact2, ?_, ?_⟩, fun y hy _ => hy, ?_, ?_⟩
    · simp [eraseTxHash, if_pos htx, hs2]
    · exact fun a ha => hsub (hp.mem_iff.2 (mem_cons_of_mem x (hp2.mem_iff.1 ha)))
    · grind
    · intro y hy
      obtain ⟨hmem, hlt⟩ := mem_of_next hy
      exact hp2.mem_iff.2 ((mem_cons.1 (hp.mem_iff.1 hmem)).resolve_left
        fun heq => (heq ▸ hlt).false)
    · grind
  · exact fun s1 h1 => ⟨h1.1.peers.of_map, fun x hx y hy => hinj x (h1.2.1 hx) y (h1.2.1 hy)⟩
  · rintro s' ⟨hs', ⟨hexact, -, hp⟩, hnone⟩
    rw [filter_eq_self.2 fun a ha => by simpa using hnone a ha] at hp
    exact ⟨hs', hexact, hp⟩

/-- **`MakeCompleted`** keeps the tracker sane. -/
theorem makeCompleted_spec (h : Sane env.computer s) (hit : it ∈ s.index) :
    ∃ it' s', makeCompleted env it s = some (it', s') ∧ Sane env.computer s' ∧
      CompletedBy it s.index it' s'.index := by
  unfold makeCompleted
  split
  next hst =>
    exact ⟨_, s, rfl, h, .already hst rfl⟩
  next hst =>
  cases honly : isOnlyNonCompleted env it s with
  | true =>
    have hall := (isOnlyNonCompleted_iff hit hst).1 honly
    have hstart : Leads (env.byTxHashView s.index) s.index (fun a => a.txhash == it.txhash)
        (some it) := by
      refine ⟨by simpa using hit, fun a ha htx => ⟨it, rfl, beq_self_eq_true _, ?_⟩⟩
      rw [beq_iff_eq] at htx
      by_cases hne : a = it
      · rw [hne]
      refine (view_lt_of_rank_lt htx.symm ?_).le
      rw [hall a ha htx hne]
      exact rank_lt_four.2 hst
    obtain ⟨s', hs', hexact, hp⟩ := eraseTxHash_spec (fun a b => txhash_le_of_view_le)
      (fun a ha b hb => eq_of_view_eq ha hb) h.exact hstart (le_refl _)
    simp only [hs']
    exact ⟨none, s', rfl, ⟨h.consistent.forget hp, hexact⟩, .erased hp⟩
  | false =>
    have hother : ∃ a ∈ s.index, a ≠ it ∧ a.txhash = it.txhash ∧ a.state ≠ .completed := by
      by_contra hc
      push Not at hc
      have honly' : isOnlyNonCompleted env it s :=
        (isOnlyNonCompleted_iff hit hst).2 fun a ha htx hne => hc a ha hne htx
      simp [honly] at honly'
    obtain ⟨s', hs', hsane, hre⟩ := changeAndReselect_spec h hit (.inl rfl) fun _ => hother
    simp only [hs']
    exact ⟨_, s', rfl, hsane, .changed hre⟩

/-! ## Moving time -/

theorem countP_lt_of_erased {p : Announcement → Bool} {index index' : List Announcement}
    (hit : it ∈ index) (hp : p it) (h : index'.Perm (index.filter fun a => a.txhash != it.txhash)) :
    index'.countP p < index.countP p := by
  obtain ⟨rest, hperm⟩ := perm_cons_of_mem hit
  have hfilter := h.trans (hperm.filter _)
  rw [filter_cons_of_neg (by simp)] at hfilter
  rw [hfilter.countP_eq, hperm.countP_eq, countP_cons_toNat, hp]
  exact Nat.lt_succ_of_le ((filter_sublist).countP_le)

theorem getWaitState_eq_zero : a.getWaitState = 0 ↔ a.isWaiting := by
  unfold getWaitState isWaiting isSelectable
  cases a.state <;> decide

theorem getWaitState_eq_two : a.getWaitState = 2 ↔ a.isSelectable := by
  unfold getWaitState isWaiting isSelectable
  cases a.state <;> decide

theorem byTimeView_le_iff {index : List Announcement} :
    env.byTimeView index a ≤ env.byTimeView index b ↔
      a.getWaitState < b.getWaitState ∨ a.getWaitState = b.getWaitState ∧ (a.time < b.time ∨
        a.time = b.time ∧ env.ties.byTime index a ≤ env.ties.byTime index b) := by
  simp [TrackerEnv.byTimeView, toLex_le_toLex]

/-- **The first loop of `SetTimePoint`** ends, and what is still delayed or requested lies in the
future. -/
theorem passEvents_spec {now : Int} {fuel : Nat} {expired : List (Int × GenTxid)}
    (h : Sane env.computer s) (hfuel : s.index.countP isWaiting < fuel) :
    ∃ expired' s', passEvents env now fuel expired s = some (expired', s') ∧
      Sane env.computer s' ∧ ∀ a ∈ s'.index, a.isWaiting → now < a.time := by
  induction fuel generalizing s expired with
  | zero => omega
  | succ fuel ih =>
    unfold passEvents
    cases hfirst : first (env.byTimeView s.index) s.index with
    | none =>
      refine ⟨expired, s, rfl, h, fun a ha => ?_⟩
      simp [argmin_eq_none.1 hfirst] at ha
    | some it =>
      have hit := argmin_mem hfirst
      simp only
      by_cases hdelayed : it.state = .candidateDelayed ∧ it.time ≤ now
      · obtain ⟨s1, hs1, hsane, hcount⟩ := promoteCandidateReady_spec h hit hdelayed.1
        rw [if_pos hdelayed, hs1]
        exact ih hsane (by omega)
      rw [if_neg hdelayed]
      by_cases hrequested : it.state = .requested ∧ it.time ≤ now
      · have hwait : it.isWaiting := by simp [isWaiting, hrequested.1]
        obtain ⟨it', s1, hs1, hsane, hby⟩ := makeCompleted_spec h hit
        have hcount : s1.index.countP isWaiting < s.index.countP isWaiting := by
          cases hby with
          | already hst _ =>
            simp [hrequested.1] at hst
          | erased hp => exact countP_lt_of_erased hit hwait hp
          | changed hre =>
            exact hre.countP_lt hwait rfl fun r hr => by
              rw [isWaiting, isWaiting, hr]; rfl
        rw [if_pos hrequested, hs1]
        exact ih hsane (hcount.trans_le (Nat.lt_succ_iff.1 hfuel))
      · rw [if_neg hrequested]
        refine ⟨expired, s, rfl, h, fun a ha hwait => ?_⟩
        have hle := byTimeView_le_iff.1 (le_of_mem_argmin ha hfirst)
        have hzero := getWaitState_eq_zero.2 hwait
        have hitwait : it.isWaiting := getWaitState_eq_zero.1 (by omega)
        have hnow : now < it.time := by
          by_contra hc
          simp only [isWaiting, Bool.or_eq_true, beq_iff_eq] at hitwait
          grind
        omega

/-- **The second loop of `SetTimePoint`** ends, and what is ready does not lie in the future. -/
theorem demoteFuture_spec {now : Int} (h : Sane env.computer s)
    (hwaiting : ∀ a ∈ s.index, a.isWaiting → now < a.time)
    (hfuel : s.index.countP isSelectable < fuel) :
    ∃ s', demoteFuture env now fuel s = some s' ∧ Sane env.computer s' ∧
      (∀ a ∈ s'.index, a.isWaiting → now < a.time) ∧
      ∀ a ∈ s'.index, a.isSelectable → a.time ≤ now := by
  induction fuel generalizing s with
  | zero => omega
  | succ fuel ih =>
    unfold demoteFuture
    cases hlast : last (env.byTimeView s.index) s.index with
    | none =>
      refine ⟨s, rfl, h, hwaiting, fun a ha => ?_⟩
      simp [argmax_eq_none.1 hlast] at ha
    | some it =>
      have hit := argmax_mem hlast
      simp only
      by_cases hfuture : it.isSelectable ∧ it.time > now
      · obtain ⟨s1, hs1, hsane, hre⟩ := @changeAndReselect_spec env s it .candidateDelayed h hit
          (.inr rfl) (fun hc => by cases hc)
        have hcount := hre.countP_lt hfuture.1 rfl fun r hr => by simp [isSelectable, hr]
        rw [if_pos hfuture, hs1]
        refine ih hsane (fun a ha hwait => ?_) (by omega)
        cases hre with
        | alone hp hp' =>
          rcases mem_cons.1 (hp'.mem_iff.1 ha) with rfl | ha
          · exact hfuture.2
          · exact hwaiting a (hp.mem_iff.2 (mem_cons_of_mem it ha)) hwait
        | next hr htx hp hp' =>
          have ha' := hp'.mem_iff.1 ha
          simp only [mem_cons] at ha'
          rcases ha' with rfl | rfl | ha
          · exact hfuture.2
          · simp [isWaiting] at hwait
          · exact hwaiting a (hp.mem_iff.2 (by simp [ha])) hwait
      · rw [if_neg hfuture]
        refine ⟨s, rfl, h, hwaiting, fun a ha hsel => ?_⟩
        have hle := byTimeView_le_iff.1 (le_of_mem_argmax ha hlast)
        have htwo := getWaitState_eq_two.2 hsel
        have hle2 : it.getWaitState ≤ 2 := by
          unfold getWaitState
          split_ifs <;> simp
        have hitsel : it.isSelectable := getWaitState_eq_two.1 (by omega)
        grind

/-- **`GetRequestable`**, after `SetTimePoint`. -/
theorem getRequestable_spec {peer now : Int} (h : Sane env.computer s) :
    ∃ s', TrackerCall.step env (.getRequestable peer now) s = some s' ∧ Sane env.computer s' ∧
      (∀ a ∈ s'.index, a.isWaiting → now < a.time) ∧
      ∀ a ∈ s'.index, a.isSelectable → a.time ≤ now := by
  obtain ⟨expired, s1, hs1, hsane1, hwait1⟩ := @passEvents_spec env s now (s.index.length + 1) [] h
    (Nat.lt_succ_of_le countP_le_length)
  obtain ⟨s2, hs2, hpost⟩ := demoteFuture_spec hsane1 hwait1 (Nat.lt_succ_of_le countP_le_length)
  refine ⟨s2, ?_, hpost⟩
  simp [TrackerCall.step, getRequestable, setTimePoint, hs1, hs2]

/-! ## The other calls -/

theorem disconnect_round (h : Sane env.computer s) (hit : it ∈ s.index) :
    ∃ it' s1 s', makeCompleted env it s = some (it', s1) ∧
      eraseLeft it' s1 = some s' ∧ Sane env.computer s' ∧
      ∀ a : Announcement, a.peer = it.peer → (a ∈ s'.index ↔ a ∈ s.index ∧ a ≠ it) := by
  obtain ⟨it', s1, hs1, hsane, hby⟩ := makeCompleted_spec h hit
  -- erasing what `MakeCompleted` left completed
  have herase : ∀ rest, ∀ ann, ann.state = .completed →
      s1.index.Perm (ann :: rest) → ∃ s', erase ann s1 = some s' ∧ Sane env.computer s' ∧
        s'.index.Perm rest := by
    intro rest ann hst hp
    obtain ⟨s', hs', hexact, hp'⟩ := erase_spec hsane.exact hp
    refine ⟨s', hs', ⟨?_, hexact⟩, hp'⟩
    exact @ConsistentIndex.move _ _ _ [ann] [] rest ann.txhash hsane.consistent hp hp' (by simp)
      (by simp) fun hg => hg.erase hst
  cases hby with
  | already hst hp =>
    obtain ⟨rest, hperm⟩ := perm_cons_of_mem hit
    obtain ⟨s', hs', hsane', hp'⟩ := herase rest it hst (hp ▸ hperm)
    refine ⟨_, s1, s', hs1, hs', hsane', fun a _ => ?_⟩
    have := h.exact.not_mem_of_perm hperm
    grind
  | erased hp =>
    refine ⟨_, s1, s1, hs1, rfl, hsane, fun a hpeer => ?_⟩
    rw [hp.mem_iff, mem_filter, bne_iff_ne]
    refine and_congr_right fun ha => not_congr ⟨fun htx => ?_, fun heq => heq ▸ rfl⟩
    exact h.exact.eq_of_peer ha hit hpeer htx
  | changed hre =>
    cases hre with
    | alone hp hp' =>
      obtain ⟨s', hs', hsane', hp''⟩ := herase _ _ rfl hp'
      refine ⟨_, s1, s', hs1, hs', hsane', fun a _ => ?_⟩
      have := h.exact.not_mem_of_perm hp
      grind
    | @next rest r hr htx hp hp' =>
      obtain ⟨s', hs', hsane', hp''⟩ := herase _ _ rfl hp'
      refine ⟨_, s1, s', hs1, hs', hsane', fun a hpeer => ?_⟩
      -- the announcement that takes the place is another peer's
      have hrmem : r ∈ s.index := hp.mem_iff.2 (by simp)
      have hnotin := h.exact.not_mem_of_perm hp
      have hrpeer : r.peer ≠ it.peer := by
        intro heq
        have := h.exact.eq_of_peer hrmem hit heq htx
        simp [this] at hnotin
      have hne : a ≠ r.setState .candidateBest := by
        rintro rfl
        exact hrpeer hpeer
      grind

theorem peer_le_of_byPeerView_le (h : a.byPeerView ≤ b.byPeerView) : a.peer ≤ b.peer := by
  simp only [byPeerView, toLex_le_toLex] at h
  omega

section
variable (h : Sane env.computer s)
include h

/-- **The loop of `DisconnectedPeer`** ends, and the peer has no announcement left. -/
theorem disconnectLoop_spec
    (hstart : Leads byPeerView s.index (fun a => a.peer == peer) start)
    (hfuel : s.index.length ≤ fuel) :
    ∃ s', disconnectLoop env peer fuel start s = some s' ∧ Sane env.computer s' ∧
      ∀ a ∈ s'.index, a.peer ≠ peer := by
  have hwalk := @walk_spec _ _ _ byPeerView (fun a => a.peer == peer) _ _ index
    (Sane env.computer) (disconnectLoop env peer) fuel start s
  refine (hwalk ?_ ?_ ?_ ?_ h hstart (countP_le_length.trans hfuel)).imp ?_
  · intro x y z hxy hyz hx hz
    rw [beq_iff_eq] at hx hz ⊢
    have := peer_le_of_byPeerView_le hxy
    have := peer_le_of_byPeerView_le hyz
    omega
  · intro fuel start s hstart
    cases start with
    | none => cases fuel <;> rfl
    | some x => cases fuel <;> simp [disconnectLoop, by simpa using hstart]
  · intro fuel s x h hx hpeer
    rw [beq_iff_eq] at hpeer
    obtain ⟨it', s1, s2, hs1, hs2, hsane, hmem⟩ := disconnect_round h hx
    refine ⟨(next byPeerView s.index x).filter fun a => a.peer == peer, s2, ?_, hsane,
      fun y hy hpy => ?_, fun y hy => ?_, fun y hy hpy => ?_⟩
    · simp [disconnectLoop, if_pos hpeer, hs1, hs2]
    · rw [hy]
      exact Option.filter_some_pos hpy
    · obtain ⟨hy, hpy⟩ := Option.mem_filter_iff.1 hy
      obtain ⟨hymem, hlt⟩ := mem_of_next hy
      exact (hmem y ((eq_of_beq hpy).trans hpeer.symm)).2 ⟨hymem, fun heq => (heq ▸ hlt).false⟩
    · exact (hmem y ((eq_of_beq hpy).trans hpeer.symm)).1 hy
  · refine fun s h => ⟨h.exact.peers.of_map, fun x hx y hy heq => ?_⟩
    exact h.exact.eq_of_peer hx hy (congrArg (fun v => (ofLex v).1) heq)
      (congrArg (fun v => (ofLex (ofLex v).2).2) heq)
  · exact fun s' ⟨hs', hsane, hnone⟩ => ⟨hs', hsane, by simpa using hnone⟩

theorem disconnectedPeer_spec :
    ∃ s', disconnectedPeer env peer s = some s' ∧ Sane env.computer s' ∧
      ∀ a ∈ s'.index, a.peer ≠ peer := by
  refine disconnectLoop_spec h (.lowerBound (fun a _ hpeer => ?_) fun x y hx hxy hy => ?_) (le_refl _)
  · rw [beq_iff_eq] at hpeer
    simp only [byPeerView, toLex_le_toLex, hpeer]
    refine .inr ⟨trivial, ?_⟩
    cases a.state == .candidateBest <;> simp
  · simp only [byPeerView, toLex_le_toLex, beq_iff_eq] at hx hy ⊢
    have := peer_le_of_byPeerView_le hxy
    omega

theorem forgetTxHash_spec :
    ∃ s', forgetTxHash env txhash s = some s' ∧ Sane env.computer s' ∧
      s'.index.Perm (s.index.filter fun a => a.txhash != txhash) := by
  refine (eraseTxHash_spec (fun a b => txhash_le_of_view_le) (fun a ha b hb => eq_of_view_eq ha hb)
    h.exact (.lowerBound (fun a _ htx => ?_) fun x y hx hxy hy => ?_) (le_refl _)).imp
    fun s' ⟨hs', hexact, hp⟩ => ⟨hs', ⟨h.consistent.forget hp, hexact⟩, hp⟩
  · rw [beq_iff_eq] at htx
    simp only [TrackerEnv.byTxHashView, toLex_le_toLex, rank]
    omega
  · simp only [TrackerEnv.byTxHashView, toLex_le_toLex, beq_iff_eq] at hx hy ⊢
    have := txhash_le_of_view_le hxy
    omega

theorem receivedResponse_spec :
    ∃ s', receivedResponse env peer txhash s = some s' ∧ Sane env.computer s' := by
  unfold receivedResponse
  cases hfind : (s.findByPeer peer false txhash).or (s.findByPeer peer true txhash) with
  | none => exact ⟨s, rfl, h⟩
  | some it =>
    have hit : it ∈ s.index := by
      rcases Option.or_eq_some_iff.1 hfind with hf | ⟨-, hf⟩
      · exact mem_of_find?_eq_some hf
      · exact mem_of_find?_eq_some hf
    obtain ⟨it', s', hs', hsane, -⟩ := makeCompleted_spec h hit
    exact ⟨s', by simp [hs'], hsane⟩

end

theorem findByPeer_spec {best : Bool} (h : s.findByPeer peer best txhash = some it) :
    it ∈ s.index ∧ (it.state == .candidateBest) = best ∧ it.txhash = txhash := by
  refine ⟨mem_of_find?_eq_some h, ?_⟩
  have hview : it.byPeerView = toLex (peer, toLex (best, txhash)) := by
    have := find?_some h
    exact of_decide_eq_true this
  exact ⟨congrArg (fun v => (ofLex (ofLex v).2).1) hview,
    congrArg (fun v => (ofLex (ofLex v).2).2) hview⟩

theorem not_mem_of_findByPeer {best : Bool} (h : s.findByPeer peer best txhash = none)
    (ha : a ∈ s.index) (hpeer : a.peer = peer) (htx : a.txhash = txhash) :
    (a.state == .candidateBest) ≠ best := by
  intro hbest
  have := find?_eq_none.1 h a ha
  simp [byPeerView, hpeer, htx, hbest] at this

/-- **`ReceivedInv`** -/
theorem receivedInv_spec {computer : PriorityComputer} {gtxid : GenTxid} {preferred : Bool}
    {reqtime : Int} (h : Sane computer s) :
    Sane computer (s.receivedInv peer gtxid preferred reqtime) := by
  unfold receivedInv
  cases hbest : s.findByPeer peer true gtxid.hash with
  | some it => exact h
  | none =>
    cases hother : s.findByPeer peer false gtxid.hash with
    | some it => exact h
    | none =>
      simp only [Option.isSome_none, Bool.false_eq_true, if_false]
      constructor
      · exact @ConsistentIndex.move computer s.index _ [] [_] s.index gtxid.hash h.consistent (.refl _)
          (.refl _) (by simp) (by simp) fun hg => hg.insert rfl
      · constructor
        · rw [map_cons, nodup_cons]
          refine ⟨fun hmem => ?_, h.exact.peers⟩
          obtain ⟨a, ha, heq⟩ := mem_map.1 hmem
          rw [Prod.mk.injEq] at heq
          have h1 := not_mem_of_findByPeer hbest ha heq.1 heq.2
          have h2 := not_mem_of_findByPeer hother ha heq.1 heq.2
          grind
        · intro p
          simp only
          by_cases hp : p = peer
          · subst hp
            rw [Function.update_self, h.exact.info]
            exact (@recomputePeerInfo_cons_self s.index ⟨_, _, p, _, _, _, .candidateDelayed⟩).symm
          · rw [Function.update_of_ne hp, h.exact.info, recomputePeerInfo_cons_other (Ne.symm hp)]

/-- **`RequestedTx`** -/
theorem requestedTx_spec {expiry : Int} (h : Sane env.computer s) :
    ∃ s', requestedTx env peer txhash expiry s = some s' ∧ Sane env.computer s' := by
  let requested (it : Announcement) : Announcement :=
    { it with state := .requested, time := expiry }
  -- the announcement is requested in the last step, and nothing else is selected then
  have hrequest : ∀ it ∈ s.index, (∀ a ∈ s.index, a ≠ it → a.txhash = it.txhash → ¬ a.isSelected) →
      ∃ s', modify it (requested it) s = some s' ∧
        Sane env.computer s' := by
    intro it hit hnone
    obtain ⟨rest, hp⟩ := perm_cons_of_mem hit
    refine (modify_sane (requested it) h hp rfl rfl
      fun hg => hg.request ?_ rfl).imp fun s' hs' => ⟨hs'.1, hs'.2.1⟩
    intro a ha
    rw [mem_groupOf] at ha
    refine hnone a (hp.mem_iff.2 (mem_cons_of_mem it ha.1)) (fun heq => ?_) ha.2
    exact h.exact.not_mem_of_perm hp (heq ▸ ha.1)
  -- the one that was selected steps back first
  have hover : ∀ it ∈ s.index, ∀ old ∈ s.index, old ≠ it → old.txhash = it.txhash →
      old.isSelected → ∀ st, st = .candidateReady ∨ st = .completed →
      ∃ s', ((modify old (old.setState st) s).bind
        (modify it (requested it))) = some s' ∧
        Sane env.computer s' := by
    intro it hit old hold hne htx hsel st hst
    obtain ⟨rest, hp⟩ := perm_cons_cons_of_mem hit hold hne
    exact (modify_two_sane (requested it) h hp rfl rfl htx
      fun hg => hg.request_over hsel hst rfl).imp fun s' hs' => ⟨hs'.1, hs'.2.1⟩
  unfold requestedTx
  cases hbest : s.findByPeer peer true txhash with
  | some it =>
    obtain ⟨hit, hstate, -⟩ := findByPeer_spec hbest
    refine hrequest it hit fun a ha hne htx hsel => hne ?_
    exact h.consistent.selected_unique hit ha htx.symm
      (isSelected_iff.2 (.inl (eq_of_beq hstate))) hsel
  | none =>
    cases hother : s.findByPeer peer false txhash with
    | none => exact ⟨s, rfl, h⟩
    | some it =>
      obtain ⟨hit, -, htx⟩ := findByPeer_spec hother
      simp only
      split
      · exact ⟨s, rfl, h⟩
      have hitsel : ¬ it.isSelected := by
        rw [isSelected_iff]
        grind
      -- a selected announcement of the transaction does not stand before the lower bound
      have hlow : ∀ a ∈ s.index, a.txhash = txhash → a.isSelected →
          toLex (txhash, toLex (candidateBest.rank, toLex (0, 0))) ≤
            env.byTxHashView s.index a := by
        intro a _ hatx hasel
        have hrank : 2 ≤ a.state.rank := (rank_of_isSelected hasel).1
        have : candidateBest.rank = 2 := rfl
        simp only [TrackerEnv.byTxHashView, toLex_le_toLex]
        omega
      cases hold : lowerBound (env.byTxHashView s.index) s.index
          (toLex (txhash, toLex (candidateBest.rank, toLex (0, 0)))) with
      | none =>
        refine hrequest it hit fun a ha _ hatx hasel => ?_
        exact absurd (lt_of_lowerBound_eq_none hold ha)
          (not_lt.2 (hlow a ha (hatx.trans htx) hasel))
      | some old =>
        obtain ⟨holdmem, hkle⟩ := mem_of_lowerBound hold
        have hle : ∀ a ∈ s.index, a.txhash = txhash → a.isSelected →
            env.byTxHashView s.index old ≤ env.byTxHashView s.index a :=
          fun a ha hatx hasel => lowerBound_le hold ha (hlow a ha hatx hasel)
        have hne : old.isSelected → old ≠ it := fun hsel heq => hitsel (heq ▸ hsel)
        have hrank2 : candidateBest.rank = 2 := rfl
        simp only [TrackerEnv.byTxHashView, toLex_le_toLex] at hkle
        simp only
        split
        · refine hrequest it hit fun a ha _ hatx hasel => ?_
          have := txhash_le_of_view_le (hle a ha (hatx.trans htx) hasel)
          omega
        next hotx =>
        rw [not_not] at hotx
        split
        next hobest =>
          have hsel := isSelected_iff.2 (.inl hobest)
          exact hover it hit old holdmem (hne hsel) (hotx.trans htx.symm) hsel _ (.inl rfl)
        next hobest =>
        split
        next horeq =>
          have hsel := isSelected_iff.2 (.inr horeq)
          exact hover it hit old holdmem (hne hsel) (hotx.trans htx.symm) hsel _ (.inr rfl)
        next horeq =>
        refine hrequest it hit fun a ha _ hatx hasel => ?_
        have hrank := rank_le_of_view_le (hle a ha (hatx.trans htx) hasel)
          (hotx.trans (hatx.trans htx).symm)
        have hasel' := rank_of_isSelected hasel
        have := @isSelected_of_rank old (by omega) (by omega)
        rw [isSelected_iff] at this
        exact this.elim hobest horeq

end TxRequestTracker

theorem TrackerCall.step_sane {env : TrackerEnv} {s : TxRequestTracker} (h : Sane env.computer s)
    (call : TrackerCall) : ∃ s', call.step env s = some s' ∧ Sane env.computer s' := by
  cases call with
  | receivedInv peer gtxid preferred reqtime => exact ⟨_, rfl, receivedInv_spec h⟩
  | disconnectedPeer peer =>
    obtain ⟨s', hs', hsane, -⟩ := disconnectedPeer_spec h
    exact ⟨s', hs', hsane⟩
  | forgetTxHash txhash =>
    obtain ⟨s', hs', hsane, -⟩ := forgetTxHash_spec h
    exact ⟨s', hs', hsane⟩
  | requestedTx peer txhash expiry => exact requestedTx_spec h
  | receivedResponse peer txhash => exact receivedResponse_spec h
  | getRequestable peer now =>
    obtain ⟨s', hs', hsane, -⟩ := getRequestable_spec h
    exact ⟨s', hs', hsane⟩

/-- **Every sequence of calls**, whatever the order of equivalent keys in each of them: all calls
end and pass their assertions, `SanityCheck` passes after them, and
`PostGetRequestableSanityCheck` passes after a call of `GetRequestable`. -/
theorem TxRequestTracker.sane_calls (computer : PriorityComputer)
    (calls : List (Ties × TrackerCall)) :
    ∃ s, Runs.runAll (fun c => c.2.step ⟨computer, c.1⟩) calls {} = some s ∧ Sane computer s ∧
      ∀ ties peer now, ∃ s', TrackerCall.step ⟨computer, ties⟩ (.getRequestable peer now) s = some s' ∧
        Sane computer s' ∧ (∀ a ∈ s'.index, a.isWaiting → now < a.time) ∧
        ∀ a ∈ s'.index, a.isSelectable → a.time ≤ now := by
  have hrun : ∀ s, Sane computer s →
      ∃ s', Runs.runAll (fun c => c.2.step ⟨computer, c.1⟩) calls s = some s' ∧
        Sane computer s' := by
    induction calls with
    | nil => exact fun s h => ⟨s, rfl, h⟩
    | cons c calls ih =>
      intro s h
      obtain ⟨s₁, hs₁, hsane₁⟩ := @TrackerCall.step_sane ⟨computer, c.1⟩ s h c.2
      obtain ⟨s₂, hs₂, hsane₂⟩ := ih s₁ hsane₁
      exact ⟨s₂, by rw [Runs.runAll, hs₁, bind_some, hs₂], hsane₂⟩
  have hempty : Sane computer {} :=
    ⟨⟨by simp, by simp, by simp, by simp⟩, ⟨by simp, fun peer => by simp [recomputePeerInfo]⟩⟩
  obtain ⟨s, hs, hsane⟩ := hrun {} hempty
  exact ⟨s, hs, hsane, fun ties peer now => @getRequestable_spec ⟨computer, ties⟩ s peer now hsane⟩

end BitcoinPurity
