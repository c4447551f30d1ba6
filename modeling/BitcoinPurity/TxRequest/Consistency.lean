import Mathlib.Data.List.Nodup
import BitcoinPurity.TxRequest.Tracker

/-!
What `SanityCheck` asserts holds after every call of the request tracker.

`ConsistentIndex` is what it asserts of the announcements and `Exact` what it asserts of
`m_peerinfo`.
-/

namespace BitcoinPurity

open Sorted List Announcement PriorityComputer

/-- What `SanityCheck` asserts of the announcements of the same transaction. -/
structure ConsistentIndex (computer : PriorityComputer) (index : List Announcement) : Prop where
  live : ∀ a ∈ index, ∃ b ∈ index, b.txhash = a.txhash ∧ b.state ≠ .completed
  selected : index.Pairwise fun a b => a.txhash = b.txhash → ¬ (a.isSelected ∧ b.isSelected)
  ready : ∀ a ∈ index, a.state = .candidateReady →
    ∃ b ∈ index, b.txhash = a.txhash ∧ b.isSelected
  best : ∀ a ∈ index, ∀ b ∈ index, a.txhash = b.txhash → a.state = .candidateBest →
    b.state = .candidateReady → computer.of b ≤ computer.of a

/-- The same of the announcements of one transaction. -/
structure ConsistentGroup (computer : PriorityComputer) (group : List Announcement) : Prop where
  live : ∀ a ∈ group, ∃ b ∈ group, b.state ≠ .completed
  selected : group.Pairwise fun a b => ¬ (a.isSelected ∧ b.isSelected)
  ready : ∀ a ∈ group, a.state = .candidateReady → ∃ b ∈ group, b.isSelected
  best : ∀ a ∈ group, ∀ b ∈ group, a.state = .candidateBest → b.state = .candidateReady →
    computer.of b ≤ computer.of a

def groupOf (txhash : Nat) (index : List Announcement) : List Announcement :=
  index.filter fun a => a.txhash == txhash

section
variable {computer : PriorityComputer} {index index' old new rest : List Announcement}
  {a : Announcement} {txhash : Nat}

@[simp] theorem mem_groupOf : a ∈ groupOf txhash index ↔ a ∈ index ∧ a.txhash = txhash := by
  simp [groupOf]

theorem consistentIndex_iff : ConsistentIndex computer index ↔
      ∀ txhash, ConsistentGroup computer (groupOf txhash index) := by
  constructor
  · rintro ⟨hlive, hselected, hready, hbest⟩ txhash
    constructor
    · intro a ha
      rw [mem_groupOf] at ha
      obtain ⟨b, hb, htx, hst⟩ := hlive a ha.1
      exact ⟨b, mem_groupOf.2 ⟨hb, htx.trans ha.2⟩, hst⟩
    · refine pairwise_filter.2 (hselected.imp fun h ha hb => h ?_)
      rw [eq_of_beq ha, eq_of_beq hb]
    · intro a ha hst
      rw [mem_groupOf] at ha
      obtain ⟨b, hb, htx, hsel⟩ := hready a ha.1 hst
      exact ⟨b, mem_groupOf.2 ⟨hb, htx.trans ha.2⟩, hsel⟩
    · intro a ha b hb
      rw [mem_groupOf] at ha hb
      exact hbest a ha.1 b hb.1 (ha.2.trans hb.2.symm)
  · intro h
    constructor
    · intro a ha
      obtain ⟨b, hb, hst⟩ := (h a.txhash).live a (mem_groupOf.2 ⟨ha, rfl⟩)
      exact ⟨b, (mem_groupOf.1 hb).1, (mem_groupOf.1 hb).2, hst⟩
    · rw [pairwise_iff_forall_sublist]
      intro a b hsub htx
      have hpair := pairwise_filter.1 (h a.txhash).selected
      grind
    · intro a ha hst
      obtain ⟨b, hb, hsel⟩ := (h a.txhash).ready a (mem_groupOf.2 ⟨ha, rfl⟩) hst
      exact ⟨b, (mem_groupOf.1 hb).1, (mem_groupOf.1 hb).2, hsel⟩
    · intro a ha b hb htx
      exact (h a.txhash).best a (mem_groupOf.2 ⟨ha, rfl⟩) b (mem_groupOf.2 ⟨hb, htx.symm⟩)

theorem ConsistentGroup.perm {group group' : List Announcement}
    (h : ConsistentGroup computer group) (hp : group.Perm group') :
    ConsistentGroup computer group' := by
  obtain ⟨h1, h2, h3, h4⟩ := h
  simp only [hp.mem_iff] at h1 h3 h4
  exact ⟨h1, (hp.pairwise_iff fun h hs => h hs.symm).1 h2, h3, h4⟩

theorem groupOf_append_self (hold : ∀ a ∈ old, a.txhash = txhash) :
    groupOf txhash (old ++ rest) = old ++ groupOf txhash rest := by
  unfold groupOf
  rw [filter_append, filter_eq_self.2 fun a ha => by simp [hold a ha]]

theorem groupOf_append_other {t : Nat} (hold : ∀ a ∈ old, a.txhash = txhash) (ht : t ≠ txhash) :
    groupOf t (old ++ rest) = groupOf t rest := by
  unfold groupOf
  rw [filter_append, filter_eq_nil_iff.2 fun a ha => by simpa [hold a ha] using ht.symm, nil_append]

section
variable (h : ConsistentIndex computer index)
include h

/-- **One transaction at a time**: a change of announcements of one transaction that keeps its
group consistent keeps the index consistent. -/
theorem ConsistentIndex.move (hp : index.Perm (old ++ rest))
    (hp' : index'.Perm (new ++ rest)) (hold : ∀ a ∈ old, a.txhash = txhash)
    (hnew : ∀ a ∈ new, a.txhash = txhash)
    (hgroup : ConsistentGroup computer (old ++ groupOf txhash rest) →
      ConsistentGroup computer (new ++ groupOf txhash rest)) : ConsistentIndex computer index' := by
  rw [consistentIndex_iff] at h ⊢
  intro t
  have hpt := hp.filter fun a => a.txhash == t
  have hpt' := hp'.filter fun a => a.txhash == t
  by_cases ht : t = txhash
  · subst ht
    have hbefore := (h t).perm hpt
    change ConsistentGroup computer (groupOf t (old ++ rest)) at hbefore
    rw [groupOf_append_self hold] at hbefore
    refine (hgroup hbefore).perm ?_
    rw [← groupOf_append_self hnew]
    exact hpt'.symm
  · refine ((h t).perm hpt).perm ?_
    change (groupOf t (old ++ rest)).Perm _
    rw [groupOf_append_other hold ht, ← @groupOf_append_other new rest txhash t hnew ht]
    exact hpt'.symm

theorem ConsistentIndex.replace {it it' : Announcement}
    (hp : index.Perm (it :: rest)) (hp' : index'.Perm (it' :: rest)) (htx : it'.txhash = it.txhash)
    (hgroup : ConsistentGroup computer (it :: groupOf it.txhash rest) →
      ConsistentGroup computer (it' :: groupOf it.txhash rest)) : ConsistentIndex computer index' :=
  @ConsistentIndex.move computer index index' [it] [it'] rest it.txhash h hp hp' (by simp)
    (by simpa using htx) hgroup

theorem ConsistentIndex.replace_two {it it' r r' : Announcement} (hp : index.Perm (it :: r :: rest))
    (hp' : index'.Perm (it' :: r' :: rest)) (htx : it'.txhash = it.txhash)
    (hr : r.txhash = it.txhash) (hr' : r'.txhash = it.txhash)
    (hgroup : ConsistentGroup computer (it :: r :: groupOf it.txhash rest) →
      ConsistentGroup computer (it' :: r' :: groupOf it.txhash rest)) :
    ConsistentIndex computer index' :=
  @ConsistentIndex.move computer index index' [it, r] [it', r'] rest it.txhash h hp hp'
    (by simpa using hr) (by simpa using ⟨htx, hr'⟩) hgroup

end

end

/-! ## Moves in a group -/

section

variable (a : Announcement) (st : AnnouncementState)

@[simp] theorem Announcement.setState_state : (a.setState st).state = st := rfl
@[simp] theorem Announcement.setState_txhash : (a.setState st).txhash = a.txhash := rfl
@[simp] theorem Announcement.setState_peer : (a.setState st).peer = a.peer := rfl
@[simp] theorem Announcement.setState_time : (a.setState st).time = a.time := rfl

end

@[simp] theorem PriorityComputer.of_setState (computer : PriorityComputer) (a : Announcement)
    (st : AnnouncementState) : computer.of (a.setState st) = computer.of a := rfl

theorem Announcement.isSelected_iff {a : Announcement} :
    a.isSelected ↔ a.state = .candidateBest ∨ a.state = .requested := by
  simp [isSelected]

namespace ConsistentGroup

variable {computer : PriorityComputer} {it it' r b old : Announcement} {group : List Announcement}
  {st : AnnouncementState}

theorem cons_iff : ConsistentGroup computer (it :: group) ↔
    ((it.state ≠ .completed ∨ ∃ b ∈ group, b.state ≠ .completed) ∧
      (∀ b ∈ group, ¬ (it.isSelected ∧ b.isSelected)) ∧
      (group.Pairwise fun a b => ¬ (a.isSelected ∧ b.isSelected)) ∧
      ((it.state = .candidateReady ∨ ∃ a ∈ group, a.state = .candidateReady) →
        it.isSelected ∨ ∃ b ∈ group, b.isSelected) ∧
      (it.state = .candidateBest → ∀ b ∈ group, b.state = .candidateReady →
        computer.of b ≤ computer.of it) ∧
      (it.state = .candidateReady → ∀ b ∈ group, b.state = .candidateBest →
        computer.of it ≤ computer.of b) ∧
      ∀ a ∈ group, ∀ b ∈ group, a.state = .candidateBest → b.state = .candidateReady →
        computer.of b ≤ computer.of a) := by
  constructor
  · rintro ⟨h1, h2, h3, h4⟩
    rw [pairwise_cons] at h2
    grind
  · rintro ⟨h1, h2, h3, h4, h5, h6, h7⟩
    constructor
    · intro a _
      simpa only [exists_mem_cons_iff] using h1
    · exact pairwise_cons.2 ⟨h2, h3⟩
    · intro a ha hr
      rw [exists_mem_cons_iff]
      rcases mem_cons.1 ha with rfl | ha
      · exact h4 (.inl hr)
      · exact h4 (.inr ⟨a, ha, hr⟩)
    · grind

section

variable (h : ConsistentGroup computer (it :: group))
include h

theorem demote (hst : st = .completed ∨ st = .candidateDelayed)
    (hready : it.isSelected → ∀ a ∈ group, a.state ≠ .candidateReady)
    (hlive : st = .completed → ∃ a ∈ group, a.state ≠ .completed) :
    ConsistentGroup computer (it.setState st :: group) := by
  rw [cons_iff] at h ⊢
  simp only [isSelected_iff, setState_state] at *
  grind

omit h in
theorem reselect (h : ConsistentGroup computer (it :: r :: group))
    (hst : st = .completed ∨ st = .candidateDelayed) (hit : it.isSelected)
    (hmax : ∀ a ∈ group, a.state = .candidateReady → computer.of a ≤ computer.of r) :
    ConsistentGroup computer (it.setState st :: r.setState .candidateBest :: group) := by
  rw [cons_iff] at h ⊢
  simp only [isSelected_iff, setState_state, forall_mem_cons,
    exists_mem_cons_iff, pairwise_cons, of_setState] at *
  grind

theorem promote_first (hit : it.state = .candidateDelayed) (hnone : ∀ a ∈ group, ¬ a.isSelected) :
    ConsistentGroup computer (it.setState .candidateBest :: group) := by
  -- a ready one would stand behind a selected one
  have hready : ∀ a ∈ group, a.state ≠ .candidateReady := by
    intro a ha hr
    obtain ⟨b, hb, hsel⟩ := h.ready a (mem_cons_of_mem it ha) hr
    rcases mem_cons.1 hb with rfl | hb
    · simp [isSelected_iff, hit] at hsel
    · exact hnone b hb hsel
  rw [cons_iff] at h ⊢
  simp only [isSelected_iff, setState_state, of_setState] at *
  grind

theorem promote_behind (hsel : ∃ a ∈ group, a.isSelected)
    (hle : ∀ a ∈ group, a.state = .candidateBest → computer.of it ≤ computer.of a) :
    ConsistentGroup computer (it.setState .candidateReady :: group) := by
  rw [cons_iff] at h ⊢
  simp only [isSelected_iff, setState_state, of_setState] at *
  grind

omit h in
theorem promote_above (h : ConsistentGroup computer (it :: b :: group))
    (hb : b.state = .candidateBest) (hlt : computer.of b < computer.of it) :
    ConsistentGroup computer
      (it.setState .candidateBest :: b.setState .candidateReady :: group) := by
  rw [cons_iff] at h ⊢
  simp only [isSelected_iff, setState_state, forall_mem_cons,
    exists_mem_cons_iff, pairwise_cons, of_setState] at *
  grind

theorem request (hnone : ∀ a ∈ group, ¬ a.isSelected) (hit' : it'.state = .requested) :
    ConsistentGroup computer (it' :: group) := by
  rw [cons_iff] at h ⊢
  simp only [isSelected_iff] at *
  grind

omit h in
theorem request_over (h : ConsistentGroup computer (it :: old :: group))
    (hold : old.isSelected) (hst : st = .candidateReady ∨ st = .completed)
    (hit' : it'.state = .requested) :
    ConsistentGroup computer (it' :: old.setState st :: group) := by
  rw [cons_iff] at h ⊢
  simp only [isSelected_iff, setState_state, forall_mem_cons,
    exists_mem_cons_iff, pairwise_cons, of_setState] at *
  grind

theorem erase (hit : it.state = .completed) : ConsistentGroup computer group := by
  obtain ⟨h1, h2, h3, h4⟩ := h
  simp only [forall_mem_cons, exists_mem_cons_iff] at h1 h3 h4
  refine ⟨fun a ha => ?_, (pairwise_cons.1 h2).2, fun a ha hr => ?_, fun a ha => ?_⟩
  · exact (h1.2 a ha).resolve_left (not_not.2 hit)
  · refine (h3.2 a ha hr).resolve_left ?_
    simp [isSelected_iff, hit]
  · exact (h4.2 a ha).2

end

theorem insert (h : ConsistentGroup computer group) (hit : it.state = .candidateDelayed) :
    ConsistentGroup computer (it :: group) := by
  obtain ⟨h1, h2, h3, h4⟩ := h
  rw [cons_iff]
  simp only [isSelected_iff] at *
  grind

end ConsistentGroup

/-! ## The counters of the peers -/

/-- No two announcements share peer and transaction, and `m_peerinfo` is what
`RecomputePeerInfo` gives. -/
structure Exact (s : TxRequestTracker) : Prop where
  peers : (s.index.map fun a => (a.peer, a.txhash)).Nodup
  info : ∀ peer, s.peerinfo peer = recomputePeerInfo s.index peer

section
variable {index rest : List Announcement} {it ann : Announcement} {peer : Int}

theorem recomputePeerInfo_perm (h : index.Perm rest) :
    recomputePeerInfo index peer = recomputePeerInfo rest peer := by
  have hp := h.filter fun a => a.peer == peer
  simp only [recomputePeerInfo, hp.length_eq, hp.countP_eq, isEmpty_iff_length_eq_zero]

theorem countP_cons_toNat (p : Announcement → Bool) :
    (it :: rest).countP p = rest.countP p + (p it).toNat := by
  rw [countP_cons]
  cases p it <;> rfl

theorem recomputePeerInfo_cons_self : recomputePeerInfo (it :: rest) it.peer =
      some { ((recomputePeerInfo rest it.peer).getD {}).more it.state with
        total := ((recomputePeerInfo rest it.peer).getD {}).total + 1 } := by
  have hcons : ((it :: rest).filter fun a => a.peer == it.peer) =
      it :: rest.filter fun a => a.peer == it.peer := by simp
  unfold recomputePeerInfo
  simp only [hcons, countP_cons_toNat, isEmpty_cons, Bool.false_eq_true, if_false]
  by_cases h : (rest.filter fun a => a.peer == it.peer) = []
  · simp [h, PeerInfo.more]
  · simp [h, PeerInfo.more]

theorem recomputePeerInfo_cons_other (h : it.peer ≠ peer) :
    recomputePeerInfo (it :: rest) peer = recomputePeerInfo rest peer := by
  simp [recomputePeerInfo, h]

theorem recomputePeerInfo_total_ne_zero {info : PeerInfo}
    (h : recomputePeerInfo index peer = some info) : info.total ≠ 0 := by
  unfold recomputePeerInfo at h
  by_cases hnil : (index.filter fun a => a.peer == peer) = []
  · simp [hnil] at h
  simp only [List.isEmpty_iff, hnil, if_false, Option.some.injEq] at h
  subst h
  exact fun hlen => hnil (List.length_eq_zero_iff.1 hlen)

end

namespace TxRequestTracker

variable {s : TxRequestTracker} {it ann : Announcement} {rest : List Announcement}

theorem perm_cons_erase_iff {index : List Announcement} (h : index.Perm (it :: rest)) :
    (index.erase it).Perm rest := by
  have := h.erase it
  rwa [erase_cons_head] at this

/-- **`Erase`** keeps the counters exact. -/
theorem erase_spec (h : Exact s) (hp : s.index.Perm (it :: rest)) :
    ∃ s', erase it s = some s' ∧ Exact s' ∧ s'.index.Perm rest := by
  have herase := perm_cons_erase_iff hp
  have hinfo : s.peerinfo it.peer = _ := (h.info it.peer).trans
    ((recomputePeerInfo_perm hp).trans recomputePeerInfo_cons_self)
  unfold erase
  rw [hinfo]
  refine ⟨_, rfl, ⟨?_, ?_⟩, herase⟩
  · have hnodup := (hp.map _).nodup_iff.1 h.peers
    grind
  · intro peer
    simp only
    rw [recomputePeerInfo_perm herase]
    by_cases hpeer : peer = it.peer
    · subst hpeer
      rw [Function.update_self]
      cases hrest : recomputePeerInfo rest it.peer with
      | none => simp [PeerInfo.more, PeerInfo.less]
      | some info =>
        simp [PeerInfo.more, PeerInfo.less, recomputePeerInfo_total_ne_zero hrest]
    · rw [Function.update_of_ne hpeer, h.info, recomputePeerInfo_perm hp,
        recomputePeerInfo_cons_other (Ne.symm hpeer)]

/-- **`Modify`** finds the counters of the peer, clashes with no other announcement and keeps the
counters exact. -/
theorem modify_spec (h : Exact s) (hp : s.index.Perm (it :: rest)) (hpeer : ann.peer = it.peer)
    (htx : ann.txhash = it.txhash) :
    ∃ s', modify it ann s = some s' ∧ Exact s' ∧ s'.index.Perm (ann :: rest) := by
  have herase := perm_cons_erase_iff hp
  have hinfo : s.peerinfo it.peer = _ := (h.info it.peer).trans
    ((recomputePeerInfo_perm hp).trans recomputePeerInfo_cons_self)
  have hnodup := (hp.map _).nodup_iff.1 h.peers
  rw [map_cons, nodup_cons] at hnodup
  have hguard : ((s.index.erase it).all fun other =>
      decide (other.byPeerView ≠ ann.byPeerView)) := by
    rw [all_eq_true]
    intro other hother
    refine decide_eq_true fun heq => hnodup.1 ?_
    have hpeer' : other.peer = ann.peer := congrArg (fun v => (ofLex v).1) heq
    have htx' : other.txhash = ann.txhash := congrArg (fun v => (ofLex (ofLex v).2).2) heq
    grind
  unfold modify
  rw [hinfo, hguard]
  refine ⟨_, rfl, ⟨?_, ?_⟩, herase.cons ann⟩
  · grind
  · intro peer
    simp only
    rw [recomputePeerInfo_perm (herase.cons ann)]
    by_cases hp' : peer = it.peer
    · subst hp'
      rw [Function.update_self, ← hpeer, recomputePeerInfo_cons_self]
      simp [PeerInfo.more, PeerInfo.less]
    rw [Function.update_of_ne hp', h.info, recomputePeerInfo_perm hp,
      recomputePeerInfo_cons_other (Ne.symm hp'),
      recomputePeerInfo_cons_other (hpeer ▸ Ne.symm hp')]

end TxRequestTracker

end BitcoinPurity
