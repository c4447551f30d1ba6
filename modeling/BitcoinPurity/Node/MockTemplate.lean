import Mathlib.Algebra.BigOperators.Pi
import Mathlib.Algebra.Order.BigOperators.Group.Finset
import BitcoinPurity.Lib.Ancestry
import BitcoinPurity.Node.MiniMiner

/-!
# The mock template

What `BuildMockTemplate` leaves.  `Sound` says that the totals of the entries are those over the
ancestors that are left and that the cached descendants are those that are left;
`templateLoop_spec`: the loop ends, the transactions in the block have their parents there, and the
entries that are left are sound and fall short of the target (`Sound.bumpFee_pos`).
-/

namespace BitcoinPurity

open Each Explore LastBy Relation Ancestry Finset Option MiniMinerMempoolEntry

namespace MiniMinerMempoolEntry

section

variable (e : MiniMinerMempoolEntry)

def own : ℤ × ℤ := (e.vsizeIndividual, e.feeIndividual)

def totals : ℤ × ℤ := (e.vsizeWithAncestors, e.feeWithAncestors)

theorem updateAncestorState_zero : e.updateAncestorState 0 0 = e := by
  simp [updateAncestorState]

end

end MiniMinerMempoolEntry

namespace MiniMiner

variable {m m' m'' : MiniMiner} {A A' : Finset Nat} {x y : Nat}

def Spends (m : MiniMiner) (p c : Nat) : Prop := c ∈ m.entries ∧ p ∈ m.parents c

theorem mem_parents {p c : Nat} :
    p ∈ m.parents c ↔ p ∈ m.entries ∧ ∃ i ∈ (m.entry c).tx.vin, i.prevout.hash = p := by
  rw [parents, mem_inter, List.mem_toFinset, List.mem_map]
  exact and_comm

open Classical in
/-- An entry and its ancestors among the entries. -/
noncomputable def ancestors (m : MiniMiner) (x : Nat) : Finset Nat :=
  m.entries.filter fun a => ReflTransGen m.Spends a x

theorem mem_ancestors {a : Nat} :
    a ∈ m.ancestors x ↔ a ∈ m.entries ∧ ReflTransGen m.Spends a x := by
  classical
  exact mem_filter

/-- **The totals are those over the ancestors that are left**, and the cached descendants are
those that are left. -/
structure Sound (m : MiniMiner) : Prop where
  totals : ∀ x ∈ m.entries, (m.entry x).totals = ∑ a ∈ m.ancestors x, (m.entry a).own
  descendants : ∀ x ∈ m.entries, ∃ s, m.descendantSet x = some s ∧
    ∀ d, d ∈ s ↔ d ∈ m.entries ∧ ReflTransGen m.Spends x d

theorem vsizeWithAncestors_eq {e : MiniMinerMempoolEntry}
    (h : e.totals = ∑ a ∈ A, (m.entry a).own) :
    e.vsizeWithAncestors = ∑ a ∈ A, (m.entry a).vsizeIndividual :=
  (congrArg Prod.fst h).trans (Prod.fst_sum ..)

theorem feeWithAncestors_eq {e : MiniMinerMempoolEntry}
    (h : e.totals = ∑ a ∈ A, (m.entry a).own) :
    e.feeWithAncestors = ∑ a ∈ A, (m.entry a).feeIndividual :=
  (congrArg Prod.snd h).trans (Prod.snd_sum ..)

theorem vsizeIndividual_le {e : MiniMinerMempoolEntry}
    (h : e.totals = ∑ a ∈ A, (m.entry a).own) (hx : x ∈ A) :
    (m.entry x).vsizeIndividual ≤ e.vsizeWithAncestors := by
  rw [vsizeWithAncestors_eq h]
  exact single_le_sum
    (fun a _ => (m.entry a).size_pos.le) hx

theorem Sound.vsizeIndividual_le (h : Sound m) (hx : x ∈ m.entries) :
    (m.entry x).vsizeIndividual ≤ (m.entry x).vsizeWithAncestors :=
  MiniMiner.vsizeIndividual_le (h.totals x hx) (mem_ancestors.2 ⟨hx, .refl⟩)

theorem Sound.vsizeWithAncestors_pos (h : Sound m) (hx : x ∈ m.entries) :
    0 < (m.entry x).vsizeWithAncestors :=
  (m.entry x).size_pos.trans_le (h.vsizeIndividual_le hx)

/-! ## Putting entries into the block -/

theorem forEach_updateEntry {s : Finset Nat} (hs : s ⊆ m.entries) (vsize fee : Int) :
    forEach s (updateEntry vsize fee) m = some { m with
      entry := fun x =>
        if x ∈ s then (m.entry x).updateAncestorState vsize fee else m.entry x } := by
  refine forEach_eq (g := fun d => { m with
    entry := fun x =>
      if x ∈ d then (m.entry x).updateAncestorState vsize fee else m.entry x }) ?_ ?_
  · simp
  · intro d x hx hxd
    rw [updateEntry, if_pos (hs hx), some_inj, MiniMiner.mk.injEq]
    grind

section

variable (D : Nat → Finset Nat) (done : Finset Nat) (m : MiniMiner)

/-- The miner when some entries have been put into the block, where the descendants are `D`. -/
def mined : MiniMiner :=
  { m with
    inBlock := m.inBlock ∪ done
    totalFees := m.totalFees + ∑ a ∈ done, (m.entry a).feeIndividual
    totalVsize := m.totalVsize + ∑ a ∈ done, (m.entry a).vsizeIndividual
    entry := fun x => (m.entry x).updateAncestorState
      (∑ a ∈ done.filter (fun a => x ∈ D a), -(m.entry a).vsizeIndividual)
      (∑ a ∈ done.filter (fun a => x ∈ D a), -(m.entry a).feeIndividual) }

/-- The miner when they have been deleted as well. -/
def deleted : MiniMiner :=
  { m.mined D done with
    descendantSet := fun x => if x ∈ done then none else m.descendantSet x
    entries := m.entries \ done }

end

theorem forEach_mine {D : Nat → Finset Nat}
    (hD : ∀ a ∈ A, m.descendantSet a = some (D a)) (hsub : ∀ a ∈ A, D a ⊆ m.entries) :
    forEach A mine m = some (m.mined D A) := by
  refine forEach_eq (g := fun d => m.mined D d) ?_ ?_
  · simp [mined, updateAncestorState_zero]
  · intro d a ha had
    have hdesc : (m.mined D d).descendantSet a = some (D a) := hD a ha
    rw [mine]
    simp only [hdesc]
    refine (forEach_updateEntry ?_ _ _).trans ?_
    · exact hsub a ha
    rw [some_inj, mined, mined, MiniMiner.mk.injEq]
    refine ⟨rfl, rfl, rfl, rfl, rfl, rfl, ?_, ?_, ?_, rfl, ?_, rfl⟩
    · exact (union_insert a m.inBlock d).symm
    · rw [sum_insert had, add_comm (m.entry a).feeIndividual, ← add_assoc]
      rfl
    · rw [sum_insert had, add_comm (m.entry a).vsizeIndividual, ← add_assoc]
      rfl
    · funext x
      have hnot : a ∉ d.filter (fun a => x ∈ D a) := fun h => had (mem_filter.1 h).1
      rw [filter_insert]
      by_cases hx : x ∈ D a
      · rw [if_pos hx, if_pos hx, sum_insert hnot, sum_insert hnot]
        simp [updateAncestorState, add_left_comm, add_comm]
      · rw [if_neg hx, if_neg hx]

/-! ## A package -/

/-- Some entries with all their ancestors are moved into the block; what was requested and the
transactions stay as they are. -/
structure Packs (m m' : MiniMiner) (A : Finset Nat) : Prop where
  subset : A ⊆ m.entries
  up : ∀ p c, c ∈ A → m.Spends p c → p ∈ A
  entries : m'.entries = m.entries \ A
  inBlock : m'.inBlock = m.inBlock ∪ A
  requestedTxids : m'.requestedTxids = m.requestedTxids
  requestedOutpoints : m'.requestedOutpoints = m.requestedOutpoints
  bumpFees : m'.bumpFees = m.bumpFees
  tx : ∀ x, (m'.entry x).tx = (m.entry x).tx
  own : ∀ x, (m'.entry x).own = (m.entry x).own

namespace Packs

theorem refl (m : MiniMiner) : Packs m m ∅ where
  subset := empty_subset _
  up := fun _ c hc => absurd hc (notMem_empty c)
  entries := sdiff_empty.symm
  inBlock := (union_empty _).symm
  requestedTxids := rfl
  requestedOutpoints := rfl
  bumpFees := rfl
  tx := fun _ => rfl
  own := fun _ => rfl

theorem mem_entries (h : Packs m m' A) : x ∈ m'.entries ↔ x ∈ m.entries ∧ x ∉ A := by
  rw [h.entries, mem_sdiff]

theorem spends (h : Packs m m' A) (p c : Nat) : m'.Spends p c ↔ m.Spends p c ∧ p ∉ A ∧ c ∉ A := by
  rw [Spends, Spends, mem_parents, mem_parents, h.mem_entries, h.mem_entries, h.tx]
  tauto

theorem trans (h : Packs m m' A) (h' : Packs m' m'' A') : Packs m m'' (A ∪ A') where
  subset := by
    refine union_subset h.subset fun x hx => ?_
    exact (h.mem_entries.1 (h'.subset hx)).1
  up := by
    intro p c hc hpc
    by_cases hp : p ∈ A
    · exact mem_union_left _ hp
    by_cases hcA : c ∈ A
    · exact absurd (h.up p c hcA hpc) hp
    have hc := (mem_union.1 hc).resolve_left hcA
    exact mem_union_right _ (h'.up p c hc ((h.spends p c).2 ⟨hpc, hp, hcA⟩))
  entries := by rw [h'.entries, h.entries, sdiff_sdiff_left, sup_eq_union]
  inBlock := by rw [h'.inBlock, h.inBlock, union_assoc]
  requestedTxids := h'.requestedTxids.trans h.requestedTxids
  requestedOutpoints := h'.requestedOutpoints.trans h.requestedOutpoints
  bumpFees := h'.bumpFees.trans h.bumpFees
  tx := fun x => (h'.tx x).trans (h.tx x)
  own := fun x => (h'.own x).trans (h.own x)

theorem reflTransGen (h : Packs m m' A) (hx : x ∉ A) {a : Nat} :
    ReflTransGen m'.Spends a x ↔ ReflTransGen m.Spends a x ∧ a ∉ A := by
  rw [reflTransGen_iff_eq_or_transGen, reflTransGen_iff_eq_or_transGen,
    transGen_removeUp h.spends h.up]
  grind

theorem ancestors (h : Packs m m' A) (hx : x ∉ A) : m'.ancestors x = m.ancestors x \ A := by
  ext a
  rw [mem_ancestors, mem_sdiff, mem_ancestors, h.mem_entries, h.reflTransGen hx]
  tauto

end Packs

theorem Sound.totals_mined (h : Sound m) {D : Nat → Finset Nat}
    (hmem : ∀ a ∈ m.entries, ∀ d, d ∈ D a ↔ d ∈ m.entries ∧ ReflTransGen m.Spends a d)
    (hA : A ⊆ m.entries) (hx : x ∈ m.entries) :
    ((m.mined D A).entry x).totals = ∑ a ∈ m.ancestors x \ A, (m.entry a).own := by
  have hdeducted : A.filter (fun a => x ∈ D a) = m.ancestors x ∩ A := by
    ext a
    rw [mem_filter, mem_inter, mem_ancestors, and_comm]
    grind
  have htotals : ((m.mined D A).entry x).totals =
      (m.entry x).totals - ∑ a ∈ m.ancestors x ∩ A, (m.entry a).own := by
    show (m.entry x).totals + (∑ a ∈ A.filter (x ∈ D ·), -(m.entry a).vsizeIndividual,
      ∑ a ∈ A.filter (x ∈ D ·), -(m.entry a).feeIndividual) = _
    rw [hdeducted, sub_eq_add_neg, sum_neg_distrib, sum_neg_distrib]
    congr 1
    refine Prod.ext ?_ ?_
    · rw [Prod.fst_neg, Prod.fst_sum]
      rfl
    · rw [Prod.snd_neg, Prod.snd_sum]
      rfl
  rw [htotals, h.totals x hx, sub_eq_iff_eq_add',
    ← sum_sdiff inter_subset_left, add_comm,
    sdiff_inter_self_left]

/-- What `DeleteAncestorPackage` assumes of each transaction when it is mined, which is after those
of lower txids, and of all of them when they are deleted.  Mining one changes each of its
descendants once. -/
structure DeleteAssumes (A : Finset Nat) (m : MiniMiner) : Prop where
  nonempty : A.Nonempty
  mine : ∀ a ∈ A, ∃ m', forEach (A.filter (· < a)) mine m = some m' ∧ a ∉ m'.inBlock ∧
    ∃ s, m'.descendantSet a = some s ∧
      ∀ d ∈ s, (m'.entry a).vsizeIndividual ≤ (m'.entry d).vsizeWithAncestors
  delete : ∃ m', forEach A MiniMiner.mine m = some m' ∧
    ∀ a ∈ A, (m'.entry a).totals = 0 ∧ a ∈ m'.entries

theorem Sound.deleteAncestorPackage (h : Sound m) (hfresh : Disjoint m.inBlock m.entries)
    (hne : A.Nonempty) (hA : A ⊆ m.entries) (hup : ∀ p c, c ∈ A → m.Spends p c → p ∈ A) :
    ∃ D, m.deleteAncestorPackage A = some (m.deleted D A) ∧ DeleteAssumes A m ∧
      Packs m (m.deleted D A) A ∧ Sound (m.deleted D A) := by
  choose! D hD hmem using h.descendants
  have hmine {d : Finset Nat} (hd : d ⊆ A) : forEach d mine m = some (m.mined D d) :=
    forEach_mine (fun a ha => hD a (hA (hd ha))) fun a ha x hx => ((hmem a (hA (hd ha)) x).1 hx).1
  have hpacks : Packs m (m.deleted D A) A :=
    ⟨hA, hup, rfl, rfl, rfl, rfl, rfl, fun _ => rfl, fun _ => rfl⟩
  have hall {a b : Nat} (hab : ReflTransGen m.Spends a b) hb : a ∈ A :=
    ReflTransGen.head_induction_on hab hb fun {p c} hpc _ hc => hup p c hc hpc
  refine ⟨D, ?_, ⟨hne, fun a ha => ?_, _, hmine subset_rfl, fun a ha => ⟨?_, hA ha⟩⟩, hpacks,
    fun x hx => ?_, fun x hx => ?_⟩
  · rw [MiniMiner.deleteAncestorPackage, hmine subset_rfl]
    rfl
  · have hsub := filter_subset (· < a) A
    refine ⟨_, hmine hsub, fun hin => ?_, D a, hD a (hA ha), fun d hd => ?_⟩
    · rcases mem_union.1 hin with hin | hin
      · exact disjoint_left.1 hfresh hin (hA ha)
      · exact lt_irrefl a (mem_filter.1 hin).2
    · obtain ⟨hd, had⟩ := (hmem a (hA ha) d).1 hd
      refine MiniMiner.vsizeIndividual_le (h.totals_mined hmem (hsub.trans hA) hd) (mem_sdiff.2 ⟨?_, ?_⟩)
      · exact mem_ancestors.2 ⟨hA ha, had⟩
      · exact fun hin => lt_irrefl a (mem_filter.1 hin).2
  · rw [h.totals_mined hmem hA (hA ha), sdiff_eq_empty_iff_subset.2, sum_empty]
    exact fun b hb => hall (mem_ancestors.1 hb).2 ha
  · obtain ⟨hx, hxA⟩ := hpacks.mem_entries.1 hx
    refine (h.totals_mined hmem hA hx).trans ?_
    rw [hpacks.ancestors hxA]
    rfl
  · obtain ⟨hx, hxA⟩ := hpacks.mem_entries.1 hx
    refine ⟨D x, ?_, fun d => ?_⟩
    · show (if x ∈ A then none else m.descendantSet x) = some (D x)
      rw [if_neg hxA, hD x hx]
    · rw [hmem x hx, hpacks.mem_entries]
      constructor
      · rintro ⟨hd, hxd⟩
        have hdA : d ∉ A := fun hdA => hxA (hall hxd hdA)
        exact ⟨⟨hd, hdA⟩, (hpacks.reflTransGen hdA).2 ⟨hxd, hxA⟩⟩
      · rintro ⟨⟨hd, hdA⟩, hxd⟩
        exact ⟨hd, ((hpacks.reflTransGen hdA).1 hxd).1⟩

/-! ## The best entry -/

theorem Sound.minFeerate_size_pos (h : Sound m) (hx : x ∈ m.entries) :
    0 < (m.entry x).minFeerate.size :=
  FeeFrac.size_min_pos (h.vsizeWithAncestors_pos hx) (m.entry x).size_pos

/-- Where an entry stands in the order of the entries: first the feerate, then the txid. -/
def rank (m : MiniMiner) (x : Nat) : (ℚ ×ₗ ℤ) ×ₗ ℕᵒᵈ :=
  toLex ((m.entry x).minFeerate.key, OrderDual.toDual x)

theorem Sound.comesBefore_iff (h : Sound m) (hx : x ∈ m.entries) (hy : y ∈ m.entries) :
    m.comesBefore y x ↔ m.rank x < m.rank y := by
  have hxs := h.minFeerate_size_pos hx
  have hys := h.minFeerate_size_pos hy
  rw [comesBefore, rank, rank, Prod.Lex.toLex_lt_toLex, ← FeeFrac.lt_iff_key hxs hys,
    FeeFrac.key_inj hxs hys]
  by_cases heq : (m.entry y).minFeerate = (m.entry x).minFeerate
  · have hirr : ((m.entry x).minFeerate.lt (m.entry x).minFeerate) = false := by
      simp [FeeFrac.lt]
    simp [heq, hirr]
  · grind

theorem best_eq_none : m.best = none ↔ m.entries = ∅ := by
  have hmem x : x ∈ ascending m.entries.card m.entries ↔ x ∈ m.entries :=
    mem_ascending le_rfl
  constructor
  · intro h
    refine eq_empty_of_forall_notMem fun x hx => ?_
    have := (hmem x).2 hx
    rw [lastBy_eq_none h] at this
    exact List.not_mem_nil this
  · intro h
    rw [best, h]
    rfl

theorem mem_of_best (h : m.best = some x) : x ∈ m.entries :=
  (mem_ascending le_rfl).1 (lastBy_mem h)

theorem Sound.best_max (h : Sound m) (hx : m.best = some x) (hy : y ∈ m.entries) :
    (m.entry y).minFeerate.fee * (m.entry x).minFeerate.size ≤
      (m.entry x).minFeerate.fee * (m.entry y).minFeerate.size := by
  have hmem x : x ∈ ascending m.entries.card m.entries ↔ x ∈ m.entries :=
    mem_ascending le_rfl
  have hbefore : ∀ a ∈ ascending m.entries.card m.entries,
      ∀ b ∈ ascending m.entries.card m.entries, m.comesBefore b a ↔ m.rank a < m.rank b :=
    fun a ha b hb => h.comesBefore_iff ((hmem a).1 ha) ((hmem b).1 hb)
  have hle := le_key_lastBy hbefore hx y ((hmem y).2 hy)
  refine FeeFrac.cross_le_of_not_lt (Bool.eq_false_iff.2 fun hlt => ?_)
  rw [FeeFrac.lt_iff_key (h.minFeerate_size_pos (mem_of_best hx)) (h.minFeerate_size_pos hy)] at hlt
  exact absurd (Prod.Lex.toLex_lt_toLex.2 (.inl hlt)) (not_lt.2 hle)

/-! ## The loop -/

/-- The best entry, if there is one, does not reach the target. -/
def Stopped (targetFeerate : Option Int) (m : MiniMiner) : Prop :=
  ∀ x, m.best = some x → ∃ rate, targetFeerate = some rate ∧
    (m.entry x).feeWithAncestors < getFee rate (m.entry x).vsizeWithAncestors

theorem exploreParents_spec {stage : Finset Nat} (hs : stage ⊆ m.entries) :
    ∃ r, explore m.parents m.entries.card stage ∅ = some r ∧
      ∀ a, a ∈ r ↔ ∃ x ∈ stage, a ∈ m.ancestors x := by
  have hfrontier : Frontier m.parents m.entries stage ∅ :=
    ⟨hs, fun x _ => inter_subset_right, disjoint_empty_right _, by simp⟩
  have hfuel : (m.entries \ ∅).card ≤ m.entries.card := by rw [sdiff_empty]
  obtain ⟨r, heq, hmem⟩ := explore_spec hfrontier hfuel
  refine ⟨r, heq, fun a => ?_⟩
  have hiff {x : Nat} (hx : x ∈ m.entries) : Reaches m.parents x a ↔ a ∈ m.ancestors x := by
    rw [reaches_iff ?_ ?_ hx, reflTransGen_swap,
      mem_ancestors]
    · refine ⟨fun h => ⟨?_, h⟩, fun h => h.2⟩
      rcases ReflTransGen.cases_head h with rfl | ⟨b, hab, -⟩
      · exact hx
      · exact (mem_parents.1 hab.2).1
    · exact fun x hx y => ⟨fun h => ⟨hx, h⟩, fun h => h.2⟩
    · exact fun x y h => (mem_parents.1 h.2).1
  simp only [hmem, notMem_empty, false_or]
  exact exists_congr fun x => and_congr_right fun hx => hiff (hs hx)

theorem Sound.emplaceOrder (h : Sound m) (s : Finset Nat) (n : Nat) : Sound (m.emplaceOrder s n) :=
  ⟨h.totals, h.descendants⟩

/-- The conditions of `SanityCheck`; `m_entries` and `m_entries_by_txid` are one set here. -/
structure SanityCheck (m : MiniMiner) : Prop where
  cached : ∀ x, (m.descendantSet x).isSome ↔ x ∈ m.entries
  sizes : ∀ x ∈ m.entries, (m.entry x).vsizeIndividual ≤ (m.entry x).vsizeWithAncestors
  replaced : Disjoint m.toBeReplaced m.entries

/-- A run of the loop from a sequence number on, with what it assumes. -/
inductive Builds (rate : Int) : Nat → MiniMiner → Nat → MiniMiner → Prop
  | stop {n : Nat} {m : MiniMiner} (h : Stopped (some rate) m) : Builds rate n m n m
  | round {n n' x : Nat} {m m' left : MiniMiner} {ancestors : Finset Nat}
      (hbest : m.best = some x)
      (hreach : getFee rate (m.entry x).vsizeWithAncestors ≤ (m.entry x).feeWithAncestors)
      (hancestors : explore m.parents m.entries.card {x} ∅ = some ancestors)
      (hassumes : DeleteAssumes ancestors (m.emplaceOrder ancestors n))
      (hdelete : (m.emplaceOrder ancestors n).deleteAncestorPackage ancestors = some m')
      (hcheck : SanityCheck m') (hrest : Builds rate (n + 1) m' n' left) : Builds rate n m n' left

/-- What else is kept: what is cached and what has an order, and that the block pays the target. -/
structure Tidy (rate : Int) (m : MiniMiner) : Prop where
  cached : ∀ x, (m.descendantSet x).isSome ↔ x ∈ m.entries
  replaced : Disjoint m.toBeReplaced m.entries
  fresh : Disjoint m.inBlock m.entries
  order : ∀ x, (m.inclusionOrder x).isSome ↔ x ∈ m.inBlock
  vsize : 0 ≤ m.totalVsize
  pays : rate * m.totalVsize ≤ 1000 * m.totalFees

theorem Tidy.deleted {rate : Int} (h : Tidy rate m) (n : Nat) (D : Nat → Finset Nat)
    (hpays : rate * ∑ a ∈ A, (m.entry a).vsizeIndividual ≤
      1000 * ∑ a ∈ A, (m.entry a).feeIndividual) :
    Tidy rate ((m.emplaceOrder A n).deleted D A) where
  cached := fun x => by
    by_cases hx : x ∈ A <;> simp [MiniMiner.deleted, MiniMiner.emplaceOrder, hx, h.cached]
  replaced := h.replaced.mono_right sdiff_subset
  fresh := disjoint_union_left.2 ⟨h.fresh.mono_right sdiff_subset, disjoint_sdiff⟩
  order := fun x => by
    by_cases hx : x ∈ A <;> simp [MiniMiner.deleted, mined, MiniMiner.emplaceOrder, h.order]
  vsize := add_nonneg h.vsize (sum_nonneg fun a _ => (m.entry a).size_pos.le)
  pays := by
    refine (mul_add ..).trans_le ((add_le_add h.pays hpays).trans_eq (mul_add ..).symm)

theorem templateLoop_stopped {targetFeerate : Option Int} (h : Stopped targetFeerate m)
    (fuel n : Nat) : m.templateLoop targetFeerate fuel n = some m := by
  unfold templateLoop
  cases hbest : m.best with
  | none => rfl
  | some x =>
    obtain ⟨rate, rfl, hshort⟩ := h x hbest
    simp [hshort]

/-- **The loop ends** and nothing that it assumes fails, with a set of transactions in the block that
has their parents, and with sound entries that do not reach the target. -/
theorem templateLoop_spec {rate : Int} (hr : 0 ≤ rate) {fuel : Nat} (n : Nat) (h : Sound m)
    (htidy : Tidy rate m) (hfuel : m.entries.card ≤ fuel) :
    ∃ n' m' A, m.templateLoop (some rate) fuel n = some m' ∧ Builds rate n m n' m' ∧
      Packs m m' A ∧ Sound m' ∧ Tidy rate m' ∧ Stopped (some rate) m' ∧ n ≤ n' ∧
      (A = ∅ ∨ n < n') := by
  induction fuel generalizing m n with
  | zero =>
    have hbest := best_eq_none.2 (card_eq_zero.1 (Nat.le_zero.1 hfuel))
    have hstop : Stopped (some rate) m := fun x hx => by simp [hbest] at hx
    exact ⟨n, m, ∅, templateLoop_stopped hstop 0 n, .stop hstop, .refl m, h, htidy, hstop, le_rfl,
      .inl rfl⟩
  | succ fuel ih =>
    by_cases hstop : Stopped (some rate) m
    · exact ⟨n, m, ∅, templateLoop_stopped hstop _ n, .stop hstop, .refl m, h, htidy, hstop,
        le_rfl, .inl rfl⟩
    obtain ⟨x, hbest, hreach⟩ : ∃ x, m.best = some x ∧
        getFee rate (m.entry x).vsizeWithAncestors ≤ (m.entry x).feeWithAncestors := by
      simpa [Stopped] using hstop
    have hx := mem_of_best hbest
    obtain ⟨anc, hexplore, hanc⟩ := exploreParents_spec (singleton_subset_iff.2 hx)
    obtain rfl : anc = m.ancestors x := by
      ext a
      simp [hanc]
    have hxanc : x ∈ m.ancestors x := mem_ancestors.2 ⟨hx, .refl⟩
    have hup : ∀ p c, c ∈ m.ancestors x → m.Spends p c → p ∈ m.ancestors x := by
      intro p c hc hpc
      have hcx := (mem_ancestors.1 hc).2
      exact mem_ancestors.2 ⟨(mem_parents.1 hpc.2).1, hcx.head hpc⟩
    obtain ⟨D, hdelete, hassumes, hpacks, h1⟩ :=
      (h.emplaceOrder (m.ancestors x) n).deleteAncestorPackage htidy.fresh ⟨x, hxanc⟩
        (fun a ha => (mem_ancestors.1 ha).1) hup
    have hpacks : Packs m _ _ := { hpacks with }
    have htidy1 := htidy.deleted n D (by
      rw [← vsizeWithAncestors_eq (h.totals x hx), ← feeWithAncestors_eq (h.totals x hx)]
      exact (getFee_le_iff hr (h.vsizeWithAncestors_pos hx).le).1 hreach)
    have hlt := card_lt_card (sdiff_ssubset hpacks.subset ⟨x, hxanc⟩)
    obtain ⟨n', left, A, heq, hbuilds, hpacks2, h2, htidy2, hstopped, hle, -⟩ :=
      ih (n + 1) h1 htidy1 (Nat.le_of_lt_succ (hlt.trans_le hfuel))
    refine ⟨n', left, m.ancestors x ∪ A, ?_, .round hbest hreach hexplore hassumes hdelete
      ⟨htidy1.cached, fun y => h1.vsizeIndividual_le, htidy1.replaced⟩ hbuilds, hpacks.trans hpacks2,
      h2, htidy2, hstopped, Nat.le_of_succ_le hle, .inr hle⟩
    rw [templateLoop, hbest]
    grind

/-- **What is left falls short**: either by itself or with its ancestors it has a lower feerate than
the target. -/
theorem Sound.bumpFee_pos (h : Sound m) {rate : Int} (hr : 0 ≤ rate)
    (hstop : Stopped (some rate) m) (hy : y ∈ m.entries) : 0 < bumpFee rate (m.entry y) := by
  cases hbest : m.best with
  | none => exact absurd hy (by rw [best_eq_none.1 hbest]; exact notMem_empty y)
  | some x =>
    have hx := mem_of_best hbest
    obtain ⟨r, hrate, hshort⟩ := hstop x hbest
    obtain rfl : rate = r := some.inj hrate
    have hxs := h.minFeerate_size_pos hx
    have hys := h.minFeerate_size_pos hy
    have hxa := h.vsizeWithAncestors_pos hx
    have hya := h.vsizeWithAncestors_pos hy
    rw [lt_getFee_iff hr hxa.le] at hshort
    -- the minimum of the best entry has no higher feerate than its ancestors, which fall short
    have hmin : 1000 * (m.entry x).minFeerate.fee < rate * (m.entry x).minFeerate.size := by
      have hle : (m.entry x).minFeerate.fee * (m.entry x).vsizeWithAncestors ≤
          (m.entry x).feeWithAncestors * (m.entry x).minFeerate.size := FeeFrac.min_cross_le
      nlinarith only [hle, hshort, hxs, hxa]
    have hother : 1000 * (m.entry y).minFeerate.fee < rate * (m.entry y).minFeerate.size := by
      have hle := h.best_max hbest hy
      nlinarith only [hle, hmin, hxs, hys]
    rw [bumpFee, lt_max_iff, sub_pos, sub_pos, lt_getFee_iff hr hya.le,
      lt_getFee_iff hr (m.entry y).size_pos.le]
    rcases FeeFrac.min_eq_or
      with heq | heq
    · rw [minFeerate, heq] at hother
      exact .inl hother
    · rw [minFeerate, heq] at hother
      exact .inr hother

end MiniMiner

end BitcoinPurity
