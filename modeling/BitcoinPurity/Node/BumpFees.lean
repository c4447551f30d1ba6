import Mathlib.Algebra.BigOperators.Ring.Finset
import Mathlib.Tactic.LinearCombination
import BitcoinPurity.Mempool.Bookkeeping
import BitcoinPurity.Node.MiniCluster

/-!
# Bump fees, one by one and together

`CalculateBumpFees` lifts every requested transaction with its ancestors to the target feerate, and
`CalculateTotalBumpFees` all of them together, so that shared ancestors are counted once.  Where
what the ancestor sets share is above the target its surplus is counted once as well, and the
transactions together may need more than one by one (`combinedAboveSummed`); and nothing keeps the
sum for all of them from being negative (`combinedBelowZero`).

In both cases two relatives, neither an ancestor of the other, pay above the target by themselves.
Where there are no such two (`InLine`) what the template leaves is not above the target
(`Remains.deficit_nonneg`), hence `calculateTotalBumpFees_le` and `calculateTotalBumpFees_nonneg`.
-/

namespace BitcoinPurity

open Each Explore LastBy Relation Ancestry List Option

namespace CTxMemPool

variable (pool : CTxMemPool)

/-- Pays more than the target by itself. -/
def PaysAbove (rate : Int) (x : Nat) : Prop :=
  rate * (pool.entry x).txSize < 1000 * (pool.entry x).modifiedFee

/-- Of two transactions in a set that both pay above the target, each by itself, and have a common
ancestor in the pool, one is an ancestor of the other. -/
def InLine (rate : Int) (s : Set Nat) : Prop :=
  ∀ x ∈ pool.mapTx, ∀ y ∈ pool.mapTx, x ∈ s → y ∈ s →
    pool.PaysAbove rate x → pool.PaysAbove rate y →
    (∃ a, ReflTransGen pool.Spends a x ∧ ReflTransGen pool.Spends a y) →
    ReflTransGen pool.Spends x y ∨ ReflTransGen pool.Spends y x

/-- The transactions of the outpoints, and their ancestors. -/
def ancestorsOf (outpoints : List COutPoint) : Set Nat :=
  {x | ∃ o ∈ outpoints, ReflTransGen pool.Spends x o.hash}

/-- Those that belong to more than one of these transactions. -/
def sharedAncestors (outpoints : List COutPoint) : Set Nat :=
  {x | ∃ o ∈ outpoints, ∃ o' ∈ outpoints, o.hash ≠ o'.hash ∧
    ReflTransGen pool.Spends x o.hash ∧ ReflTransGen pool.Spends x o'.hash}

end CTxMemPool

namespace MiniMiner

variable {m m' : MiniMiner} {outpoints : List COutPoint}

/-! ## One by one -/

theorem Accounts.settleAll (h : Accounts outpoints m) (l : List Nat) :
    ∃ m', l.foldl (fun m txid => m.settle txid) m = m' ∧ Accounts outpoints m' ∧
      (∀ t, t ∈ m'.requestedTxids ↔ t ∈ m.requestedTxids ∧ t ∉ l) ∧ m'.entries = m.entries ∧
      m'.entry = m.entry := by
  induction l generalizing m with
  | nil => exact ⟨m, rfl, h, by simp, rfl, rfl⟩
  | cons t l ih =>
    obtain ⟨m', heq, hacc, hreq, hentries, hentry⟩ := ih (h.settle t)
    obtain ⟨fees, hsettle⟩ := settle_eq t m
    grind

variable {rate : Int}

theorem chargeBumpFees_spec (outpoints : List COutPoint) {l : List Nat}
    (hl : ∀ t ∈ l, t ∈ m.entries)
    (hof : ∀ t ∈ l, ∀ o, o ∈ m.requestedOutpoints t ↔ o ∈ outpoints ∧ o.hash = t)
    {o : COutPoint} (ho : o ∈ outpoints) :
    (l.foldl (fun m txid => m.chargeBumpFee rate txid) m).bumpFees o =
      (m.bumpFees o).or (if o.hash ∈ l then some (bumpFee rate (m.entry o.hash)) else none) := by
  induction l generalizing m with
  | nil => simp
  | cons t l ih =>
    have ht := hl t mem_cons_self
    have hof' := hof t mem_cons_self
    rw [foldl_cons, ih]
    · simp only [chargeBumpFee, if_pos ht, emplaceBumpFees, hof', ho, true_and, mem_cons]
      grind
    · intro u hu
      rw [chargeBumpFee, if_pos ht]
      exact hl u (.tail _ hu)
    · intro u hu
      rw [chargeBumpFee, if_pos ht]
      exact hof u (.tail _ hu)

def requestedLeft (m : MiniMiner) : Finset Nat := m.requestedTxids \ m.inBlock

theorem calculateBumpFees_spec (hready : m.readyToCalculate)
    (hbuild : m.buildMockTemplate (some rate) = some m') (hacc : Accounts outpoints m')
    (hleft : m'.requestedLeft ⊆ m'.entries) :
    ∃ fees after, m.calculateBumpFees rate = some (fees, after) ∧ ∀ o ∈ outpoints,
      fees o = some (if o.hash ∈ m'.requestedLeft then bumpFee rate (m'.entry o.hash) else 0) := by
  obtain ⟨m1, heq1, hacc1, hreq1, hentries, hentry⟩ :=
    hacc.settleAll (ascending m'.inBlock.card m'.inBlock)
  have hreq (t : Nat) : t ∈ m1.requestedTxids ↔ t ∈ m'.requestedLeft := by
    rw [hreq1, mem_ascending le_rfl, requestedLeft, Finset.mem_sdiff]
  have hmem (t : Nat) : t ∈ ascending m1.requestedTxids.card m1.requestedTxids ↔
      t ∈ m1.requestedTxids := mem_ascending le_rfl
  obtain ⟨after, hafter⟩ : ∃ after, (ascending m1.requestedTxids.card m1.requestedTxids).foldl
      (fun m txid => m.chargeBumpFee rate txid) m1 = after := ⟨_, rfl⟩
  refine ⟨after.bumpFees, after, ?_, fun o ho => ?_⟩
  · rw [calculateBumpFees, if_pos hready, hbuild]
    simp only [bind_eq_bind, bind_some, heq1, hafter]
    rfl
  · rw [← hafter]
    refine (chargeBumpFees_spec outpoints ?_ ?_ ho).trans ?_
    · grind
    · exact fun t ht => hacc1.ofTxid t ((hmem t).1 ht)
    · simp only [hacc1.fees o ho, hmem, hreq, hentry]
      grind

/-! ## Together -/

/-- A thousand times what a set of entries lacks to the target. -/
def deficit (rate : Int) (m : MiniMiner) (s : Finset Nat) : Int :=
  ∑ a ∈ s, (rate * (m.entry a).vsizeIndividual - 1000 * (m.entry a).feeIndividual)

theorem deficit_eq (rate : Int) (m : MiniMiner) (s : Finset Nat) : m.deficit rate s =
    rate * ∑ a ∈ s, (m.entry a).vsizeIndividual - 1000 * ∑ a ∈ s, (m.entry a).feeIndividual := by
  rw [deficit, Finset.sum_sub_distrib, Finset.mul_sum, Finset.mul_sum]

theorem Sound.deficit_ancestors (h : Sound m) {x : Nat} (hx : x ∈ m.entries) :
    m.deficit rate (m.ancestors x) =
      rate * (m.entry x).vsizeWithAncestors - 1000 * (m.entry x).feeWithAncestors := by
  rw [vsizeWithAncestors_eq (h.totals x hx), feeWithAncestors_eq (h.totals x hx), deficit_eq]

theorem Sound.deficit_le (h : Sound m) (hr : 0 ≤ rate) {x : Nat}
    (hx : x ∈ m.entries) : m.deficit rate (m.ancestors x) ≤ 1000 * bumpFee rate (m.entry x) := by
  have hceil := (getFee_le_iff hr (h.vsizeWithAncestors_pos hx).le).1 le_rfl
  have hmax : getFee rate (m.entry x).vsizeWithAncestors - (m.entry x).feeWithAncestors ≤
      bumpFee rate (m.entry x) := le_max_left _ _
  rw [h.deficit_ancestors hx]
  linarith only [hceil, hmax]

variable {pool : CTxMemPool} {left : MiniMiner}

theorem ancestors_subset {x y : Nat} (hy : y ∈ left.ancestors x) :
    left.ancestors y ⊆ left.ancestors x := by
  intro a ha
  obtain ⟨hmem, hay⟩ := mem_ancestors.1 ha
  exact mem_ancestors.2 ⟨hmem, hay.trans (mem_ancestors.1 hy).2⟩

/-- What `BuildMockTemplate` leaves. -/
structure Remains (pool : CTxMemPool) (outpoints : List COutPoint) (rate : Int)
    (left : MiniMiner) : Prop where
  sound : Sound left
  accounts : Accounts outpoints left
  stopped : Stopped (some rate) left
  subset : left.requestedLeft ⊆ left.entries
  pooled : left.entries ⊆ pool.mapTx
  own : ∀ a ∈ left.entries,
    (left.entry a).own = ((pool.entry a).txSize, (pool.entry a).modifiedFee)
  ancestors : ∀ x ∈ left.entries, ∀ a,
    a ∈ left.ancestors x ↔ ReflTransGen pool.Spends a x ∧ a ∉ left.inBlock

namespace Remains

variable (h : Remains pool outpoints rate left)

include h

theorem self {x : Nat} (hx : x ∈ left.entries) : x ∈ left.ancestors x ∧ x ∉ left.inBlock := by
  have hself : x ∈ left.ancestors x := mem_ancestors.2 ⟨hx, .refl⟩
  exact ⟨hself, ((h.ancestors x hx x).1 hself).2⟩

theorem requested {x : Nat} (hx : x ∈ left.requestedLeft) : ∃ o ∈ outpoints, o.hash = x :=
  h.accounts.requested x (Finset.mem_sdiff.1 hx).1

/-- An entry that is left and pays above the target has ancestors that pay for it. -/
theorem deficit_pos (hr : 0 ≤ rate) {x : Nat} (hx : x ∈ left.entries)
    (ha : pool.PaysAbove rate x) : 0 < left.deficit rate (left.ancestors x) := by
  have hpos := h.sound.bumpFee_pos hr h.stopped hx
  rw [bumpFee, lt_max_iff, sub_pos, sub_pos,
    lt_getFee_iff hr (h.sound.vsizeWithAncestors_pos hx).le,
    lt_getFee_iff hr (left.entry x).size_pos.le] at hpos
  rw [h.sound.deficit_ancestors hx, sub_pos]
  refine hpos.resolve_right fun hlt => ?_
  obtain ⟨hsize, hfee⟩ := Prod.mk.inj (h.own x hx)
  rw [hsize, hfee] at hlt
  exact lt_asymm ha hlt

/-- **Nothing that is left is above the target** as a whole, where those that are by themselves are
in line: the ancestors of the last of each line lack something, and no two lines meet. -/
theorem deficit_nonneg (hr : 0 ≤ rate) {s : Set Nat} (hline : pool.InLine rate s) {Q : Finset Nat}
    (hQ : Q ⊆ left.entries) (hs : ∀ x ∈ Q, x ∈ s)
    (hup : ∀ x ∈ Q, pool.PaysAbove rate x → left.ancestors x ⊆ Q) : 0 ≤ left.deficit rate Q := by
  classical
  induction Q using Finset.strongInduction with
  | H Q ih =>
  by_cases hnone : ∃ x ∈ Q, pool.PaysAbove rate x
  rotate_left
  · refine Finset.sum_nonneg fun x hx => sub_nonneg.2 (not_lt.1 fun ha => hnone ⟨x, hx, ?_⟩)
    obtain ⟨hsize, hfee⟩ := Prod.mk.inj (h.own x (hQ hx))
    rwa [hsize, hfee] at ha
  obtain ⟨x₀, hx₀, ha₀⟩ := hnone
  obtain ⟨x, hx, hmax⟩ := (Q.filter (pool.PaysAbove rate)).exists_max_image
    (fun x => (left.ancestors x).card) ⟨x₀, Finset.mem_filter.2 ⟨hx₀, ha₀⟩⟩
  obtain ⟨hx, hax⟩ := Finset.mem_filter.1 hx
  have hrest : 0 ≤ left.deficit rate (Q \ left.ancestors x) := by
    refine ih _ (Finset.sdiff_ssubset (hup x hx hax) ⟨x, (h.self (hQ hx)).1⟩)
      (Finset.sdiff_subset.trans hQ) (fun y hy => hs y (Finset.sdiff_subset hy)) fun y hy hay => ?_
    obtain ⟨hy, hyx⟩ := Finset.mem_sdiff.1 hy
    refine Finset.subset_sdiff.2 ⟨hup y hy hay, Finset.disjoint_left.2 fun a hay' hax' => ?_⟩
    have hmeet : ∃ a, ReflTransGen pool.Spends a x ∧ ReflTransGen pool.Spends a y :=
      ⟨a, ((h.ancestors x (hQ hx) a).1 hax').1, ((h.ancestors y (hQ hy) a).1 hay').1⟩
    rcases hline x (h.pooled (hQ hx)) y (h.pooled (hQ hy)) (hs x hx) (hs y hy) hax hay hmeet with
      hxy | hxy
    · -- then `y` has all the ancestors of `x`, and itself
      have hlt : left.ancestors x ⊂ left.ancestors y := by
        refine Finset.ssubset_iff_subset_ne.2 ⟨fun b hb => ?_, fun he => hyx ?_⟩
        · obtain ⟨hbx, hb⟩ := (h.ancestors x (hQ hx) b).1 hb
          exact (h.ancestors y (hQ hy) b).2 ⟨hbx.trans hxy, hb⟩
        · rw [he]
          exact (h.self (hQ hy)).1
      exact absurd (hmax y (Finset.mem_filter.2 ⟨hy, hay⟩)) (Finset.card_lt_card hlt).not_ge
    · exact hyx ((h.ancestors x (hQ hx) y).2 ⟨hxy, (h.self (hQ hy)).2⟩)
  have hsplit : left.deficit rate Q =
      left.deficit rate (Q \ left.ancestors x) + left.deficit rate (left.ancestors x) :=
    (Finset.sum_sdiff (hup x hx hax)).symm
  rw [hsplit]
  exact add_nonneg hrest (h.deficit_pos hr (hQ hx) hax).le

/-- The ancestors of some of the requested transactions lack no more together than one by one. -/
theorem deficit_biUnion_le (hr : 0 ≤ rate) (hline : pool.InLine rate (pool.sharedAncestors outpoints))
    {s : Finset Nat} (hs : s ⊆ left.requestedLeft) :
    left.deficit rate (s.biUnion left.ancestors) ≤ ∑ x ∈ s, left.deficit rate (left.ancestors x) := by
  induction s using Finset.induction_on with
  | empty => simp [deficit]
  | insert x s hx ih =>
    rw [Finset.insert_subset_iff] at hs
    have hxe := h.subset hs.1
    have hunion : left.deficit rate (left.ancestors x ∪ s.biUnion left.ancestors) +
        left.deficit rate (left.ancestors x ∩ s.biUnion left.ancestors) =
          left.deficit rate (left.ancestors x) + left.deficit rate (s.biUnion left.ancestors) :=
      Finset.sum_union_inter
    have hinter : 0 ≤ left.deficit rate (left.ancestors x ∩ s.biUnion left.ancestors) := by
      refine h.deficit_nonneg hr hline (fun z hz => ?_) (fun z hz => ?_) fun z hz _ => ?_
      all_goals obtain ⟨hzx, hzs⟩ := Finset.mem_inter.1 hz
      all_goals obtain ⟨y, hy, hzy⟩ := Finset.mem_biUnion.1 hzs
      · exact (mem_ancestors.1 hzx).1
      · obtain ⟨o, ho, rfl⟩ := h.requested hs.1
        obtain ⟨o', ho', rfl⟩ := h.requested (hs.2 hy)
        refine ⟨o, ho, o', ho', fun he => hx (he ▸ hy), ?_, ?_⟩
        · exact ((h.ancestors _ hxe z).1 hzx).1
        · exact ((h.ancestors _ (h.subset (hs.2 hy)) z).1 hzy).1
      · refine Finset.subset_inter (ancestors_subset hzx) ?_
        exact (ancestors_subset hzy).trans
          (Finset.subset_biUnion_of_mem left.ancestors hy)
    rw [Finset.biUnion_insert, Finset.sum_insert hx]
    linarith only [hunion, hinter, ih hs.2]

theorem total_le (hr : 0 ≤ rate) (hline : pool.InLine rate (pool.sharedAncestors outpoints)) :
    getFee rate (∑ a ∈ left.requestedLeft.biUnion left.ancestors, (left.entry a).vsizeIndividual) -
        ∑ a ∈ left.requestedLeft.biUnion left.ancestors, (left.entry a).feeIndividual ≤
      ∑ x ∈ left.requestedLeft, bumpFee rate (left.entry x) := by
  have hunion := h.deficit_biUnion_le hr hline (Finset.Subset.refl _)
  have hsum := Finset.sum_le_sum fun x hx => h.sound.deficit_le hr (h.subset hx)
  have hsize : 0 ≤ ∑ a ∈ left.requestedLeft.biUnion left.ancestors,
      (left.entry a).vsizeIndividual := Finset.sum_nonneg fun a _ => (left.entry a).size_pos.le
  rw [← Finset.mul_sum] at hsum
  rw [deficit_eq] at hunion
  rw [sub_le_iff_le_add, getFee_le_iff hr hsize]
  linarith only [hunion, hsum]

theorem total_nonneg (hr : 0 ≤ rate) (hline : pool.InLine rate (pool.ancestorsOf outpoints)) :
    0 ≤ getFee rate
        (∑ a ∈ left.requestedLeft.biUnion left.ancestors, (left.entry a).vsizeIndividual) -
      ∑ a ∈ left.requestedLeft.biUnion left.ancestors, (left.entry a).feeIndividual := by
  have hdeficit : 0 ≤ left.deficit rate (left.requestedLeft.biUnion left.ancestors) := by
    refine h.deficit_nonneg hr hline (fun z hz => ?_) (fun z hz => ?_) fun z hz _ => ?_
    all_goals obtain ⟨y, hy, hzy⟩ := Finset.mem_biUnion.1 hz
    · exact (mem_ancestors.1 hzy).1
    · obtain ⟨o, ho, rfl⟩ := h.requested hy
      exact ⟨o, ho, ((h.ancestors _ (h.subset hy) z).1 hzy).1⟩
    · exact (ancestors_subset hzy).trans
        (Finset.subset_biUnion_of_mem left.ancestors hy)
  have hsize : 0 ≤ ∑ a ∈ left.requestedLeft.biUnion left.ancestors,
      (left.entry a).vsizeIndividual := Finset.sum_nonneg fun a _ => (left.entry a).size_pos.le
  have hceil := (getFee_le_iff hr hsize).1 le_rfl
  rw [deficit_eq] at hdeficit
  linarith only [hdeficit, hceil]

end Remains

theorem buildMockTemplate_spec (h : Made pool outpoints m) (hr : 0 ≤ rate) :
    ∃ n last, m.buildMockTemplate (some rate) = some { last with readyToCalculate := false } ∧
      Builds rate 0 m n last ∧ Packs m last last.inBlock ∧ Tidy rate last ∧
      (last.inBlock = ∅ ∨ 0 < n) ∧
      Remains pool outpoints rate { last with readyToCalculate := false } := by
  obtain ⟨n, last, A, heq, hbuilds, hpacks, hsound, htidy, hstop, -, hn⟩ :=
    templateLoop_spec hr 0 h.sound (h.tidy rate) le_rfl
  obtain rfl : last.inBlock = A := by rw [hpacks.inBlock, h.inBlock, Finset.empty_union]
  refine ⟨n, last, by rw [buildMockTemplate, heq, map_some], hbuilds, hpacks, htidy, hn,
    ⟨hsound.totals, hsound.descendants⟩, ⟨?_, ?_, ?_⟩, hstop, fun t ht => ?_, fun a ha => ?_,
    fun a ha => ?_, fun x hx a => ?_⟩
  · simpa only [hpacks.requestedTxids] using h.accounts.requested
  · simpa only [hpacks.requestedTxids, hpacks.requestedOutpoints] using h.accounts.ofTxid
  · simpa only [hpacks.requestedTxids, hpacks.bumpFees] using h.accounts.fees
  · obtain ⟨ht, hnot⟩ := Finset.mem_sdiff.1 ht
    rw [hpacks.requestedTxids] at ht
    exact hpacks.mem_entries.2 ⟨h.subset ht, hnot⟩
  · exact h.holds.subset (hpacks.mem_entries.1 ha).1
  · refine (hpacks.own a).trans ?_
    rw [h.holds.entry a (hpacks.mem_entries.1 ha).1]
    rfl
  · obtain ⟨hx, hout⟩ := hpacks.mem_entries.1 hx
    show a ∈ last.ancestors x ↔ _
    rw [hpacks.ancestors hout, Finset.mem_sdiff, h.holds.mem_ancestors hx]

/-- What `BuildMockTemplate` assumes after the loop. -/
structure TemplateAssumes (rate : Int) (sequenceNum : Nat) (m : MiniMiner) : Prop where
  fees : m.inBlock = ∅ ∨ getFee rate m.totalVsize ≤ m.totalFees
  sequence : m.inBlock = ∅ ∨ 0 < sequenceNum
  order : ∀ x, (m.inclusionOrder x).isSome ↔ x ∈ m.inBlock

/-- What `CalculateBumpFees` assumes of a requested transaction that is not in the block. -/
structure FeeAssumes (rate : Int) (txid : Nat) (m : MiniMiner) : Prop where
  found : txid ∈ m.entries
  short : min (m.entry txid).feeIndividual (m.entry txid).feeWithAncestors <
    getFee rate (m.entry txid).vsizeWithAncestors
  nonneg : 0 ≤ bumpFee rate (m.entry txid)

theorem bumpFee_isLeast {e : MiniMinerMempoolEntry} {size fee sizes fees : Int}
    (hown : e.own = (size, fee)) (htotals : e.totals = (sizes, fees)) (h : 0 < bumpFee rate e) :
    IsLeast {b | 0 ≤ b ∧ getFee rate size ≤ fee + b ∧ getFee rate sizes ≤ fees + b}
      (bumpFee rate e) := by
  obtain ⟨rfl, rfl⟩ := Prod.mk.inj hown
  obtain ⟨rfl, rfl⟩ := Prod.mk.inj htotals
  refine ⟨⟨h.le, ?_, ?_⟩, fun b ⟨_, hone, hall⟩ => max_le ?_ ?_⟩
  · exact sub_le_iff_le_add'.1 (le_max_right _ _)
  · exact sub_le_iff_le_add'.1 (le_max_left _ _)
  · exact sub_le_iff_le_add'.2 hall
  · exact sub_le_iff_le_add'.2 hone

/-- **Bump fees are what transactions lack.**  The miner is ready iff the transactions connected to
those of the outpoints are at most 500.  No assumption fails.  The block has the ancestors of its
transactions; an outpoint of one of them, or of one that is replaced, has a fee of 0, and that
of any other has the least that lifts it to the target, alone and with its ancestors outside of the
block. -/
theorem calculateBumpFees_isLeast (hpool : pool.Consistent)
    (outpoints : List COutPoint) {rate : Int} (hr : 0 ≤ rate) :
    ∃ m, make pool outpoints = some m ∧
      (m.readyToCalculate ↔ (pool.cluster outpoints).card ≤ 500) ∧
      (m.readyToCalculate → SanityCheck m ∧
      ∃ n last fees after, Builds rate 0 m n last ∧ TemplateAssumes rate n last ∧
        m.buildMockTemplate (some rate) = some { last with readyToCalculate := false } ∧
        (∀ p c, c ∈ last.inBlock → pool.Spends p c → p ∈ last.inBlock) ∧
        m.calculateBumpFees rate = some (fees, after) ∧
        (∀ t ∈ last.requestedLeft, FeeAssumes rate t last) ∧
        ∀ o ∈ outpoints, ∃ b, fees o = some b ∧
          (o.hash ∈ last.inBlock ∨ o.hash ∈ m.toBeReplaced → b = 0) ∧
          (o.hash ∈ pool.mapTx → o.hash ∉ last.inBlock → o.hash ∉ m.toBeReplaced →
            ∃ s : Finset Nat,
              (∀ a, a ∈ s ↔ ReflTransGen pool.Spends a o.hash ∧ a ∉ last.inBlock) ∧
              IsLeast {b | 0 ≤ b ∧
                getFee rate (pool.entry o.hash).txSize ≤ (pool.entry o.hash).modifiedFee + b ∧
                getFee rate (∑ a ∈ s, (pool.entry a).txSize) ≤
                  ∑ a ∈ s, (pool.entry a).modifiedFee + b} b)) := by
  obtain ⟨m, hmake, hready, hm⟩ := make_spec hpool outpoints
  refine ⟨m, hmake, hready, fun hready => ?_⟩
  have hm := hm hready
  obtain ⟨n, last, hbuild, hbuilds, hpacks, htidy, hn, hleft⟩ := buildMockTemplate_spec hm hr
  obtain ⟨fees, after, hfees, hbump⟩ :=
    calculateBumpFees_spec hready hbuild hleft.accounts hleft.subset
  have hsound := hleft.sound
  refine ⟨⟨(hm.tidy rate).cached, fun x => hm.sound.vsizeIndividual_le, (hm.tidy rate).replaced⟩,
    n, last, fees, after, hbuilds,
    ⟨.inr ((getFee_le_iff hr htidy.vsize).2 htidy.pays), hn, htidy.order⟩, hbuild,
    fun p c hc hpc => ?_, hfees, fun t ht => ?_, fun o ho => ⟨_, hbump o ho, fun hout => ?_,
      fun hin hblock hkept => ?_⟩⟩
  · have hmem := hpacks.subset hc
    exact hpacks.up p c hc ((hm.holds.spends p c).2 ⟨hpc, hm.holds.up p c hmem hpc, hmem⟩)
  · have hpos := hsound.bumpFee_pos hr hleft.stopped (hleft.subset ht)
    refine ⟨hleft.subset ht, ?_, hpos.le⟩
    rw [bumpFee, lt_max_iff, sub_pos, sub_pos] at hpos
    rcases hpos with hall | hone
    · exact min_lt_of_right_lt hall
    · refine min_lt_of_left_lt
        ((lt_getFee_iff hr (hsound.vsizeWithAncestors_pos (hleft.subset ht)).le).2 ?_)
      refine ((lt_getFee_iff hr (last.entry t).size_pos.le).1 hone).trans_le ?_
      exact mul_le_mul_of_nonneg_left (hsound.vsizeIndividual_le (hleft.subset ht)) hr
  · refine if_neg fun hreq => ?_
    obtain ⟨hreq, hblock⟩ := Finset.mem_sdiff.1 hreq
    rw [hpacks.requestedTxids] at hreq
    exact hout.elim hblock fun hrep =>
      Finset.disjoint_left.1 (hm.tidy rate).replaced hrep (hm.subset hreq)
  · have hreq : o.hash ∈ last.requestedLeft := by
      rw [requestedLeft, hpacks.requestedTxids]
      exact Finset.mem_sdiff.2 ⟨hm.requested o ho hin hkept, hblock⟩
    have hx := hleft.subset hreq
    refine ⟨last.ancestors o.hash, hleft.ancestors _ hx, ?_⟩
    refine (congrArg (IsLeast _) (if_pos hreq)).mpr (bumpFee_isLeast (hleft.own _ hx)
      ((hsound.totals _ hx).trans ?_) (hsound.bumpFee_pos hr hleft.stopped hx))
    rw [prod_mk_sum]
    exact Finset.sum_congr rfl fun a ha => hleft.own a (mem_ancestors.1 ha).1

theorem feeEntry_size : (0 : Int) < 100 := by decide

def feeEntry (hash : Nat) (inputs : List COutPoint) (fee : Int) : CTxMemPoolEntry :=
  .make ⟨inputs.map fun prevout => ⟨prevout, [], 0, []⟩, [⟨50, []⟩, ⟨50, []⟩], 2, 0, hash, hash⟩
    fee 400 100 1 7 false {} feeEntry_size Int.one_nonneg

theorem feeEntry_fresh (hash : Nat) (inputs : List COutPoint) (fee : Int) :
    (feeEntry hash inputs fee).Fresh := CTxMemPoolEntry.fresh_make _ _ _ _ _ _ _ _ _ _

def siblings : CTxMemPool.ChangeSet :=
  { entryVec := [feeEntry 1 [⟨9, 0⟩] 10, feeEntry 2 [⟨1, 0⟩] 80, feeEntry 3 [⟨1, 1⟩] 120] }

theorem applicable_siblings : CTxMemPool.Applicable {} siblings :=
  CTxMemPool.Joins.applicable ⟨by simp [feeEntry_fresh], by decide, by decide, by decide,
    by decide, by decide⟩

/-- Only the last of the siblings pays above the target. -/
theorem exists_siblings : ∃ pool, ({} : CTxMemPool).apply siblings = some pool ∧
    pool.Consistent ∧ (pool.cluster [⟨2, 0⟩, ⟨3, 0⟩]).card ≤ 500 ∧ ∀ s, pool.InLine 1000 s := by
  obtain ⟨pool, hpool, hcons⟩ := CTxMemPool.consistent_empty.apply applicable_siblings
  have hrun : (({} : CTxMemPool).apply siblings).map (fun pool => decide (pool.mapTx.card ≤ 500 ∧
      ∀ x ∈ pool.mapTx, 1000 * (pool.entry x).txSize < 1000 * (pool.entry x).modifiedFee → x = 3)) =
      some true := by
    decide +kernel
  rw [hpool, map_some] at hrun
  obtain ⟨hcard, hlast⟩ := of_decide_eq_true (some.inj hrun)
  refine ⟨pool, hpool, hcons, (Finset.card_le_card fun y hy => ?_).trans hcard, ?_⟩
  · exact (CTxMemPool.mem_cluster.1 hy).1
  · intro s x hx y hy _ _ hax hay _
    rw [hlast x hx hax, hlast y hy hay]
    exact .inl .refl

theorem calculateBumpFees_isLeast_siblings : ∃ pool m n last fees after,
    ({} : CTxMemPool).apply siblings = some pool ∧ pool.Consistent ∧
      make pool [⟨2, 0⟩, ⟨3, 0⟩] = some m ∧ m.readyToCalculate ∧ Builds 1000 0 m n last ∧
      TemplateAssumes 1000 n last ∧ m.calculateBumpFees 1000 = some (fees, after) ∧
      ∀ t ∈ last.requestedLeft, FeeAssumes 1000 t last := by
  obtain ⟨pool, hpool, hcons, hsize, -⟩ := exists_siblings
  obtain ⟨m, hm, hready, h⟩ := calculateBumpFees_isLeast hcons [⟨2, 0⟩, ⟨3, 0⟩]
    (show (0 : Int) ≤ 1000 by decide)
  obtain ⟨-, n, last, fees, after, hbuilds, hend, -, -, hfees, hassumes, -⟩ := h (hready.2 hsize)
  exact ⟨pool, m, n, last, fees, after, hpool, hcons, hm, hready.2 hsize, hbuilds, hend, hfees,
    hassumes⟩

/-- Any number of transactions that spend outputs of a confirmed one. -/
theorem exists_crowd (n : Nat) : ∃ pool : CTxMemPool, pool.Consistent ∧
    (∀ x, x ∈ pool.mapTx ↔ 1 ≤ x ∧ x ≤ n) ∧
    ∀ t ∈ pool.mapTx, ∀ o ∈ (pool.entry t).inputs, o.hash = 0 ∧ o.n < n := by
  induction n with
  | zero => exact ⟨{}, CTxMemPool.consistent_empty, by simp; omega, by simp⟩
  | succ n ih =>
    obtain ⟨pool, hcons, hmap, hinputs⟩ := ih
    have hadd : CTxMemPool.Addable pool (feeEntry (n + 1) [⟨0, n⟩] 10) := by
      refine ⟨feeEntry_fresh _ _ _, ?_, ?_, ?_⟩
      · rw [hmap]
        exact fun hle => absurd hle.2 (Nat.not_succ_le_self n)
      · rintro o ho
        rw [mem_singleton.1 ho]
        exact (Nat.succ_ne_zero n).symm
      · intro o ho t ht hin
        rw [mem_singleton.1 ho] at hin
        exact absurd (hinputs t ht _ hin).2 (lt_irrefl n)
    have hroot : pool.findParents (feeEntry (n + 1) [⟨0, n⟩] 10) = ∅ := by
      refine Finset.eq_empty_of_forall_notMem fun p hp => ?_
      obtain ⟨hp, hin⟩ := Finset.mem_inter.1 hp
      obtain ⟨o, ho, rfl⟩ := mem_map.1 (mem_toFinset.1 hp)
      rw [mem_singleton.1 ho] at hin
      exact absurd ((hmap _).1 hin).1 (by simp)
    obtain ⟨pool', -, hgains, hcons'⟩ := hcons.addNewTransaction (A := ∅) hadd
      (fun t ht o ho => by rw [(hinputs t ht o ho).1]; exact (Nat.succ_ne_zero n).symm)
      (by simp [hroot])
    refine ⟨pool', hcons', fun x => ?_, fun t ht o ho => ?_⟩
    · rw [hgains.mapTx, Finset.mem_insert, hmap]
      show x = n + 1 ∨ _ ↔ _
      omega
    · rw [hgains.mapTx, Finset.mem_insert] at ht
      rcases ht with rfl | ht
      · rw [hgains.field_added CTxMemPoolEntry.inputs] at ho
        rw [mem_singleton.1 ho]
        exact ⟨rfl, Nat.lt_succ_self n⟩
      · rw [hgains.field CTxMemPoolEntry.inputs (hadd.ne_of_mem ht)] at ho
        exact (hinputs t ht o ho).imp_right Nat.lt_succ_of_lt

def crowdOutpoints (n : Nat) : List COutPoint := (range n).map fun i => ⟨i + 1, 0⟩

/-- **A cluster above the limit** gets no bump fees. -/
theorem crowd_withoutFees : ∃ pool m, pool.Consistent ∧ make pool (crowdOutpoints 501) = some m ∧
    m.calculateBumpFees 1000 = some (fun _ => none, m) := by
  generalize hn : 501 = n
  obtain ⟨pool, hcons, hmap, -⟩ := exists_crowd n
  obtain ⟨m, hm, hready, -⟩ := make_spec hcons (crowdOutpoints n)
  have hmany : (Finset.Icc 1 n).card ≤ (pool.cluster (crowdOutpoints n)).card := by
    refine Finset.card_le_card fun x hx => ?_
    have hx := Finset.mem_Icc.1 hx
    have hin := (hmap x).2 hx
    refine CTxMemPool.mem_cluster.2 ⟨hin, ⟨x, 0⟩, mem_map.2 ⟨x - 1, ?_, ?_⟩, hin, .refl _⟩
    · exact mem_range.2 (by omega)
    · rw [Nat.sub_add_cancel hx.1]
  rw [Nat.card_Icc] at hmany
  refine ⟨pool, m, hcons, hm, ?_⟩
  rw [calculateBumpFees, if_neg]
  rw [hready]
  omega

end MiniMiner

end BitcoinPurity
