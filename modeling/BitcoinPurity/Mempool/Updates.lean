import BitcoinPurity.Lib.Ancestry
import Mathlib.Algebra.BigOperators.Pi
import Mathlib.Algebra.Order.BigOperators.Group.Finset
import BitcoinPurity.Mempool.Pool

/-!
# What the updates of the memory pool do

Every update of links and totals changes the entries one by one (`mapEntries`); here are the
equations for each of them, with the condition under which no assertion fails, and what the walks
through the links find.  The totals of an entry are vectors, so that one equation speaks of the
count, the size, the fees and the signature operations.
-/

namespace BitcoinPurity

open Each Explore Relation Finset CTxMemPoolEntry Prod

namespace CTxMemPoolEntry

section

variable (e : CTxMemPoolEntry)

def weight : ℤ × ℤ × ℤ × ℤ := (1, e.txSize, e.modifiedFee, e.sigOpCost)

def ancestorTotals : ℤ × ℤ × ℤ × ℤ :=
  (e.countWithAncestors, e.sizeWithAncestors, e.modFeesWithAncestors, e.sigOpCostWithAncestors)

def upWeight : ℤ × ℤ × ℤ := (1, e.txSize, e.modifiedFee)

def descendantTotals : ℤ × ℤ × ℤ :=
  (e.countWithDescendants, e.sizeWithDescendants, e.modFeesWithDescendants)

end

/-- An entry as it is staged: no links, and its own weight as totals. -/
structure Fresh (e : CTxMemPoolEntry) : Prop where
  parents : e.parents = ∅
  children : e.children = ∅
  ancestors : e.ancestorTotals = e.weight
  descendants : e.descendantTotals = e.upWeight

theorem fresh_make (tx : CTransaction) (fee w size sigops time : Int) (cb : Bool) (lp : LockPoints)
    (hs : 0 < size) (hg : 0 ≤ sigops) : (make tx fee w size sigops time cb lp hs hg).Fresh :=
  ⟨rfl, rfl, rfl, rfl⟩

section

variable (e : CTxMemPoolEntry) (s : Finset Nat) (w : Nat → CTxMemPoolEntry)

theorem weight_add_sum :
    0 < (e.weight + ∑ x ∈ s, (w x).weight).1 ∧ 0 < (e.weight + ∑ x ∈ s, (w x).weight).2.1 ∧
      0 ≤ (e.weight + ∑ x ∈ s, (w x).weight).2.2.2 := by
  simp only [fst_add, snd_add, fst_sum, snd_sum]
  refine ⟨?_, ?_, ?_⟩
  · exact add_pos_of_pos_of_nonneg one_pos (sum_nonneg fun _ _ => zero_le_one)
  · exact add_pos_of_pos_of_nonneg e.size_pos (sum_nonneg fun x _ => (w x).size_pos.le)
  · exact add_nonneg e.sigOp_nonneg (sum_nonneg fun x _ => (w x).sigOp_nonneg)

theorem upWeight_add_sum : 0 < (e.upWeight + ∑ x ∈ s, (w x).upWeight).1 ∧
      0 < (e.upWeight + ∑ x ∈ s, (w x).upWeight).2.1 := by
  simp only [fst_add, snd_add, fst_sum, snd_sum]
  constructor
  · exact add_pos_of_pos_of_nonneg one_pos (sum_nonneg fun _ _ => zero_le_one)
  · exact add_pos_of_pos_of_nonneg e.size_pos (sum_nonneg fun x _ => (w x).size_pos.le)

end

variable {e : CTxMemPoolEntry} {s : Finset Nat} {w : Nat → CTxMemPoolEntry}

theorem updateAncestorState_eq {size fee count sigops : Int}
    (h : e.ancestorTotals + (count, size, fee, sigops) = e.weight + ∑ x ∈ s, (w x).weight) :
    e.updateAncestorState size fee count sigops =
      some (e.addAncestorState size fee count sigops) := by
  obtain ⟨h1, h2, h3⟩ := weight_add_sum e s w
  rw [← h] at h1 h2 h3
  exact if_pos ⟨h2, h1, h3⟩

theorem updateDescendantState_eq {size fee count : Int}
    (h : e.descendantTotals + (count, size, fee) = e.upWeight + ∑ x ∈ s, (w x).upWeight) :
    e.updateDescendantState size fee count = some (e.addDescendantState size fee count) := by
  obtain ⟨h1, h2⟩ := upWeight_add_sum e s w
  rw [← h] at h1 h2
  exact if_pos ⟨h2, h1⟩

theorem descendantTotals_addDescendantState (e : CTxMemPoolEntry) (size fee count : Int) :
    (e.addDescendantState size fee count).descendantTotals =
      e.descendantTotals + (count, size, fee) := rfl

end CTxMemPoolEntry

namespace CTxMemPool

variable {pool : CTxMemPool}

/-! ## Changing entries -/

def mapEntries (g : Nat → CTxMemPoolEntry → CTxMemPoolEntry) (pool : CTxMemPool) : CTxMemPool :=
  { pool with entry := fun x => g x (pool.entry x) }

variable {x it y fuel : Nat} {s staged ancestors r : Finset Nat} {add : Bool}
  {f : CTxMemPoolEntry → Option CTxMemPoolEntry} {g : CTxMemPoolEntry → CTxMemPoolEntry}
  {size count total : Int} {limits : MemPoolLimits}

theorem modify_eq (hx : x ∈ pool.mapTx) (hf : f (pool.entry x) = some (g (pool.entry x))) :
    pool.modify x f = some (pool.mapEntries fun y e => if y = x then g e else e) := by
  rw [modify, if_pos hx, hf, Option.map_some]
  refine congrArg (fun r => some { pool with entry := r }) (funext fun y => ?_)
  by_cases hy : y = x
  · subst hy
    simp
  · simp [hy]

theorem forEach_modify {f : Nat → CTxMemPoolEntry → Option CTxMemPoolEntry}
    {g : Nat → CTxMemPoolEntry → CTxMemPoolEntry} (hs : s ⊆ pool.mapTx)
    (hf : ∀ x ∈ s, f x (pool.entry x) = some (g x (pool.entry x))) :
    forEach s (fun x => modify x (f x)) pool =
      some (pool.mapEntries fun x e => if x ∈ s then g x e else e) := by
  refine forEach_eq (g := fun d => pool.mapEntries fun x e => if x ∈ d then g x e else e)
    (by simp [mapEntries]) ?_
  intro d x hx hxd
  have hentry : (pool.mapEntries fun x e => if x ∈ d then g x e else e).entry x =
      pool.entry x := if_neg hxd
  refine (modify_eq ?_ (by rw [hentry, hf x hx])).trans ?_
  · exact hs hx
  refine congrArg (fun r => some { pool with entry := r }) (funext fun y => ?_)
  by_cases hy : y = x
  · subst hy
    simp [mapEntries, hxd]
  · simp [hy, mapEntries]

theorem modifyEach_eq (hs : s ⊆ pool.mapTx)
    (hf : ∀ x ∈ s, f (pool.entry x) = some (g (pool.entry x))) :
    pool.modifyEach s f = some (pool.mapEntries fun x e => if x ∈ s then g e else e) :=
  forEach_modify hs hf

/-! ## Changing links -/

def withChild (add : Bool) (child : Nat) (e : CTxMemPoolEntry) : CTxMemPoolEntry :=
  { e with children := if add then insert child e.children else e.children.erase child }

def withParent (add : Bool) (parent : Nat) (e : CTxMemPoolEntry) : CTxMemPoolEntry :=
  { e with parents := if add then insert parent e.parents else e.parents.erase parent }

@[simp] theorem descendantTotals_withChild (add : Bool) (child : Nat) (e : CTxMemPoolEntry) :
    (withChild add child e).descendantTotals = e.descendantTotals := rfl

@[simp] theorem upWeight_withChild (add : Bool) (child : Nat) (e : CTxMemPoolEntry) :
    (withChild add child e).upWeight = e.upWeight := rfl

theorem addParents_eq (hx : x ∈ pool.mapTx) :
    forEach s (fun parent => updateParent x parent true) pool = some (pool.mapEntries fun y e =>
        if y = x then { e with parents := e.parents ∪ s } else e) := by
  refine forEach_eq (g := fun d => pool.mapEntries fun y e =>
    if y = x then { e with parents := e.parents ∪ d } else e) (by simp [mapEntries]) ?_
  intro d p _ _
  refine (modify_eq (g := withParent true p) ?_ rfl).trans ?_
  · exact hx
  refine congrArg (fun r => some { pool with entry := r }) (funext fun y => ?_)
  by_cases hy : y = x
  · simp [hy, mapEntries, withParent]
  · simp [hy, mapEntries]

def ancestorsUpdate (add : Bool) (it : Nat) (e : CTxMemPoolEntry) (s : Finset Nat) (x : Nat)
    (e' : CTxMemPoolEntry) : CTxMemPoolEntry :=
  let updateCount : Int := if add then 1 else -1
  let e'' := if x ∈ e.parents then withChild add it e' else e'
  if x ∈ s then
    e''.addDescendantState (updateCount * e.txSize) (updateCount * e.modifiedFee) updateCount
  else e''

theorem signed_upWeight (add : Bool) (e : CTxMemPoolEntry) :
    (if add then e.upWeight else -e.upWeight) =
      ((if add then (1 : ℤ) else -1), (if add then (1 : ℤ) else -1) * e.txSize,
        (if add then (1 : ℤ) else -1) * e.modifiedFee) := by
  cases add <;> simp [upWeight]

theorem updateAncestorsOf_eq (hp : (pool.entry it).parents ⊆ pool.mapTx)
    (hs : s ⊆ pool.mapTx) (hok : ∀ x ∈ s, ∃ t : Finset Nat, ∃ w : Nat → CTxMemPoolEntry,
      (pool.entry x).descendantTotals +
          (if add then (pool.entry it).upWeight else -(pool.entry it).upWeight) =
        (pool.entry x).upWeight + ∑ y ∈ t, (w y).upWeight) :
    pool.updateAncestorsOf add it s =
      some (pool.mapEntries (ancestorsUpdate add it (pool.entry it) s)) := by
  refine Option.bind_eq_some_iff.2
    ⟨_, forEach_modify (g := fun _ => withChild add it) hp fun _ _ => rfl, ?_⟩
  refine modifyEach_eq ?_ ?_
  · exact hs
  · intro x hx
    obtain ⟨t, w, htot⟩ := hok x hx
    refine updateDescendantState_eq (s := t) (w := w) ?_
    rw [signed_upWeight] at htot
    by_cases hxp : x ∈ (pool.entry it).parents
    · simpa only [mapEntries, hxp, if_true, descendantTotals_withChild, upWeight_withChild]
        using htot
    · simpa only [mapEntries, hxp, if_false] using htot

theorem sum_weight (s : Finset Nat) (w : Nat → CTxMemPoolEntry) :
    ∑ a ∈ s, (w a).weight = ((s.card : ℤ), ∑ a ∈ s, (w a).txSize, ∑ a ∈ s, (w a).modifiedFee,
      ∑ a ∈ s, (w a).sigOpCost) := by
  refine Prod.ext ?_ (Prod.ext ?_ (Prod.ext ?_ ?_))
  all_goals simp [fst_sum, snd_sum, weight]

theorem sum_upWeight (s : Finset Nat) (w : Nat → CTxMemPoolEntry) :
    ∑ d ∈ s, (w d).upWeight = ((s.card : ℤ), ∑ d ∈ s, (w d).txSize, ∑ d ∈ s, (w d).modifiedFee) := by
  refine Prod.ext ?_ (Prod.ext ?_ ?_)
  all_goals simp [fst_sum, snd_sum, upWeight]

/-! ## Walking through the links -/

section

variable (E : Nat → Nat → Prop) (pool : CTxMemPool)

def ParentLinks : Prop :=
  ∀ c ∈ pool.mapTx, ∀ p, p ∈ (pool.entry c).parents ↔ E p c

def ChildLinks : Prop :=
  ∀ p ∈ pool.mapTx, ∀ c, c ∈ (pool.entry p).children ↔ E p c

/-- A relation between entries of the pool. -/
def Within : Prop :=
  ∀ p c, E p c → p ∈ pool.mapTx ∧ c ∈ pool.mapTx

end

variable {E : Nat → Nat → Prop}

section

variable (hw : Within E pool)
include hw

theorem Within.reflTransGen (hx : x ∈ pool.mapTx) (h : ReflTransGen E x y) : y ∈ pool.mapTx := by
  cases h with
  | refl => exact hx
  | tail _ h => exact (hw _ _ h).2

theorem Within.reflTransGen_left (hy : y ∈ pool.mapTx)
    (h : ReflTransGen E x y) : x ∈ pool.mapTx := by
  rcases ReflTransGen.cases_head h with rfl | ⟨z, hxz, -⟩
  · exact hy
  · exact (hw _ _ hxz).1

/-- `CalculateDescendants` adds an entry and its descendants to a set that has the descendants of
its own members. -/
theorem calculateDescendants_spec (hc : ChildLinks E pool)
    (hx : x ∈ pool.mapTx) {seen : Finset Nat} (hseen : seen ⊆ pool.mapTx)
    (hclosed : ∀ y ∈ seen, ∀ z, E y z → z ∈ seen) :
    ∃ r, pool.calculateDescendants x seen = some r ∧
      ∀ y, y ∈ r ↔ y ∈ seen ∨ ReflTransGen E x y := by
  have hfrontier : Frontier (fun y => (pool.entry y).children) pool.mapTx
      (if x ∈ seen then ∅ else {x}) seen := by
    refine ⟨?_, ?_, ?_, ?_⟩
    · grind
    · exact fun y hy z hz => (hw _ _ ((hc y hy z).1 hz)).2
    · split
      · exact disjoint_empty_left _
      · exact disjoint_singleton_left.2 (by assumption)
    · intro y hy z hz
      exact mem_union_left _ (hclosed y hy z ((hc y (hseen hy) z).1 hz))
  obtain ⟨r, heq, hmem⟩ := explore_spec hfrontier (card_le_card sdiff_subset)
  refine ⟨r, heq, fun y => ?_⟩
  have hreach : Reaches (fun y => (pool.entry y).children) x y ↔ ReflTransGen E x y :=
    reaches_iff hc (fun a b hab => (hw a b hab).2) hx
  rw [hmem y]
  split
  next hxs =>
    refine ⟨fun h => .inl (h.resolve_right (by simp)), ?_⟩
    rintro (hy | hxy)
    · exact .inl hy
    · refine .inl ?_
      clear hreach hmem heq
      induction hxy with
      | refl => exact hxs
      | tail _ hyz ih => exact hclosed _ ih _ hyz
  · simp [hreach]

theorem calculateDescendants_empty (hc : ChildLinks E pool) (hx : x ∈ pool.mapTx) :
    ∃ r, pool.calculateDescendants x ∅ = some r ∧ ∀ y, y ∈ r ↔ ReflTransGen E x y := by
  simpa using calculateDescendants_spec hw hc hx (empty_subset _) (by simp)

theorem calculateAllDescendants_spec (hc : ChildLinks E pool)
    (hs : s ⊆ pool.mapTx) :
    ∃ r, pool.calculateAllDescendants s = some r ∧ r ⊆ pool.mapTx ∧
      ∀ y, y ∈ r ↔ ∃ x ∈ s, ReflTransGen E x y := by
  refine forEach_spec
    (fun d r => r ⊆ pool.mapTx ∧ ∀ y, y ∈ r ↔ ∃ x ∈ d, ReflTransGen E x y) (by simp) ?_
  intro d x r hx _ hr
  obtain ⟨hin, hr⟩ := hr
  have hclosed : ∀ y ∈ r, ∀ z, E y z → z ∈ r := by grind
  obtain ⟨r', heq, hmem⟩ := calculateDescendants_spec hw hc (hs hx) hin hclosed
  refine ⟨r', heq, fun y hy => ?_, fun y => ?_⟩
  · rcases (hmem y).1 hy with hy | hxy
    · exact hin hy
    · exact hw.reflTransGen (hs hx) hxy
  · grind

theorem exploreParents_spec (hp : ParentLinks E pool)
    (hs : staged ⊆ pool.mapTx) :
    ∃ r, explore (fun y => (pool.entry y).parents) pool.mapTx.card staged ∅ = some r ∧
      ∀ a, a ∈ r ↔ ∃ p ∈ staged, ReflTransGen E a p := by
  have hfrontier : Frontier (fun y => (pool.entry y).parents) pool.mapTx staged ∅ := by
    refine ⟨hs, fun y hy z hz => (hw _ _ ((hp y hy z).1 hz)).1, ?_, ?_⟩
    · exact disjoint_empty_right _
    · simp
  obtain ⟨r, heq, hmem⟩ := explore_spec hfrontier (card_le_card sdiff_subset)
  refine ⟨r, heq, fun a => ?_⟩
  rw [hmem]
  have hreach : ∀ p ∈ staged, (Reaches (fun y => (pool.entry y).parents) p a ↔
      ReflTransGen E a p) := by
    intro p hps
    rw [← reflTransGen_swap]
    exact reaches_iff hp (fun a b hab => (hw b a hab).1) (hs hps)
  grind

end

theorem ancestorsLoop_ok
    (h : pool.ancestorsLoop size count limits fuel total staged ancestors = some (.ok r)) :
    explore (fun y => (pool.entry y).parents) fuel staged ancestors = some r := by
  induction fuel generalizing total staged ancestors with
  | zero =>
    rw [ancestorsLoop] at h
    rw [explore]
    grind
  | succ fuel ih =>
    rw [ancestorsLoop] at h
    rw [explore]
    grind

theorem ancestorsLoop_noLimits :
    pool.ancestorsLoop size count .noLimits fuel total staged ancestors =
      (explore (fun y => (pool.entry y).parents) fuel staged ancestors).map .ok := by
  induction fuel generalizing total staged ancestors with
  | zero =>
    rw [ancestorsLoop, explore]
    grind
  | succ fuel ih =>
    rw [ancestorsLoop, explore]
    by_cases hs : staged.Nonempty
    · rw [dif_pos hs, dif_pos hs]
      simp only [MemPoolLimits.noLimits, exceeds, Option.any_none, Bool.false_eq_true,
        and_false]
      exact ih
    · rw [dif_neg hs, dif_neg hs, Option.map_some]

theorem assumeCalculateMemPoolAncestors_eq (e : CTxMemPoolEntry) (search : Bool) :
    pool.assumeCalculateMemPoolAncestors e search =
      explore (fun y => (pool.entry y).parents) pool.mapTx.card
        (if search then pool.findParents e else e.parents) ∅ := by
  have hlimit n : exceeds n MemPoolLimits.noLimits.ancestorCount = false := rfl
  rw [assumeCalculateMemPoolAncestors, calculateMemPoolAncestors]
  simp only [hlimit, Bool.false_eq_true, and_false]
  rw [ancestorsLoop_noLimits]
  cases explore (fun y => (pool.entry y).parents) pool.mapTx.card
    (if search then pool.findParents e else e.parents) ∅ with
  | none => rfl
  | some r => rfl

theorem calculateMemPoolAncestors_ok {e : CTxMemPoolEntry} {search : Bool}
    (h : pool.calculateMemPoolAncestors e limits search = some (.ok r)) :
    pool.assumeCalculateMemPoolAncestors e search = some r := by
  rw [assumeCalculateMemPoolAncestors_eq]
  rw [calculateMemPoolAncestors] at h
  by_cases hmany : search ∧ (if search then pool.findParents e else e.parents).Nonempty ∧
      exceeds ((if search then pool.findParents e else e.parents).card + 1) limits.ancestorCount
  · simp [if_pos hmany] at h
  · rw [if_neg hmany] at h
    exact ancestorsLoop_ok h

theorem assumeAncestors_spec (hw : Within E pool) (hp : ParentLinks E pool) (hx : x ∈ pool.mapTx) :
    ∃ r, pool.assumeCalculateMemPoolAncestors (pool.entry x) false = some r ∧
      r ⊆ pool.mapTx ∧ ∀ a, a ∈ r ↔ TransGen E a x := by
  have hsub : (pool.entry x).parents ⊆ pool.mapTx := fun p hpx => (hw _ _ ((hp x hx p).1 hpx)).1
  obtain ⟨r, heq, hmem⟩ := exploreParents_spec hw hp hsub
  refine ⟨r, ?_, fun a ha => ?_, fun a => ?_⟩
  · rw [assumeCalculateMemPoolAncestors_eq]
    exact heq
  · obtain ⟨p, hps, hap⟩ := (hmem a).1 ha
    exact hw.reflTransGen_left (hsub hps) hap
  · rw [hmem, TransGen.tail'_iff]
    constructor
    · rintro ⟨p, hps, hap⟩
      exact ⟨p, hap, (hp x hx p).1 hps⟩
    · rintro ⟨p, hap, hpx⟩
      exact ⟨p, (hp x hx p).2 hpx, hap⟩

theorem calculateDescendants_erase (hw : Within E pool) (hc : ChildLinks E pool)
    (hacyclic : ∀ x, ¬ TransGen E x x) (hx : x ∈ pool.mapTx) :
    ∃ r, pool.calculateDescendants x ∅ = some r ∧ r.erase x ⊆ pool.mapTx ∧
      ∀ d, d ∈ r.erase x ↔ TransGen E x d := by
  obtain ⟨r, heq, hmem⟩ := calculateDescendants_empty hw hc hx
  refine ⟨r, heq, fun d hd => ?_, fun d => ?_⟩
  · exact hw.reflTransGen hx ((hmem d).1 (mem_of_mem_erase hd))
  · grind

end CTxMemPool

end BitcoinPurity
