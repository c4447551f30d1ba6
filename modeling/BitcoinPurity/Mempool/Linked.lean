import BitcoinPurity.Mempool.Updates

/-!
# Links and totals

`Linked P K A D pool`: the parents of the entries are those of the relation `P`, their children
those of `K`, and their totals count the ancestors by `A` and the descendants by `D`.  Between
operations `P` and `K` are one relation and `A` and `D` its transitive closure; inside of one they
move one after the other.  Each function that updates links or totals has one lemma, which says
how the four relations change and that none of its assertions fails.
-/

namespace BitcoinPurity

open Each Explore Relation Finset CTxMemPoolEntry

/-- An entry without its links and totals. -/
def CTxMemPoolEntry.unlinked (e : CTxMemPoolEntry) : CTxMemPoolEntry :=
  { e with
    parents := ∅
    children := ∅
    countWithDescendants := 0
    sizeWithDescendants := 0
    modFeesWithDescendants := 0
    countWithAncestors := 0
    sizeWithAncestors := 0
    modFeesWithAncestors := 0
    sigOpCostWithAncestors := 0 }

namespace CTxMemPool

variable {pool pool' pool'' : CTxMemPool}

/-- Two pools that differ in links and totals only. -/
structure SameTxs (pool pool' : CTxMemPool) : Prop where
  mapTx : pool'.mapTx = pool.mapTx
  mapNextTx : pool'.mapNextTx = pool.mapNextTx
  mapDeltas : pool'.mapDeltas = pool.mapDeltas
  totalTxSize : pool'.totalTxSize = pool.totalTxSize
  totalFee : pool'.totalFee = pool.totalFee
  txnsRandomized : pool'.txnsRandomized = pool.txnsRandomized
  entry : ∀ x, (pool'.entry x).unlinked = (pool.entry x).unlinked

namespace SameTxs

theorem refl (pool : CTxMemPool) : SameTxs pool pool := ⟨rfl, rfl, rfl, rfl, rfl, rfl, fun _ => rfl⟩

theorem symm (h : SameTxs pool pool') : SameTxs pool' pool :=
  ⟨h.mapTx.symm, h.mapNextTx.symm, h.mapDeltas.symm, h.totalTxSize.symm, h.totalFee.symm,
    h.txnsRandomized.symm, fun x => (h.entry x).symm⟩

theorem trans (h : SameTxs pool pool') (h' : SameTxs pool' pool'') : SameTxs pool pool'' :=
  ⟨h'.mapTx.trans h.mapTx, h'.mapNextTx.trans h.mapNextTx, h'.mapDeltas.trans h.mapDeltas,
    h'.totalTxSize.trans h.totalTxSize, h'.totalFee.trans h.totalFee,
    h'.txnsRandomized.trans h.txnsRandomized, fun x => (h'.entry x).trans (h.entry x)⟩

theorem mapEntries {g : Nat → CTxMemPoolEntry → CTxMemPoolEntry}
    (hg : ∀ x e, (g x e).unlinked = e.unlinked) : SameTxs pool (pool.mapEntries g) :=
  ⟨rfl, rfl, rfl, rfl, rfl, rfl, fun x => hg x (pool.entry x)⟩

variable (h : SameTxs pool pool') (x : Nat)
include h

theorem field {β : Type*} (f : CTxMemPoolEntry → β)
    (hf : ∀ e : CTxMemPoolEntry, f e.unlinked = f e) :
    f (pool'.entry x) = f (pool.entry x) := by
  rw [← hf, h.entry, hf]

theorem tx : (pool'.entry x).tx = (pool.entry x).tx := h.field x _ fun _ => rfl

theorem inputs : (pool'.entry x).inputs = (pool.entry x).inputs := h.field x _ fun _ => rfl

theorem nFee : (pool'.entry x).nFee = (pool.entry x).nFee := h.field x _ fun _ => rfl

theorem txSize : (pool'.entry x).txSize = (pool.entry x).txSize := h.field x _ fun _ => rfl

theorem idxRandomized : (pool'.entry x).idxRandomized = (pool.entry x).idxRandomized :=
  h.field x _ fun _ => rfl

theorem modifiedFee : (pool'.entry x).modifiedFee = (pool.entry x).modifiedFee :=
  h.field x _ fun _ => rfl

theorem weight : (pool'.entry x).weight = (pool.entry x).weight := h.field x _ fun _ => rfl

theorem upWeight : (pool'.entry x).upWeight = (pool.entry x).upWeight := h.field x _ fun _ => rfl

end SameTxs

/-! ## Totals -/

open Classical in
def AncestorsCounted (A : Nat → Nat → Prop) (pool : CTxMemPool) : Prop :=
  ∀ x ∈ pool.mapTx, (pool.entry x).ancestorTotals =
    (pool.entry x).weight + ∑ a ∈ pool.mapTx.filter (fun a => A a x), (pool.entry a).weight

open Classical in
def DescendantsCounted (D : Nat → Nat → Prop) (pool : CTxMemPool) : Prop :=
  ∀ x ∈ pool.mapTx, (pool.entry x).descendantTotals =
    (pool.entry x).upWeight + ∑ d ∈ pool.mapTx.filter (fun d => D x d), (pool.entry d).upWeight

section

open Classical

variable {M : Type*} [AddCommMonoid M] {S s : Finset Nat} {w : Nat → M} {y : Nat}

theorem sum_filter_single {q : Nat → Prop} {c : Prop} [Decidable c]
    (hq : ∀ a, q a ↔ a = y ∧ c) (hy : y ∈ S) : ∑ a ∈ S.filter q, w a = if c then w y else 0 := by
  split
  next hc =>
    rw [← sum_singleton w y]
    refine sum_congr ?_ fun _ _ => rfl
    grind
  next hc =>
    refine sum_eq_zero fun a ha => ?_
    exact absurd ((hq a).1 (mem_filter.1 ha).2).2 hc

theorem sum_filter_mem {q : Nat → Prop} {c : Prop} [Decidable c]
    (hq : ∀ a, q a ↔ c ∧ a ∈ s) (hs : s ⊆ S) :
    ∑ a ∈ S.filter q, w a = if c then ∑ a ∈ s, w a else 0 := by
  split
  next hc =>
    refine sum_congr ?_ fun _ _ => rfl
    grind
  next hc =>
    refine sum_eq_zero fun a ha => ?_
    exact absurd ((hq a).1 (mem_filter.1 ha).2).1 hc

/-- What `AncestorsCounted` and `DescendantsCounted` are cases of: the total `t` of each entry is the
sum of `w` over it and the entries it is related to. -/
def Counted (w t : CTxMemPoolEntry → M) (R : Nat → Nat → Prop) (pool : CTxMemPool) : Prop :=
  ∀ x ∈ pool.mapTx, t (pool.entry x) =
    w (pool.entry x) + ∑ y ∈ pool.mapTx.filter (R x), w (pool.entry y)

variable {M : Type*} [AddCommGroup M] {w t : CTxMemPoolEntry → M} {R R' N : Nat → Nat → Prop}
  (hw : ∀ e : CTxMemPoolEntry, w e.unlinked = w e)
include hw

theorem counted_or (hsame : SameTxs pool pool') (hR : ∀ x y, R' x y ↔ R x y ∨ N x y)
    (hnew : ∀ x y, R x y → ¬ N x y) (htot : ∀ x ∈ pool.mapTx, t (pool'.entry x) = t (pool.entry x) +
      ∑ y ∈ pool.mapTx.filter (N x), w (pool.entry y)) :
    Counted w t R pool ↔ Counted w t R' pool' := by
  rw [Counted, Counted, hsame.mapTx]
  refine forall₂_congr fun x hx => ?_
  simp only [fun y => hsame.field y w hw]
  simp only [hR x, filter_or]
  rw [htot x hx, sum_union (disjoint_filter.2 fun y _ => hnew x y), ← add_assoc, add_left_inj]

theorem counted_single (i : Nat) (s : Finset Nat) (hsame : SameTxs pool pool') (hi : i ∈ pool.mapTx)
    (hR : ∀ x y, R' x y ↔ R x y ∨ (y = i ∧ x ∈ s)) (hnew : ∀ x ∈ s, ¬ R x i)
    (htot : ∀ x ∈ pool.mapTx, t (pool'.entry x) =
      t (pool.entry x) + if x ∈ s then w (pool.entry i) else 0) :
    Counted w t R pool ↔ Counted w t R' pool' := by
  refine counted_or hw hsame hR ?_ fun x hx => ?_
  · rintro x y hxy ⟨rfl, hx⟩
    exact hnew x hx hxy
  · rw [htot x hx, sum_filter_single (fun a => Iff.rfl) hi]

theorem counted_entry (i : Nat) (s : Finset Nat) (hsame : SameTxs pool pool') (hs : s ⊆ pool.mapTx)
    (hR : ∀ x y, R' x y ↔ R x y ∨ (x = i ∧ y ∈ s)) (hnew : ∀ y ∈ s, ¬ R i y)
    (htot : ∀ x ∈ pool.mapTx, t (pool'.entry x) =
      t (pool.entry x) + if x = i then ∑ y ∈ s, w (pool.entry y) else 0) :
    Counted w t R pool ↔ Counted w t R' pool' := by
  refine counted_or hw hsame hR ?_ fun x hx => ?_
  · rintro x y hxy ⟨rfl, hy⟩
    exact hnew y hy hxy
  · rw [htot x hx, sum_filter_mem (fun a => Iff.rfl) hs]

theorem Counted.mapEntries {g : Nat → CTxMemPoolEntry → CTxMemPoolEntry} (h : Counted w t R pool)
    (hsame : ∀ x e, (g x e).unlinked = e.unlinked) (hg : ∀ x e, t (g x e) = t e) :
    Counted w t R (pool.mapEntries g) := by
  refine (counted_or (N := fun _ _ => False) hw (.mapEntries hsame) (by simp) (by simp)
    fun x _ => ?_).1 h
  simp only [filter_false, sum_empty, add_zero]
  exact hg x (pool.entry x)

end

/-! ## Four relations -/

/-- The links and totals of the pool by four relations: parents, children, counted ancestors and
counted descendants. -/
structure Linked (P K A D : Nat → Nat → Prop) (pool : CTxMemPool) : Prop where
  parents : ParentLinks P pool
  children : ChildLinks K pool
  ancestors : AncestorsCounted A pool
  descendants : DescendantsCounted D pool

variable {P P' K K' A A' D D' E : Nat → Nat → Prop}

theorem Linked.congr_on (h : Linked P K A D pool)
    (hP : ∀ p c, c ∈ pool.mapTx → (P p c ↔ P' p c)) (hK : ∀ p c, p ∈ pool.mapTx → (K p c ↔ K' p c))
    (hA : ∀ a x, a ∈ pool.mapTx → x ∈ pool.mapTx → (A a x ↔ A' a x))
    (hD : ∀ x d, x ∈ pool.mapTx → d ∈ pool.mapTx → (D x d ↔ D' x d)) : Linked P' K' A' D' pool := by
  classical
  refine ⟨fun c hc p => (h.parents c hc p).trans (hP p c hc),
    fun p hp c => (h.children p hp c).trans (hK p c hp), fun x hx => ?_, fun x hx => ?_⟩
  · rw [h.ancestors x hx]
    exact congrArg _ (sum_congr (filter_congr fun a ha => hA a x ha hx) fun _ _ => rfl)
  · rw [h.descendants x hx]
    exact congrArg _ (sum_congr (filter_congr fun d hd => hD x d hx hd) fun _ _ => rfl)

theorem same (a b : Nat) : E a b ↔ E a b :=
  Iff.rfl

theorem Linked.congr (h : Linked P K A D pool) (p : ∀ a b, P a b ↔ P' a b)
    (k : ∀ a b, K a b ↔ K' a b) (a : ∀ a b, A a b ↔ A' a b) (d : ∀ a b, D a b ↔ D' a b) :
    Linked P' K' A' D' pool :=
  h.congr_on (fun x y _ => p x y) (fun x y _ => k x y) (fun x y _ _ => a x y)
    fun x y _ _ => d x y

theorem field_ite {β : Type*} {f : CTxMemPoolEntry → β} {c : Prop} [Decidable c]
    {e e' : CTxMemPoolEntry} (h : f e' = f e) : f (if c then e' else e) = f e := by
  by_cases hc : c
  · rw [if_pos hc, h]
  · rw [if_neg hc]

section

variable {g : Nat → CTxMemPoolEntry → CTxMemPoolEntry}

theorem ParentLinks.mapEntries (h : ParentLinks P pool)
    (hg : ∀ x e, (g x e).parents = e.parents := by exact fun _ _ => field_ite rfl) :
    ParentLinks P (pool.mapEntries g) :=
  fun c hc p => (hg c (pool.entry c)).symm ▸ h c hc p

theorem ChildLinks.mapEntries (h : ChildLinks K pool)
    (hg : ∀ x e, (g x e).children = e.children := by exact fun _ _ => field_ite rfl) :
    ChildLinks K (pool.mapEntries g) :=
  fun p hp c => (hg p (pool.entry p)).symm ▸ h p hp c

theorem AncestorsCounted.mapEntries (h : AncestorsCounted A pool)
    (hsame : ∀ x e, (g x e).unlinked = e.unlinked := by exact fun _ _ => field_ite rfl)
    (hg : ∀ x e, (g x e).ancestorTotals = e.ancestorTotals := by exact fun _ _ => field_ite rfl) :
    AncestorsCounted A (pool.mapEntries g) :=
  Counted.mapEntries (fun _ => rfl) h hsame hg

theorem DescendantsCounted.mapEntries (h : DescendantsCounted D pool)
    (hsame : ∀ x e, (g x e).unlinked = e.unlinked := by exact fun _ _ => field_ite rfl)
    (hg : ∀ x e, (g x e).descendantTotals = e.descendantTotals := by
      exact fun _ _ => field_ite rfl) :
    DescendantsCounted D (pool.mapEntries g) :=
  Counted.mapEntries (fun _ => rfl) h hsame hg

end

theorem iff_and_not_or {p q : Prop} (h : q → p) : p ↔ p ∧ ¬ q ∨ q := by
  by_cases hq : q
  · exact iff_of_true (h hq) (.inr hq)
  · simp [hq]

theorem and_not_insert (p q : Prop) (a x : Nat) (s : Finset Nat) :
    (p ∧ ¬ (a ∈ s ∧ q)) ∧ ¬ (a = x ∧ q) ↔ p ∧ ¬ (a ∈ insert x s ∧ q) := by
  rw [mem_insert]
  tauto

section

variable {q : Nat → Prop} [DecidablePred q]

variable {f : CTxMemPoolEntry → Finset Nat}

theorem Linked.withParents (h : Linked P K A D pool)
    (hP : ∀ c ∈ pool.mapTx, ∀ p, (p ∈ if q c then f (pool.entry c) else (pool.entry c).parents) ↔
      P' p c) :
    Linked P' K A D (pool.mapEntries fun x e => if q x then { e with parents := f e } else e) where
  parents := by
    intro c hc p
    rw [← hP c hc p]
    by_cases hq : q c
    · simp [mapEntries, if_pos hq]
    · simp [mapEntries, if_neg hq]
  children := h.children.mapEntries
  ancestors := h.ancestors.mapEntries
  descendants := h.descendants.mapEntries

theorem Linked.withChildren (h : Linked P K A D pool)
    (hK : ∀ p ∈ pool.mapTx, ∀ c, (c ∈ if q p then f (pool.entry p) else (pool.entry p).children) ↔
      K' p c) :
    Linked P K' A D (pool.mapEntries fun x e => if q x then { e with children := f e } else e) where
  parents := h.parents.mapEntries
  children := by
    intro p hp c
    rw [← hK p hp c]
    by_cases hq : q p
    · simp [mapEntries, if_pos hq]
    · simp [mapEntries, if_neg hq]
  ancestors := h.ancestors.mapEntries
  descendants := h.descendants.mapEntries

theorem sameTxs_withParents :
    SameTxs pool (pool.mapEntries fun x e => if q x then { e with parents := f e } else e) :=
  .mapEntries fun _ _ => field_ite rfl

theorem updateParent_add {x y : Nat} (hx : x ∈ pool.mapTx) (h : Linked P K A D pool) :
    ∃ pool', pool.updateParent x y true = some pool' ∧ SameTxs pool pool' ∧
      Linked (fun p c => P p c ∨ (p = y ∧ c = x)) K A D pool' := by
  refine ⟨_, modify_eq (g := withParent true y) hx rfl, sameTxs_withParents, h.withParents ?_⟩
  intro c hc p
  by_cases hcx : c = x
  · simp only [hcx, if_true, mem_insert, and_true]
    rw [← hcx, h.parents c hc, or_comm]
  · simp only [hcx, and_false, or_false]
    exact h.parents c hc p

theorem updateChild_add {x y : Nat} (hx : x ∈ pool.mapTx) (h : Linked P K A D pool) :
    ∃ pool', pool.updateChild x y true = some pool' ∧ SameTxs pool pool' ∧
      Linked P (fun p c => K p c ∨ (p = x ∧ c = y)) A D pool' := by
  refine ⟨_, modify_eq (g := withChild true y) hx rfl, .mapEntries fun _ _ => field_ite rfl,
    h.withChildren ?_⟩
  intro p hp c
  by_cases hpx : p = x
  · simp only [hpx, if_true, mem_insert, true_and]
    rw [← hpx, h.children p hp, or_comm]
  · simp only [hpx, false_and, or_false]
    exact h.children p hp c

end

section

variable {it : Nat} {s : Finset Nat} {size fee count sigops : Int}

def addAncestors (s : Finset Nat) (size fee count sigops : Int) (x : Nat) (e : CTxMemPoolEntry) :
    CTxMemPoolEntry :=
  if x ∈ s then e.addAncestorState size fee count sigops else e

theorem ancestorTotals_addAncestors (x : Nat) :
    ((pool.mapEntries (addAncestors s size fee count sigops)).entry x).ancestorTotals =
      (pool.entry x).ancestorTotals + if x ∈ s then (count, size, fee, sigops) else 0 := by
  simp only [mapEntries, addAncestors]
  by_cases hx : x ∈ s
  · rw [if_pos hx, if_pos hx]
    rfl
  · rw [if_neg hx, if_neg hx, add_zero]

theorem sameTxs_addAncestors :
    SameTxs pool (pool.mapEntries (addAncestors s size fee count sigops)) :=
  .mapEntries fun _ _ => field_ite rfl

theorem modifyEach_ancestors (hs : s ⊆ pool.mapTx) (h : Linked P K A D pool) :
    let pool' := pool.mapEntries (addAncestors s size fee count sigops)
    AncestorsCounted A' pool' →
      pool.modifyEach s (updateAncestorState size fee count sigops) = some pool' ∧
        Linked P K A' D pool' := by
  intro pool' hcounted
  constructor
  · refine modifyEach_eq hs fun x hx => ?_
    have hx' := hcounted x (hs hx)
    have hentry : pool'.entry x = (pool.entry x).addAncestorState size fee count sigops := if_pos hx
    rw [hentry] at hx'
    exact updateAncestorState_eq hx'
  · exact ⟨h.parents.mapEntries, h.children.mapEntries, hcounted, h.descendants.mapEntries⟩

/-! ## `UpdateAncestorsOf` -/

section

variable {add : Bool} {e e' : CTxMemPoolEntry} {x : Nat}

theorem field_ancestorsUpdate {β : Type*} {f : CTxMemPoolEntry → β}
    (hc : ∀ e, f (withChild add it e) = f e := by intros; rfl)
    (hd : ∀ e size fee count, f (addDescendantState size fee count e) = f e := by intros; rfl) :
    f (ancestorsUpdate add it e s x e') = f e' := by
  rw [ancestorsUpdate]
  rw [field_ite (hd _ _ _ _), field_ite (hc _)]

theorem sameTxs_ancestorsUpdate : SameTxs pool (pool.mapEntries (ancestorsUpdate add it e s)) :=
  .mapEntries fun _ _ => field_ancestorsUpdate

theorem children_ancestorsUpdate : (ancestorsUpdate add it e s x e').children =
    if x ∈ e.parents then (if add then insert it e'.children else e'.children.erase it)
    else e'.children := by
  rw [ancestorsUpdate, field_ite (f := CTxMemPoolEntry.children) (by rfl)]
  by_cases hx : x ∈ e.parents
  · rw [if_pos hx, if_pos hx]
    rfl
  · rw [if_neg hx, if_neg hx]

theorem descendantTotals_ancestorsUpdate :
    ((pool.mapEntries (ancestorsUpdate add it e s)).entry x).descendantTotals =
      (pool.entry x).descendantTotals +
        if x ∈ s then (if add then e.upWeight else -e.upWeight) else 0 := by
  simp only [mapEntries, ancestorsUpdate]
  by_cases hx : x ∈ s
  · rw [if_pos hx, if_pos hx, descendantTotals_addDescendantState,
      field_ite (descendantTotals_withChild _ _ _), signed_upWeight]
  · rw [if_neg hx, if_neg hx, field_ite (descendantTotals_withChild _ _ _), add_zero]

theorem updateAncestorsOf_spec (hp : (pool.entry it).parents ⊆ pool.mapTx) (hs : s ⊆ pool.mapTx)
    (h : Linked P K A D pool) :
    let pool₁ := pool.mapEntries (ancestorsUpdate add it (pool.entry it) s)
    ChildLinks K' pool₁ → DescendantsCounted D' pool₁ →
      ∃ pool', pool.updateAncestorsOf add it s = some pool' ∧ SameTxs pool pool' ∧
        Linked P K' A D' pool' := by
  intro pool₁ hchild hcounted
  have hsame : SameTxs pool pool₁ := sameTxs_ancestorsUpdate
  refine ⟨_, updateAncestorsOf_eq hp hs fun x hx => ?_, hsame, ?_, hchild, ?_, hcounted⟩
  · have hx' := hcounted x (hs hx)
    rw [descendantTotals_ancestorsUpdate, if_pos hx, hsame.upWeight] at hx'
    exact ⟨_, _, hx'⟩
  · exact h.parents.mapEntries fun _ _ =>
      field_ancestorsUpdate
  · exact h.ancestors.mapEntries (fun _ _ => field_ancestorsUpdate)
      fun _ _ => field_ancestorsUpdate

end

/-- An entry becomes a child of its parents and a descendant of the entries of a set. -/
theorem updateAncestorsOf_add (hit : it ∈ pool.mapTx)
    (hp : (pool.entry it).parents ⊆ pool.mapTx) (hs : s ⊆ pool.mapTx) (h : Linked P K A D pool)
    (hnew : ∀ x ∈ s, ¬ D x it) :
    ∃ pool', pool.updateAncestorsOf true it s = some pool' ∧ SameTxs pool pool' ∧
      Linked P (fun p c => K p c ∨ (c = it ∧ p ∈ (pool.entry it).parents)) A
        (fun x d => D x d ∨ (d = it ∧ x ∈ s)) pool' := by
  refine updateAncestorsOf_spec hp hs h (fun p hpool c => ?_) ?_
  · refine Iff.trans (iff_of_eq (congrArg (c ∈ ·) children_ancestorsUpdate)) ?_
    have hK := h.children p hpool c
    grind
  · refine (counted_single (fun _ => rfl) it s sameTxs_ancestorsUpdate hit (fun x d => Iff.rfl) hnew
      fun x _ => ?_).1 h.descendants
    rw [descendantTotals_ancestorsUpdate, if_pos rfl]

/-- An entry is no longer a child of its parents and a descendant of the entries of a set. -/
theorem updateAncestorsOf_remove (hit : it ∈ pool.mapTx)
    (hp : (pool.entry it).parents ⊆ pool.mapTx) (hs : s ⊆ pool.mapTx) (h : Linked P K A D pool)
    (hold : ∀ x ∈ s, D x it) :
    ∃ pool', pool.updateAncestorsOf false it s = some pool' ∧ SameTxs pool pool' ∧
      Linked P (fun p c => K p c ∧ ¬ (c = it ∧ p ∈ (pool.entry it).parents)) A
        (fun x d => D x d ∧ ¬ (d = it ∧ x ∈ s)) pool' := by
  refine updateAncestorsOf_spec hp hs h (fun p hpool c => ?_) ?_
  · refine Iff.trans (iff_of_eq (congrArg (c ∈ ·) children_ancestorsUpdate)) ?_
    have hK := h.children p hpool c
    grind
  · have hsame : SameTxs pool (pool.mapEntries (ancestorsUpdate false it (pool.entry it) s)) :=
      sameTxs_ancestorsUpdate
    refine (counted_single (fun _ => rfl) it s hsame.symm hit (fun x d => ?_)
      (fun x hx hxd => hxd.2 ⟨rfl, hx⟩) fun x _ => ?_).2 h.descendants
    · exact iff_and_not_or fun h => h.1 ▸ hold x h.2
    · rw [hsame.upWeight, descendantTotals_ancestorsUpdate]
      by_cases hx : x ∈ s
      · rw [if_pos hx, if_pos hx, if_neg (by decide), add_assoc, neg_add_cancel, add_zero]
      · rw [if_neg hx, if_neg hx, add_zero, add_zero]

/-! ## Removal -/

theorem updateDescendantsForRemoval_spec (it : Nat) (hw : Within K pool)
    (hacyclic : ∀ x, ¬ TransGen K x x) (hit : it ∈ pool.mapTx) (h : Linked P K A D pool)
    (hA : ∀ x, TransGen K it x → A it x) :
    ∃ pool', pool.updateDescendantsForRemoval it = some pool' ∧ SameTxs pool pool' ∧
      Linked P K (fun a x => A a x ∧ ¬ (a = it ∧ TransGen K it x)) D pool' := by
  obtain ⟨r, heq, hsub, hmem⟩ := calculateDescendants_erase hw h.children hacyclic hit
  let e := pool.entry it
  have hcounted : AncestorsCounted (fun a x => A a x ∧ ¬ (a = it ∧ TransGen K it x))
      (pool.mapEntries (addAncestors (r.erase it) (-e.txSize) (-e.modifiedFee) (-1)
        (-e.sigOpCost))) := by
    have hsame : SameTxs pool (pool.mapEntries (addAncestors (r.erase it) (-e.txSize)
      (-e.modifiedFee) (-1) (-e.sigOpCost))) := sameTxs_addAncestors
    refine (counted_single (fun _ => rfl) it (r.erase it) hsame.symm hit
      (fun x a => ?_)
      (fun x hx => ?_) fun x hx => ?_).2 h.ancestors
    · rw [hmem]
      exact iff_and_not_or fun h => h.1 ▸ hA x h.2
    · exact fun hax => hax.2 ⟨rfl, (hmem x).1 hx⟩
    · rw [hsame.weight, ancestorTotals_addAncestors]
      have hneg : ((-1, -e.txSize, -e.modifiedFee, -e.sigOpCost)) =
          -(pool.entry it).weight := rfl
      rw [hneg]
      by_cases hxs : x ∈ r.erase it
      · rw [if_pos hxs, if_pos hxs, add_assoc, neg_add_cancel, add_zero]
      · rw [if_neg hxs, if_neg hxs, add_zero, add_zero]
  obtain ⟨hmodify, hlinked⟩ := modifyEach_ancestors hsub h hcounted
  refine ⟨_, ?_, sameTxs_addAncestors, hlinked⟩
  rw [updateDescendantsForRemoval, heq]
  exact hmodify

theorem updateAncestorsForRemoval_spec (it : Nat) (hw : Within P pool) (hit : it ∈ pool.mapTx)
    (h : Linked P K A D pool) (hD : ∀ a, TransGen P a it → D a it) :
    ∃ pool', pool.updateAncestorsForRemoval it = some pool' ∧ SameTxs pool pool' ∧
      Linked P (fun p c => K p c ∧ ¬ (c = it ∧ P p c)) A
        (fun a x => D a x ∧ ¬ (x = it ∧ TransGen P a x)) pool' := by
  obtain ⟨r, heq, hsub, hmem⟩ := assumeAncestors_spec hw h.parents hit
  have hp : (pool.entry it).parents ⊆ pool.mapTx :=
    fun p hp => (hw _ _ ((h.parents it hit p).1 hp)).1
  obtain ⟨pool', hupdate, hsame, hlinked⟩ :=
    updateAncestorsOf_remove hit hp hsub h fun x hx => hD x ((hmem x).1 hx)
  refine ⟨pool', ?_, hsame, hlinked.congr same (fun p c => ?_) same fun a x => ?_⟩
  · rw [updateAncestorsForRemoval, heq]
    exact hupdate
  · refine and_congr_right fun _ => not_congr (and_congr_right fun hc => ?_)
    rw [h.parents it hit, hc]
  · grind

theorem updateChildrenForRemoval_spec (it : Nat) (hw : Within K pool) (hit : it ∈ pool.mapTx)
    (h : Linked P K A D pool) :
    ∃ pool', pool.updateChildrenForRemoval it = some pool' ∧ SameTxs pool pool' ∧
      Linked (fun p c => P p c ∧ ¬ (p = it ∧ K p c)) K A D pool' := by
  have hsub : (pool.entry it).children ⊆ pool.mapTx :=
    fun c hc => (hw _ _ ((h.children it hit c).1 hc)).2
  refine ⟨_, forEach_modify (g := fun _ => withParent false it) hsub fun _ _ => rfl,
    sameTxs_withParents, h.withParents fun c hc p => ?_⟩
  have hK := h.children it hit c
  by_cases hcc : c ∈ (pool.entry it).children
  · have hKc := hK.1 hcc
    simp only [hcc, if_true, Bool.false_eq_true, if_false, mem_erase]
    rw [h.parents c hc, and_comm]
    grind
  · simp only [hcc, if_false]
    rw [h.parents c hc]
    grind

theorem Within.of_sameTxs (hw : Within E pool) (hsame : SameTxs pool pool') : Within E pool' := by
  intro p c hpc
  rw [hsame.mapTx]
  exact hw p c hpc

theorem updateEachDescendants_spec (hw : Within K pool) (hacyclic : ∀ x, ¬ TransGen K x x)
    (hs : s ⊆ pool.mapTx) (h : Linked P K A D pool) (hA : ∀ a x, TransGen K a x → A a x) :
    ∃ pool', forEach s updateDescendantsForRemoval pool = some pool' ∧ SameTxs pool pool' ∧
      Linked P K (fun a x => A a x ∧ ¬ (a ∈ s ∧ TransGen K a x)) D pool' := by
  refine forEach_spec (fun d st => SameTxs pool st ∧
    Linked P K (fun a x => A a x ∧ ¬ (a ∈ d ∧ TransGen K a x)) D st) ⟨.refl pool, ?_⟩ ?_
  · exact h.congr same same (by simp) same
  · rintro d x st hx hxd ⟨hsame, hst⟩
    obtain ⟨st', heq, hsame', hst'⟩ := updateDescendantsForRemoval_spec x
      (hw.of_sameTxs hsame) hacyclic (hsame.mapTx ▸ hs hx) hst
      fun y hy => ⟨hA x y hy, fun hd => hxd hd.1⟩
    refine ⟨st', heq, hsame.trans hsame', hst'.congr same same (fun a y =>
      Iff.trans ?_ (and_not_insert (A a y) (TransGen K a y) a x d)) same⟩
    exact and_congr_right fun _ => not_congr (and_congr_right fun ha => by rw [ha])

theorem updateEachAncestors_spec (hw : Within P pool) (hs : s ⊆ pool.mapTx)
    (h : Linked P K A D pool) (hD : ∀ a x, TransGen P a x → D a x) :
    ∃ pool', forEach s updateAncestorsForRemoval pool = some pool' ∧ SameTxs pool pool' ∧
      Linked P (fun p c => K p c ∧ ¬ (c ∈ s ∧ P p c)) A
        (fun a x => D a x ∧ ¬ (x ∈ s ∧ TransGen P a x)) pool' := by
  refine forEach_spec (fun d st => SameTxs pool st ∧
    Linked P (fun p c => K p c ∧ ¬ (c ∈ d ∧ P p c)) A
      (fun a x => D a x ∧ ¬ (x ∈ d ∧ TransGen P a x)) st) ⟨.refl pool, ?_⟩ ?_
  · exact h.congr same (by simp) same (by simp)
  · rintro d x st hx hxd ⟨hsame, hst⟩
    obtain ⟨st', heq, hsame', hst'⟩ := updateAncestorsForRemoval_spec x
      (hw.of_sameTxs hsame) (hsame.mapTx ▸ hs hx) hst
      fun a ha => ⟨hD a x ha, fun hd => hxd hd.1⟩
    exact ⟨st', heq, hsame.trans hsame', hst'.congr
      same (fun _ _ => and_not_insert ..) same fun _ _ => and_not_insert ..⟩

theorem updateEachChildren_spec (hw : Within K pool) (hs : s ⊆ pool.mapTx)
    (h : Linked P K A D pool) :
    ∃ pool', forEach s updateChildrenForRemoval pool = some pool' ∧ SameTxs pool pool' ∧
      Linked (fun p c => P p c ∧ ¬ (p ∈ s ∧ K p c)) K A D pool' := by
  refine forEach_spec (fun d st => SameTxs pool st ∧
    Linked (fun p c => P p c ∧ ¬ (p ∈ d ∧ K p c)) K A D st) ⟨.refl pool, ?_⟩ ?_
  · exact h.congr (by simp) same same same
  · rintro d x st hx hxd ⟨hsame, hst⟩
    obtain ⟨st', heq, hsame', hst'⟩ := updateChildrenForRemoval_spec x
      (hw.of_sameTxs hsame) (hsame.mapTx ▸ hs hx) hst
    exact ⟨st', heq, hsame.trans hsame', hst'.congr
      (fun _ _ => and_not_insert ..) same same same⟩

/-- **What `UpdateForRemoveFromMempool` leaves**: no links from the removed entries to the others
or from any entry to a removed one, no removed entries among counted descendants and, if the
descendants are updated, none among counted ancestors. -/
theorem updateForRemoveFromMempool_spec (updateDescendants : Bool) (hw : Within E pool)
    (hacyclic : ∀ x, ¬ TransGen E x x) (hs : s ⊆ pool.mapTx)
    (h : Linked E E (TransGen E) (TransGen E) pool) :
    ∃ pool', pool.updateForRemoveFromMempool s updateDescendants = some pool' ∧ SameTxs pool pool' ∧
      Linked (fun p c => E p c ∧ ¬ (p ∈ s ∧ c ∉ s)) (fun p c => E p c ∧ c ∉ s)
        (fun a x => TransGen E a x ∧ ¬ (updateDescendants ∧ a ∈ s))
        (fun a x => TransGen E a x ∧ x ∉ s) pool' := by
  obtain ⟨pool1, heq1, hsame1, h1⟩ : ∃ pool1,
      (if updateDescendants then forEach s updateDescendantsForRemoval pool else some pool) =
        some pool1 ∧ SameTxs pool pool1 ∧
      Linked E E (fun a x => TransGen E a x ∧ ¬ (updateDescendants ∧ a ∈ s))
        (TransGen E) pool1 := by
    cases updateDescendants with
    | true =>
      obtain ⟨pool1, heq, hsame, h1⟩ := updateEachDescendants_spec hw hacyclic hs h fun _ _ h => h
      refine ⟨pool1, heq, hsame, h1.congr same same ?_ same⟩
      intro a x
      tauto
    | false =>
      exact ⟨pool, rfl, .refl pool, h.congr same same (by simp) same⟩
  have hs1 : s ⊆ pool1.mapTx := hsame1.mapTx ▸ hs
  obtain ⟨pool2, heq2, hsame2, h2⟩ :=
    updateEachAncestors_spec (hw.of_sameTxs hsame1) hs1 h1 fun _ _ h => h
  have hw2 : Within (fun p c => E p c ∧ ¬ (c ∈ s ∧ E p c)) pool2 :=
    fun p c hpc => (hw.of_sameTxs (hsame1.trans hsame2)) p c hpc.1
  obtain ⟨pool3, heq3, hsame3, h3⟩ := updateEachChildren_spec hw2 (hsame2.mapTx ▸ hs1) h2
  refine ⟨pool3, ?_, (hsame1.trans hsame2).trans hsame3, h3.congr ?_ ?_ same ?_⟩
  · rw [updateForRemoveFromMempool]
    cases updateDescendants with
    | true =>
      rw [if_pos rfl] at heq1
      simp [heq1, heq2, heq3]
    | false =>
      cases heq1
      simp [heq2, heq3]
  · intro p c
    tauto
  · intro p c
    tauto
  · intro a x
    tauto

/-! ## Addition -/

theorem addParents_spec (hit : it ∈ pool.mapTx) (h : Linked P K A D pool) :
    ∃ pool', forEach s (fun parent => updateParent it parent true) pool = some pool' ∧
      SameTxs pool pool' ∧ Linked (fun p c => P p c ∨ (c = it ∧ p ∈ s)) K A D pool' := by
  refine ⟨_, addParents_eq hit, sameTxs_withParents, h.withParents fun c hc p => ?_⟩
  have hP := h.parents c hc p
  grind

theorem updateEntryForAncestors_spec (hit : it ∈ pool.mapTx) (hs : s ⊆ pool.mapTx)
    (h : Linked P K A D pool) (hnone : ∀ a, ¬ A a it) :
    ∃ pool', pool.updateEntryForAncestors it s = some pool' ∧ SameTxs pool pool' ∧
      Linked P K (fun a x => A a x ∨ (x = it ∧ a ∈ s)) D pool' := by
  have hfresh : (pool.entry it).ancestorTotals = (pool.entry it).weight := by
    classical
    refine (h.ancestors it hit).trans ?_
    refine (congrArg _ (sum_eq_zero fun a ha => ?_)).trans (add_zero _)
    exact absurd (mem_filter.1 ha).2 (hnone a)
  have hsame : SameTxs pool (pool.mapEntries fun y e =>
      if y = it then e.addAncestorState (∑ a ∈ s, (pool.entry a).txSize)
        (∑ a ∈ s, (pool.entry a).modifiedFee) s.card (∑ a ∈ s, (pool.entry a).sigOpCost)
      else e) := .mapEntries fun _ _ => field_ite rfl
  refine ⟨_, modify_eq hit ?_, hsame, ?_, ?_, ?_, ?_⟩
  · refine updateAncestorState_eq (s := s) (w := pool.entry) ?_
    rw [hfresh, sum_weight]
  · exact h.parents.mapEntries
  · exact h.children.mapEntries
  · refine (counted_entry (fun _ => rfl) it s hsame hs (fun _ _ => Iff.rfl)
      (fun a _ => hnone a) fun x _ => ?_).1 h.ancestors
    by_cases hx : x = it
    · simp only [CTxMemPool.mapEntries, hx, if_true]
      rw [sum_weight]
      rfl
    · simp [mapEntries, hx]
  · exact h.descendants.mapEntries (fun _ _ => field_ite rfl)
      fun _ _ => field_ite rfl

end

end CTxMemPool

end BitcoinPurity
