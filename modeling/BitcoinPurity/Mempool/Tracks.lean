import BitcoinPurity.Mempool.Linked

/-!
# Adding and removing entries

`Tracks E pool`: the links are the relation `E`, which has no cycles, the totals count its
transitive closure, and `mapNextTx`, the totals of the pool and `txns_randomized` fit the entries
(`Ledger`).

`Tracks.removeStaged_closed`, `Tracks.removeStaged_root`, `Tracks.addNewTransaction` and
`Tracks.prioritiseTransaction`: each ends without a failed assertion, and what is left tracks the
relation that is left.
-/

namespace BitcoinPurity

open Each Explore Relation Ancestry List CTxMemPoolEntry Function
open Finset (mem_erase mem_inter notMem_empty sdiff_empty sum_congr sum_empty)

/-- An entry without its place in `txns_randomized`. -/
def CTxMemPoolEntry.unplaced (e : CTxMemPoolEntry) : CTxMemPoolEntry := { e with idxRandomized := 0 }

/-- An entry without what the pool keeps in it. -/
def CTxMemPoolEntry.body (e : CTxMemPoolEntry) : CTxMemPoolEntry := e.unlinked.unplaced

namespace CTxMemPool

variable {pool pool' pool'' : CTxMemPool} {P K A D E : Nat → Nat → Prop}

/-! ## `mapNextTx`, totals and places -/

/-- What the pool keeps besides links and totals of entries: entries are stored under their txids,
`mapNextTx` has exactly their inputs, the totals of the pool are sums over them, and every one of
them is at its place in `txns_randomized`. -/
structure Ledger (pool : CTxMemPool) : Prop where
  keys : ∀ x ∈ pool.mapTx, (pool.entry x).tx.hash = x
  next : ∀ o t, (o, t) ∈ pool.mapNextTx ↔ t ∈ pool.mapTx ∧ o ∈ (pool.entry t).inputs
  nextKeys : (pool.mapNextTx.map Prod.fst).Nodup
  txSize : pool.totalTxSize = ∑ x ∈ pool.mapTx, (pool.entry x).txSize
  fee : pool.totalFee = ∑ x ∈ pool.mapTx, (pool.entry x).nFee
  randomized : ∀ i t, pool.txnsRandomized[i]? = some t ↔
    t ∈ pool.mapTx ∧ (pool.entry t).idxRandomized = i

namespace Ledger

section
variable (h : Ledger pool)
include h

theorem of_sameTxs (hsame : SameTxs pool pool') : Ledger pool' where
  keys := by
    intro x hx
    rw [hsame.tx]
    exact h.keys x (hsame.mapTx ▸ hx)
  next := by
    intro o t
    rw [hsame.mapNextTx, hsame.mapTx, hsame.inputs, h.next]
  nextKeys := hsame.mapNextTx ▸ h.nextKeys
  txSize := by
    rw [hsame.totalTxSize, hsame.mapTx, h.txSize]
    exact sum_congr rfl fun x _ => (hsame.txSize x).symm
  fee := by
    rw [hsame.totalFee, hsame.mapTx, h.fee]
    exact sum_congr rfl fun x _ => (hsame.nFee x).symm
  randomized := by
    intro i t
    rw [hsame.txnsRandomized, hsame.mapTx, hsame.idxRandomized, h.randomized]

theorem eq_of_inputs {o : COutPoint} {t t' : Nat} (ht : t ∈ pool.mapTx)
    (ht' : t' ∈ pool.mapTx) (ho : o ∈ (pool.entry t).inputs) (ho' : o ∈ (pool.entry t').inputs) :
    t = t' := by
  have h1 := (h.next o t).2 ⟨ht, ho⟩
  have h2 := (h.next o t').2 ⟨ht', ho'⟩
  exact congrArg Prod.snd (inj_on_of_nodup_map h.nextKeys h1 h2 rfl)

theorem lookup {x : Nat} (hx : x ∈ pool.mapTx) :
    pool.txnsRandomized[(pool.entry x).idxRandomized]? = some x :=
  (h.randomized _ x).2 ⟨hx, rfl⟩

theorem spender_some {o : COutPoint} {t : Nat} (ht : pool.spender o = some t) :
    t ∈ pool.mapTx ∧ o ∈ (pool.entry t).inputs := by
  rw [spender, Option.map_eq_some_iff] at ht
  obtain ⟨next, hfind, rfl⟩ := ht
  have hkey : next.1 = o := by simpa using find?_some hfind
  have hmem := mem_of_find?_eq_some hfind
  rw [← hkey]
  exact (h.next next.1 next.2).1 hmem

theorem spender_iff {o : COutPoint} {t : Nat} :
    pool.spender o = some t ↔ t ∈ pool.mapTx ∧ o ∈ (pool.entry t).inputs := by
  refine ⟨h.spender_some, fun ⟨ht, ho⟩ => ?_⟩
  cases hs : pool.spender o with
  | none =>
    rw [spender, Option.map_eq_none_iff, find?_eq_none] at hs
    exact absurd (beq_self_eq_true o) (hs (o, t) ((h.next o t).2 ⟨ht, ho⟩))
  | some t' =>
    obtain ⟨ht', ho'⟩ := h.spender_some hs
    rw [h.eq_of_inputs ht' ht ho' ho]

end

end Ledger

/-! ## Taking entries out of the map -/

/-- Some entries are gone, and the others are as they were but for their places. -/
structure Shrinks (pool pool' : CTxMemPool) (s : Finset Nat) : Prop where
  mapTx : pool'.mapTx = pool.mapTx \ s
  entry : ∀ x, (pool'.entry x).unplaced = (pool.entry x).unplaced

variable {s : Finset Nat} {x : Nat}

theorem Shrinks.field (h : Shrinks pool pool' s) {β : Type*} (f : CTxMemPoolEntry → β)
    (x : Nat) (hf : ∀ e : CTxMemPoolEntry, f e.unplaced = f e := by intros; rfl) :
    f (pool'.entry x) = f (pool.entry x) := by
  rw [← hf, h.entry, hf]

theorem Linked.shrinks (h : Linked P K A D pool) (hs : Shrinks pool pool' s)
    (hA : ∀ a x, A a x → x ∉ s → a ∉ s) (hD : ∀ x d, D x d → x ∉ s → d ∉ s) :
    Linked P K A D pool' := by
  classical
  have hsub {x : Nat} (hx : x ∈ pool'.mapTx) : x ∈ pool.mapTx ∧ x ∉ s := by
    rwa [hs.mapTx, Finset.mem_sdiff] at hx
  have hsum {M : Type} [AddCommMonoid M] (w : CTxMemPoolEntry → M)
      (hw : ∀ e, w e.unplaced = w e) q (hq : ∀ y, q y → y ∉ s) :
      ∑ y ∈ pool'.mapTx.filter q, w (pool'.entry y) = ∑ y ∈ pool.mapTx.filter q, w (pool.entry y) := by
    refine sum_congr ?_ fun y _ => hs.field w y hw
    ext y
    rw [Finset.mem_filter, Finset.mem_filter, hs.mapTx, Finset.mem_sdiff]
    exact ⟨fun hy => ⟨hy.1.1, hy.2⟩, fun hy => ⟨⟨hy.1, hq y hy.2⟩, hy.2⟩⟩
  refine ⟨fun c hc p => ?_, fun p hp c => ?_, fun x hx => ?_, fun x hx => ?_⟩
  · rw [hs.field CTxMemPoolEntry.parents]
    exact h.parents c (hsub hc).1 p
  · rw [hs.field CTxMemPoolEntry.children]
    exact h.children p (hsub hp).1 c
  · rw [hs.field ancestorTotals, hs.field weight, h.ancestors x (hsub hx).1]
    exact congrArg _ (hsum weight (fun _ => rfl) _ fun a ha => hA a x ha (hsub hx).2).symm
  · rw [hs.field descendantTotals, hs.field upWeight, h.descendants x (hsub hx).1]
    exact congrArg _ (hsum upWeight (fun _ => rfl) _ fun d hd => hD x d hd (hsub hx).2).symm

theorem getElem?_swapRemove {l : List Nat} {s : Finset Nat} {idx : Nat → Nat}
    (h : ∀ i t, l[i]? = some t ↔ t ∈ s ∧ idx t = i) {x back : Nat} (hx : x ∈ s)
    (hback : l.getLast? = some back) (i t : Nat) :
    (l.set (idx x) back).dropLast[i]? = some t ↔
      (t ∈ s ∧ t ≠ x) ∧ (if t = back then idx x else idx t) = i := by
  have hlt {t : Nat} ht : idx t < l.length :=
    (List.getElem?_eq_some_iff.1 ((h _ t).2 ⟨ht, rfl⟩)).1
  have hinj {t u : Nat} ht hu (hne : t ≠ u) : idx t ≠ idx u := fun heq =>
    hne (Option.some.inj (((h _ t).2 ⟨ht, heq⟩).symm.trans ((h _ u).2 ⟨hu, rfl⟩)))
  rw [getLast?_eq_getElem?, h] at hback
  have hget : (l.set (idx x) back).dropLast[i]? = some t ↔
      i < l.length - 1 ∧ (if idx x = i then some back else l[i]?) = some t := by
    rw [getElem?_dropLast, length_set, getElem?_set, if_pos (hlt hx), Option.ite_none_right_eq_some]
  rw [hget]
  split
  next hi => grind
  next hi => grind

theorem unrandomize_spec (h : Ledger pool) {it : Nat} (hit : it ∈ pool.mapTx) :
    ∃ pool', pool.unrandomize it = some pool' ∧ Shrinks pool pool' ∅ ∧
      pool'.mapNextTx = pool.mapNextTx ∧ pool'.totalTxSize = pool.totalTxSize ∧
      pool'.totalFee = pool.totalFee ∧
      ∀ i t, pool'.txnsRandomized[i]? = some t ↔
        (t ∈ pool.mapTx ∧ t ≠ it) ∧ (pool'.entry t).idxRandomized = i := by
  have hlt := (List.getElem?_eq_some_iff.1 (h.lookup hit)).1
  obtain ⟨back, hback⟩ : ∃ back, pool.txnsRandomized.getLast? = some back :=
    ⟨_, getLast?_eq_some_getLast (ne_nil_of_length_pos (Nat.zero_lt_of_lt hlt))⟩
  have hbackIn := (h.randomized _ back).1 (getLast?_eq_getElem?.symm.trans hback)
  refine ⟨{ pool with
    entry := update pool.entry back
      { pool.entry back with idxRandomized := (pool.entry it).idxRandomized }
    txnsRandomized := (pool.txnsRandomized.set (pool.entry it).idxRandomized back).dropLast },
    ?_, ⟨(sdiff_empty).symm, fun x => ?_⟩, rfl, rfl, rfl, fun i t => ?_⟩
  · rw [unrandomize, hback]
    by_cases hlen : 1 < pool.txnsRandomized.length
    · exact (if_pos hlen).trans (if_pos ⟨hbackIn.1, hlt⟩)
    -- the only entry is the last one, and stays at its place
    obtain ⟨y, hy⟩ := length_eq_one_iff.1 (show pool.txnsRandomized.length = 1 by omega)
    have hlook := h.lookup hit
    rw [hy, getElem?_singleton, Option.ite_none_right_eq_some, Option.some.injEq] at hlook
    rw [hy, hlook.2] at hback ⊢
    cases hback
    have hself : { pool.entry it with idxRandomized := 0 } = pool.entry it := by rw [← hlook.1]
    simp [hlook.1, hself]
  · by_cases hx : x = back
    · subst hx
      simp only [update_self]
      rfl
    · simp [update_of_ne hx]
  · refine (getElem?_swapRemove h.randomized hit hback i t).trans (and_congr_right fun _ => ?_)
    by_cases ht : t = back
    · simp [ht]
    · simp [ht]

theorem Shrinks.trans {t : Finset Nat} (h : Shrinks pool pool' s) (h' : Shrinks pool' pool'' t) :
    Shrinks pool pool'' (s ∪ t) where
  mapTx := by rw [h'.mapTx, h.mapTx, sdiff_sdiff_left, Finset.sup_eq_union]
  entry := fun x => (h'.entry x).trans (h.entry x)

theorem removeUnchecked_spec (h : Ledger pool) {it : Nat} (hit : it ∈ pool.mapTx) :
    ∃ pool', pool.removeUnchecked it = some pool' ∧ Shrinks pool pool' {it} ∧ Ledger pool' := by
  obtain ⟨pool1, heq, hsame, hnext, hsize, hfee, hplaces⟩ := unrandomize_spec h hit
  have hmap : pool1.mapTx = pool.mapTx := by rw [hsame.mapTx, sdiff_empty]
  have hinputs := (hsame.field inputs ·)
  have hremove : pool.removeUnchecked it = some { pool1 with
      mapNextTx := pool1.mapNextTx.filter fun next => !(pool.entry it).inputs.contains next.1
      totalTxSize := pool1.totalTxSize - (pool.entry it).txSize
      totalFee := pool1.totalFee - (pool.entry it).nFee
      mapTx := pool1.mapTx.erase it } := by
    rw [removeUnchecked, if_pos hit, heq]
    rfl
  refine ⟨_, hremove, ⟨?_, hsame.entry⟩, ?_, ?_, ?_, ?_, ?_, ?_⟩
  · exact (congrArg (Finset.erase · it) hmap).trans (Finset.sdiff_singleton_eq_erase it _).symm
  · intro x hx
    rw [hsame.field tx]
    exact h.keys x (hmap ▸ Finset.mem_of_mem_erase hx)
  · intro o t
    simp only [mem_filter, hnext, h.next, mem_erase, hmap, hinputs, Bool.not_eq_true',
      contains_eq_mem, decide_eq_false_iff_not]
    constructor
    · grind
    · rintro ⟨⟨hne, ht⟩, ho⟩
      exact ⟨⟨ht, ho⟩, fun ho' => hne (h.eq_of_inputs ht hit ho ho')⟩
  · refine List.Nodup.sublist ?_ h.nextKeys
    rw [← hnext]
    exact (filter_sublist).map _
  · simp only [hsize, hmap, h.txSize, hsame.field txSize]
    rw [← Finset.sum_erase_add _ _ hit, add_sub_cancel_right]
  · simp only [hfee, hmap, h.fee, hsame.field nFee]
    rw [← Finset.sum_erase_add _ _ hit, add_sub_cancel_right]
  · grind

theorem removeEach_spec (h : Ledger pool) (hs : s ⊆ pool.mapTx) :
    ∃ pool', forEach s removeUnchecked pool = some pool' ∧ Shrinks pool pool' s ∧ Ledger pool' := by
  refine forEach_spec (fun d st => Shrinks pool st d ∧ Ledger st)
    ⟨⟨(sdiff_empty).symm, fun _ => rfl⟩, h⟩ ?_
  rintro d x st hx hxd ⟨hst, hledger⟩
  have hxin : x ∈ st.mapTx := by
    rw [hst.mapTx, Finset.mem_sdiff]
    exact ⟨hs hx, hxd⟩
  obtain ⟨st', heq, hshrinks, hledger'⟩ := removeUnchecked_spec hledger hxin
  refine ⟨st', heq, ?_, hledger'⟩
  have := hst.trans hshrinks
  rwa [Finset.union_comm, ← Finset.insert_eq] at this

/-! ## The invariant -/

/-- The links are the relation `E` between entries, which has no cycles, the totals count its
transitive closure, and everything else fits the entries. -/
structure Tracks (E : Nat → Nat → Prop) (pool : CTxMemPool) : Prop where
  within : Within E pool
  acyclic : ∀ x, ¬ TransGen E x x
  linked : Linked E E (TransGen E) (TransGen E) pool
  ledger : Ledger pool

/-- Some entries are gone; nothing else is said of links, totals and places. -/
structure Loses (pool pool' : CTxMemPool) (s : Finset Nat) : Prop where
  mapTx : pool'.mapTx = pool.mapTx \ s
  entry : ∀ x, (pool'.entry x).body = (pool.entry x).body

theorem Loses.field (h : Loses pool pool' s) {β : Type*} (f : CTxMemPoolEntry → β)
    (x : Nat) (hf : ∀ e : CTxMemPoolEntry, f e.body = f e := by intros; rfl) :
    f (pool'.entry x) = f (pool.entry x) := by
  rw [← hf, h.entry, hf]

theorem Loses.inputs (h : Loses pool pool' s) (x : Nat) :
    (pool'.entry x).inputs = (pool.entry x).inputs :=
  h.field CTxMemPoolEntry.inputs x

theorem SameTxs.shrinks (h : SameTxs pool pool') (h' : Shrinks pool' pool'' s) :
    Loses pool pool'' s where
  mapTx := by rw [h'.mapTx, h.mapTx]
  entry := by
    intro x
    have h1 : (pool''.entry x).body = (pool'.entry x).body :=
      congrArg unlinked (h'.entry x)
    have h2 : (pool'.entry x).body = (pool.entry x).body :=
      congrArg unplaced (h.entry x)
    rw [h1, h2]

theorem Within.transGen (hw : Within E pool) {a b : Nat} (h : TransGen E a b) :
    a ∈ pool.mapTx ∧ b ∈ pool.mapTx := by
  obtain ⟨c, hac, -⟩ := TransGen.head'_iff.1 h
  obtain ⟨d, -, hdb⟩ := TransGen.tail'_iff.1 h
  exact ⟨(hw a c hac).1, (hw d b hdb).2⟩

namespace Tracks

variable {s : Finset Nat}

theorem removeStaged (h : Tracks E pool) (hs : s ⊆ pool.mapTx) {updateDescendants : Bool}
    (hT : ∀ a b, TransGen (fun p c => E p c ∧ p ∉ s ∧ c ∉ s) a b ↔ TransGen E a b ∧ a ∉ s ∧ b ∉ s)
    (hA : ∀ a b, TransGen E a b → a ∈ s → b ∉ s → updateDescendants) :
    ∃ pool', pool.removeStaged s updateDescendants = some pool' ∧ Loses pool pool' s ∧
      Tracks (fun p c => E p c ∧ p ∉ s ∧ c ∉ s) pool' := by
  obtain ⟨pool1, heq1, hsame, hlinked⟩ := updateForRemoveFromMempool_spec updateDescendants
    h.within h.acyclic hs h.linked
  obtain ⟨pool2, heq2, hshrinks, hledger⟩ :=
    removeEach_spec (h.ledger.of_sameTxs hsame) (hsame.mapTx ▸ hs)
  have hlinked2 := hlinked.shrinks hshrinks
    (fun a x hax hx ha => hax.2 ⟨hA a x hax.1 ha hx, ha⟩) fun x d hxd _ => hxd.2
  have hmem {x : Nat} : x ∈ pool2.mapTx ↔ x ∈ pool.mapTx ∧ x ∉ s := by
    rw [hshrinks.mapTx, hsame.mapTx, Finset.mem_sdiff]
  refine ⟨pool2, ?_, hsame.shrinks hshrinks, ?_, ?_, ?_, hledger⟩
  · rw [CTxMemPool.removeStaged, heq1]
    exact heq2
  · intro p c hpc
    have := h.within p c hpc.1
    exact ⟨hmem.2 ⟨this.1, hpc.2.1⟩, hmem.2 ⟨this.2, hpc.2.2⟩⟩
  · intro x hx
    exact h.acyclic x ((hT x x).1 hx).1
  · refine hlinked2.congr_on (fun p c hc => ?_) (fun p c hp => ?_) (fun a x ha hx => ?_)
      fun x d hx hd => ?_
    · have hc := (hmem.1 hc).2
      tauto
    · have hp := (hmem.1 hp).2
      tauto
    · rw [hT]
      have hx := (hmem.1 hx).2
      tauto
    · rw [hT]
      have hx := (hmem.1 hx).2
      tauto

theorem removeStaged_closed (h : Tracks E pool) (hs : s ⊆ pool.mapTx)
    (hclosed : ∀ a b, a ∈ s → E a b → b ∈ s) :
    ∃ pool', pool.removeStaged s false = some pool' ∧ Loses pool pool' s ∧
      Tracks (fun p c => E p c ∧ p ∉ s ∧ c ∉ s) pool' := by
  have hclosed' {a b : Nat} (hab : TransGen E a b) (hb : b ∉ s) : a ∉ s := by
    intro ha
    induction hab with
    | single hab => exact hb (hclosed _ _ ha hab)
    | tail _ hcb ih => exact ih fun hc => hb (hclosed _ _ hc hcb)
  refine h.removeStaged hs (fun a b => ?_) fun a b hab ha hb => absurd ha (hclosed' hab hb)
  rw [transGen_removeClosed (fun _ _ => Iff.rfl) hclosed]
  exact ⟨fun hab => ⟨hab.1, hclosed' hab.1 hab.2, hab.2⟩, fun hab => ⟨hab.1, hab.2.2⟩⟩

theorem removeStaged_root (h : Tracks E pool) {x : Nat} (hx : x ∈ pool.mapTx)
    (hroot : ∀ a, ¬ E a x) :
    ∃ pool', pool.removeStaged {x} true = some pool' ∧ Loses pool pool' {x} ∧
      Tracks (fun p c => E p c ∧ p ∉ ({x} : Finset Nat) ∧ c ∉ ({x} : Finset Nat)) pool' := by
  refine h.removeStaged (Finset.singleton_subset_iff.2 hx) (fun a b => ?_) fun _ _ _ _ _ => rfl
  have hup : ∀ a b, b ∈ ({x} : Finset Nat) → E a b → a ∈ ({x} : Finset Nat) := by grind
  rw [transGen_removeUp (fun _ _ => Iff.rfl) hup]
  grind

end Tracks

/-! ## Adding an entry -/

/-- An entry is new; nothing else is said of links, totals and places. -/
structure Gains (pool pool' : CTxMemPool) (e : CTxMemPoolEntry) : Prop where
  mapTx : pool'.mapTx = insert e.tx.hash pool.mapTx
  entry : ∀ x ≠ e.tx.hash, (pool'.entry x).body = (pool.entry x).body
  added : (pool'.entry e.tx.hash).body = e.body

theorem insertNext_spec {inputs : List COutPoint} {next : List (COutPoint × Nat)}
    (hkeys : (next.map Prod.fst).Nodup) (hnew : ∀ o ∈ inputs, ∀ t, (o, t) ∈ next → t = x) :
    let next' := inputs.foldl (fun next prevout => insertNext next prevout x) next
    (next'.map Prod.fst).Nodup ∧ ∀ o t, (o, t) ∈ next' ↔ (o, t) ∈ next ∨ (t = x ∧ o ∈ inputs) := by
  induction inputs generalizing next with
  | nil => simpa using hkeys
  | cons prevout inputs ih =>
    have hstep : ((insertNext next prevout x).map Prod.fst).Nodup ∧
        ∀ o t, (o, t) ∈ insertNext next prevout x ↔ (o, t) ∈ next ∨ (t = x ∧ o = prevout) := by
      rw [insertNext]
      split
      next hany => grind
      next hany => grind
    obtain ⟨hkeys', hmem⟩ := hstep
    have hnew' : ∀ o ∈ inputs, ∀ t, (o, t) ∈ insertNext next prevout x → t = x := by grind
    obtain ⟨hkeys'', hmem'⟩ := ih hkeys' hnew'
    refine ⟨hkeys'', fun o t => ?_⟩
    rw [foldl_cons, hmem', hmem, mem_cons, and_or_left, or_assoc]

/-- An entry that can be added: it is as it was staged, it is not there, it does not spend its own
outputs, and no entry of the pool spends its inputs. -/
structure Addable (pool : CTxMemPool) (e : CTxMemPoolEntry) : Prop where
  fresh : e.Fresh
  new : e.tx.hash ∉ pool.mapTx
  noSelf : ∀ o ∈ e.inputs, o.hash ≠ e.tx.hash
  noConflict : ∀ o ∈ e.inputs, ∀ t ∈ pool.mapTx, o ∉ (pool.entry t).inputs

variable {e : CTxMemPoolEntry}

theorem entry_splice_of_ne (hx : x ≠ e.tx.hash) : (pool.splice e).entry x = pool.entry x :=
  update_of_ne hx _ _

theorem entry_splice_self : (pool.splice e).entry e.tx.hash = e := update_self _ _ _

namespace Addable

variable (ha : Addable pool e)
include ha

theorem ne_of_mem {x : Nat} (hx : x ∈ pool.mapTx) : x ≠ e.tx.hash := by
  rintro rfl
  exact ha.new hx

theorem findParents_splice : (pool.splice e).findParents e = pool.findParents e := by
  ext p
  rw [findParents, findParents, mem_inter, mem_inter]
  refine and_congr_right fun hp => ?_
  rw [splice, Finset.mem_insert, or_iff_right]
  rintro rfl
  rw [mem_toFinset, mem_map] at hp
  obtain ⟨o, ho, heq⟩ := hp
  exact ha.noSelf o ho heq

theorem linked_splice (h : Tracks E pool) :
    Linked E E (TransGen E) (TransGen E) (pool.splice e) := by
  classical
  have hEl b : ¬ E e.tx.hash b := fun h' => ha.new (h.within _ _ h').1
  have hEr a : ¬ E a e.tx.hash := fun h' => ha.new (h.within _ _ h').2
  have hTl b : ¬ TransGen E e.tx.hash b := fun h' => ha.new (h.within.transGen h').1
  have hTr a : ¬ TransGen E a e.tx.hash := fun h' => ha.new (h.within.transGen h').2
  have hsum {M : Type} [AddCommMonoid M] (w : CTxMemPoolEntry → M) q
      (hq : ¬ q e.tx.hash) : ∑ y ∈ (pool.splice e).mapTx.filter q, w ((pool.splice e).entry y) =
        ∑ y ∈ pool.mapTx.filter q, w (pool.entry y) := by
    have hfilter : (pool.splice e).mapTx.filter q = pool.mapTx.filter q :=
      (Finset.filter_insert q _ _).trans (if_neg hq)
    refine sum_congr hfilter fun y hy => ?_
    rw [entry_splice_of_ne]
    rintro rfl
    exact hq (Finset.mem_filter.1 hy).2
  refine ⟨fun c hc p => ?_, fun p hp c => ?_, fun x hx => ?_, fun x hx => ?_⟩
  · rcases Finset.mem_insert.1 hc with rfl | hc
    · rw [entry_splice_self, ha.fresh.parents]
      exact iff_of_false (notMem_empty p) (hEr p)
    · rw [entry_splice_of_ne (ha.ne_of_mem hc)]
      exact h.linked.parents c hc p
  · rcases Finset.mem_insert.1 hp with rfl | hp
    · rw [entry_splice_self, ha.fresh.children]
      exact iff_of_false (notMem_empty c) (hEl c)
    · rw [entry_splice_of_ne (ha.ne_of_mem hp)]
      exact h.linked.children p hp c
  · rw [hsum weight _ (hTl x)]
    rcases Finset.mem_insert.1 hx with rfl | hx
    · rw [entry_splice_self, ha.fresh.ancestors, Finset.filter_false_of_mem fun a _ => hTr a,
        sum_empty, add_zero]
    · rw [entry_splice_of_ne (ha.ne_of_mem hx)]
      exact h.linked.ancestors x hx
  · rw [hsum upWeight _ (hTr x)]
    rcases Finset.mem_insert.1 hx with rfl | hx
    · rw [entry_splice_self, ha.fresh.descendants, Finset.filter_false_of_mem fun d _ => hTl d,
        sum_empty, add_zero]
    · rw [entry_splice_of_ne (ha.ne_of_mem hx)]
      exact h.linked.descendants x hx

end Addable

/-- The entry is at the end of `txns_randomized`, and the totals of the pool count it. -/
def place (x : Nat) (pool : CTxMemPool) : CTxMemPool :=
  { pool with
    totalTxSize := pool.totalTxSize + (pool.entry x).txSize
    totalFee := pool.totalFee + (pool.entry x).nFee
    txnsRandomized := pool.txnsRandomized ++ [x]
    entry := update pool.entry x
      { pool.entry x with idxRandomized := pool.txnsRandomized.length } }

theorem entry_place_self (x : Nat) : (pool.place x).entry x =
    { pool.entry x with idxRandomized := pool.txnsRandomized.length } := update_self _ _ _

theorem entry_place_of_ne {y : Nat} (hy : y ≠ x) : (pool.place x).entry y = pool.entry y :=
  update_of_ne hy _ _

theorem shrinks_place (x : Nat) : Shrinks pool (pool.place x) ∅ := by
  refine ⟨(sdiff_empty).symm, fun y => ?_⟩
  by_cases hy : y = x
  · rw [hy, entry_place_self]
    rfl
  · rw [entry_place_of_ne hy]

theorem SameTxs.place (h : SameTxs pool pool') (x : Nat) : SameTxs (pool.place x)
    (pool'.place x) where
  mapTx := h.mapTx
  mapNextTx := h.mapNextTx
  mapDeltas := h.mapDeltas
  totalTxSize := congrArg₂ (· + ·) h.totalTxSize (h.txSize x)
  totalFee := congrArg₂ (· + ·) h.totalFee (h.nFee x)
  txnsRandomized := congrArg (· ++ [x]) h.txnsRandomized
  entry := by
    intro y
    by_cases hy : y = x
    · rw [hy, entry_place_self, entry_place_self, h.txnsRandomized]
      exact congrArg (fun e =>
        { e with idxRandomized := pool.txnsRandomized.length }) (h.entry x)
    · rw [entry_place_of_ne hy, entry_place_of_ne hy, h.entry]

/-- An entry in `mapTx` with its inputs in `mapNextTx`. -/
def spliceNext (e : CTxMemPoolEntry) (pool : CTxMemPool) : CTxMemPool :=
  { pool.splice e with
    mapNextTx :=
      e.inputs.foldl (fun next prevout => insertNext next prevout e.tx.hash) pool.mapNextTx }

theorem getElem?_concat_iff {l : List Nat} {x i t : Nat} :
    (l ++ [x])[i]? = some t ↔ l[i]? = some t ∨ t = x ∧ l.length = i := by grind

theorem Ledger.add (h : Ledger pool) (ha : Addable pool e) :
    Ledger ((pool.spliceNext e).place e.tx.hash) := by
  let pool' := (pool.spliceNext e).place e.tx.hash
  let e' := { e with idxRandomized := pool.txnsRandomized.length }
  have hspliced : (pool.spliceNext e).entry e.tx.hash = e := entry_splice_self
  have hself : pool'.entry e.tx.hash = e' := by
    refine (entry_place_self _).trans ?_
    rw [hspliced]
    rfl
  have hother {x : Nat} (hx : x ∈ pool.mapTx) : pool'.entry x = pool.entry x :=
    (entry_place_of_ne (ha.ne_of_mem hx)).trans (entry_splice_of_ne (ha.ne_of_mem hx))
  -- what holds of an entry that is there holds of an old one or of the new one
  have hiff (p : CTxMemPoolEntry → Prop) t :
      t ∈ pool.mapTx ∧ p (pool.entry t) ∨ t = e.tx.hash ∧ p e' ↔
        t ∈ pool'.mapTx ∧ p (pool'.entry t) := by
    refine Iff.trans ?_ (and_congr_left' Finset.mem_insert.symm)
    grind
  have hsum (w : CTxMemPoolEntry → Int) :
      w e' + ∑ x ∈ pool.mapTx, w (pool.entry x) = ∑ x ∈ pool'.mapTx, w (pool'.entry x) := by
    refine Eq.trans ?_ (Finset.sum_insert ha.new).symm
    rw [sum_congr rfl fun x hx => congrArg w (hother hx), hself]
  have hnew : ∀ o ∈ e.inputs, ∀ t, (o, t) ∈ pool.mapNextTx → t = e.tx.hash := by
    intro o ho t ht
    have ht := (h.next o t).1 ht
    exact absurd ht.2 (ha.noConflict o ho t ht.1)
  obtain ⟨hkeys, hnext⟩ := insertNext_spec h.nextKeys hnew
  refine ⟨fun x hx => ?_, fun o t => ?_, hkeys, ?_, ?_, fun i t => ?_⟩
  · rcases Finset.mem_insert.1 hx with rfl | hx
    · rw [hself]
    · rw [hother hx]
      exact h.keys x hx
  · refine (hnext o t).trans (Iff.trans ?_ (hiff (o ∈ ·.inputs) t))
    rw [h.next]
    rfl
  · refine Eq.trans ?_ (hsum CTxMemPoolEntry.txSize)
    rw [← h.txSize, add_comm]
    exact congrArg (_ + ·) (congrArg CTxMemPoolEntry.txSize hspliced :)
  · refine Eq.trans ?_ (hsum nFee)
    rw [← h.fee, add_comm]
    exact congrArg (_ + ·) (congrArg nFee hspliced :)
  · refine getElem?_concat_iff.trans (Iff.trans ?_ (hiff (·.idxRandomized = i) t))
    exact or_congr_left (h.randomized i t)

namespace Tracks

/-- **Adding an entry** with the ancestors that its parents have. -/
theorem addNewTransaction (h : Tracks E pool) (ha : Addable pool e) {s : Finset Nat}
    (hs : ∀ a, a ∈ s ↔ ∃ p ∈ pool.findParents e, ReflTransGen E a p) :
    ∃ pool', (pool.splice e).addNewTransaction e.tx.hash s = some pool' ∧ Gains pool pool' e ∧
      Tracks (fun p c => E p c ∨ (c = e.tx.hash ∧ p ∈ pool.findParents e)) pool' := by
  have hfind : (pool.spliceNext e).findParents e = pool.findParents e := ha.findParents_splice
  have hlinked := ha.linked_splice h
  have hlinked1 : Linked E E (TransGen E) (TransGen E) (pool.spliceNext e) :=
    { hlinked with }
  have hit : e.tx.hash ∈ (pool.spliceNext e).mapTx := Finset.mem_insert_self _ _
  have hsub : pool.mapTx ⊆ (pool.spliceNext e).mapTx := Finset.subset_insert _ _
  have hps : pool.findParents e ⊆ pool.mapTx := Finset.inter_subset_right
  have hs' : s ⊆ pool.mapTx := by
    intro a hmem
    obtain ⟨p, hp, hap⟩ := (hs a).1 hmem
    exact h.within.reflTransGen_left (hps hp) hap
  have hEl b : ¬ E e.tx.hash b := fun h' => ha.new (h.within _ _ h').1
  have hEr a : ¬ E a e.tx.hash := fun h' => ha.new (h.within _ _ h').2
  have hPe : e.tx.hash ∉ pool.findParents e := fun h' => ha.new (hps h')
  have hTr a : ¬ TransGen E a e.tx.hash := fun h' => ha.new (h.within.transGen h').2
  -- the parents of the entry
  obtain ⟨pool2, heq2, hsame2, hlinked2⟩ :=
    addParents_spec (s := pool.findParents e) hit hlinked1
  have hit2 : e.tx.hash ∈ pool2.mapTx := hsame2.mapTx ▸ hit
  have hparents p : p ∈ (pool2.entry e.tx.hash).parents ↔ p ∈ pool.findParents e := by
    rw [hlinked2.parents _ hit2]
    grind
  -- it is a child of them and a descendant of its ancestors
  obtain ⟨pool3, heq3, hsame3, hlinked3⟩ := updateAncestorsOf_add hit2
    (fun p hp => hsame2.mapTx ▸ hsub (hps ((hparents p).1 hp)))
    (fun a hmem => hsame2.mapTx ▸ hsub (hs' hmem)) hlinked2 fun a _ => hTr a
  -- its ancestors are counted
  obtain ⟨pool4, heq4, hsame4, hlinked4⟩ := updateEntryForAncestors_spec
    (hsame3.mapTx ▸ hit2) (fun a hmem => hsame3.mapTx ▸ hsame2.mapTx ▸ hsub (hs' hmem))
    hlinked3 hTr
  have hsame := (hsame2.trans hsame3).trans hsame4
  have hentry : (pool4.entry e.tx.hash).unlinked = e.unlinked := by
    rw [hsame.entry]
    exact congrArg unlinked entry_splice_self
  have hsize := (congrArg txSize hentry :)
  have hfee := (congrArg nFee hentry :)
  refine ⟨pool4.place e.tx.hash, ?_, ?_, ?_, ?_, ?_, ?_⟩
  · rw [← hfind] at heq2
    rw [CTxMemPool.addNewTransaction, entry_splice_self]
    refine Option.bind_eq_some_iff.2 ⟨pool2, heq2, Option.bind_eq_some_iff.2 ⟨pool3, heq3, ?_⟩⟩
    refine Option.bind_eq_some_iff.2 ⟨pool4, heq4, ?_⟩
    exact congrArg₂ (fun size fee => some { pool4.place e.tx.hash with
      totalTxSize := pool4.totalTxSize + size
      totalFee := pool4.totalFee + fee }) hsize.symm hfee.symm
  · refine ⟨hsame.mapTx, fun x hx => ?_, ?_⟩
    · rw [entry_place_of_ne hx]
      refine congrArg unplaced ((hsame.entry x).trans ?_)
      exact congrArg unlinked (entry_splice_of_ne hx)
    · rw [entry_place_self]
      exact (congrArg unplaced hentry :)
  · have hin {x : Nat} hx : x ∈ (pool4.place e.tx.hash).mapTx :=
      hsame.mapTx ▸ hsub hx
    rintro p c (hpc | ⟨rfl, hp⟩)
    · exact ⟨hin (h.within p c hpc).1, hin (h.within p c hpc).2⟩
    · exact ⟨hin (hps hp), hsame.mapTx ▸ hit⟩
  · intro x hx
    by_cases hxe : x = e.tx.hash
    · subst hxe
      obtain ⟨c, hc, -⟩ := TransGen.head'_iff.1 hx
      exact not_edge_of_added (fun _ _ => Iff.rfl) hEl hPe c hc
    · exact h.acyclic x ((transGen_add_of_ne (fun _ _ => Iff.rfl) hEl hxe).1 hx)
  · have hadd (a b) : TransGen E a b ∨ (b = e.tx.hash ∧ a ∈ s) ↔
        TransGen (fun p c => E p c ∨ (c = e.tx.hash ∧ p ∈ pool.findParents e)) a b := by
      by_cases hb : b = e.tx.hash
      · subst hb
        rw [transGen_add_self (fun _ _ => Iff.rfl) hEl hEr hPe, or_iff_right (hTr a), hs]
        exact and_iff_right rfl
      · rw [transGen_add_of_ne (fun _ _ => Iff.rfl) hEl hb]
        exact or_iff_left fun h' => hb h'.1
    have hlinked5 := hlinked4.congr (fun _ _ => Iff.rfl)
      (fun p c => or_congr_right (and_congr_right fun _ => hparents p)) hadd hadd
    exact hlinked5.shrinks (shrinks_place _) (fun _ _ _ _ => notMem_empty _)
      fun _ _ _ _ => notMem_empty _
  · exact (h.ledger.add ha).of_sameTxs (hsame.place _)

end Tracks

/-! ## Changing a fee -/

theorem AncestorsCounted.pos (h : AncestorsCounted A pool) (hx : x ∈ pool.mapTx) :
    0 < (pool.entry x).countWithAncestors ∧ 0 < (pool.entry x).sizeWithAncestors ∧
      0 ≤ (pool.entry x).sigOpCostWithAncestors := by
  classical
  have := weight_add_sum (pool.entry x) (pool.mapTx.filter fun a => A a x) pool.entry
  rwa [← h x hx] at this

theorem DescendantsCounted.pos (h : DescendantsCounted D pool) (hx : x ∈ pool.mapTx) :
    0 < (pool.entry x).countWithDescendants ∧ 0 < (pool.entry x).sizeWithDescendants := by
  classical
  have := upWeight_add_sum (pool.entry x) (pool.mapTx.filter fun d => D x d) pool.entry
  rwa [← h x hx] at this

/-- What `PrioritiseTransaction` does to an entry, given the ancestors and the descendants of the
transaction. -/
def prioritised (hash : Nat) (ancestors descendants : Finset Nat) (nFeeDelta : Int) (x : Nat)
    (e : CTxMemPoolEntry) : CTxMemPoolEntry :=
  let e := if x = hash then e.updateModifiedFee nFeeDelta else e
  let e := if x ∈ ancestors then e.addDescendantState 0 nFeeDelta 0 else e
  if x ∈ descendants then e.addAncestorState 0 nFeeDelta 0 0 else e

section

variable {hash x : Nat} {r r' : Finset Nat} {delta : Int} {e : CTxMemPoolEntry}

theorem field_prioritised {β : Type*} {f : CTxMemPoolEntry → β}
    (hm : ∀ e, f (updateModifiedFee delta e) = f e := by intros; rfl)
    (hd : ∀ e, f (addDescendantState 0 delta 0 e) = f e := by intros; rfl)
    (ha : ∀ e, f (addAncestorState 0 delta 0 0 e) = f e := by intros; rfl) :
    f (prioritised hash r r' delta x e) = f e := by
  rw [prioritised, field_ite (ha _), field_ite (hd _), field_ite (hm _)]

theorem weight_prioritised : (prioritised hash r r' delta x e).weight =
    e.weight + if x = hash then (0, 0, delta, 0) else 0 := by
  simp only [prioritised]
  split_ifs <;> simp [weight, updateModifiedFee, addDescendantState, addAncestorState]

theorem upWeight_prioritised : (prioritised hash r r' delta x e).upWeight =
    e.upWeight + if x = hash then (0, 0, delta) else 0 := by
  simp only [prioritised]
  split_ifs <;> simp [upWeight, updateModifiedFee, addDescendantState, addAncestorState]

theorem ancestorTotals_prioritised : (prioritised hash r r' delta x e).ancestorTotals =
    e.ancestorTotals + (if x = hash then (0, 0, delta, 0) else 0) +
      if x ∈ r' then (0, 0, delta, 0) else 0 := by
  simp only [prioritised]
  split_ifs <;> simp [ancestorTotals, updateModifiedFee, addDescendantState, addAncestorState]

theorem descendantTotals_prioritised : (prioritised hash r r' delta x e).descendantTotals =
    e.descendantTotals + (if x = hash then (0, 0, delta) else 0) +
      if x ∈ r then (0, 0, delta) else 0 := by
  simp only [prioritised]
  split_ifs <;> simp [descendantTotals, updateModifiedFee, addDescendantState, addAncestorState]

theorem sum_filter_update {M : Type*} [AddCommMonoid M] {S : Finset Nat} (hS : hash ∈ S)
    (w : Nat → M) (v : M) (q : Nat → Prop) [DecidablePred q] :
    ∑ y ∈ S.filter q, (w y + if y = hash then v else 0) =
      ∑ y ∈ S.filter q, w y + if q hash then v else 0 := by
  rw [Finset.sum_add_distrib]
  simp [hS]

theorem Linked.prioritised (h : Linked E E (TransGen E) (TransGen E) pool) (hx : hash ∈ pool.mapTx)
    (hr : ∀ a, a ∈ r ↔ TransGen E a hash) (hr' : ∀ d, d ∈ r' ↔ TransGen E hash d) :
    Linked E E (TransGen E) (TransGen E) (pool.mapEntries (prioritised hash r r' delta)) := by
  classical
  refine ⟨?_, ?_, fun x hxin => ?_, fun x hxin => ?_⟩
  · exact h.parents.mapEntries fun _ _ => field_prioritised
  · exact h.children.mapEntries fun _ _ => field_prioritised
  · simp only [CTxMemPool.mapEntries, ancestorTotals_prioritised, weight_prioritised]
    rw [sum_filter_update hx, h.ancestors x hxin, if_congr (hr' x) rfl rfl,
      add_assoc (_ + _), add_add_add_comm]
  · simp only [CTxMemPool.mapEntries, descendantTotals_prioritised, upWeight_prioritised]
    rw [sum_filter_update hx, h.descendants x hxin, if_congr (hr x) rfl rfl,
      add_assoc (_ + _), add_add_add_comm]

theorem Ledger.prioritised (h : Ledger pool) :
    Ledger (pool.mapEntries (prioritised hash r r' delta)) where
  keys x hx := (congrArg CTransaction.hash field_prioritised).trans (h.keys x hx)
  next o t := (h.next o t).trans (and_congr_right'
    (iff_of_eq (congrArg (o ∈ ·) (field_prioritised).symm)))
  nextKeys := h.nextKeys
  txSize := h.txSize.trans (sum_congr rfl fun _ _ => (field_prioritised).symm)
  fee := h.fee.trans (sum_congr rfl fun _ _ => (field_prioritised).symm)
  randomized i t := (h.randomized i t).trans (and_congr_right'
    (iff_of_eq (congrArg (· = i) (field_prioritised).symm)))

end

/-- **Changing the fee of a transaction.** -/
theorem Tracks.prioritiseTransaction (h : Tracks E pool) (hash : Nat) (nFeeDelta : Int) :
    ∃ pool', pool.prioritiseTransaction hash nFeeDelta = some pool' ∧
      pool'.mapTx = pool.mapTx ∧ (∀ x, (pool'.entry x).inputs = (pool.entry x).inputs) ∧
      Tracks E pool' := by
  set pool0 : CTxMemPool := { pool with
    mapDeltas := update pool.mapDeltas hash (pool.mapDeltas hash + nFeeDelta) } with hpool0
  have h0 : Tracks E pool0 := { h with linked := { h.linked with }, ledger := { h.ledger with } }
  by_cases hin : hash ∈ pool.mapTx
  · set pool1 := pool0.mapEntries fun y e =>
      if y = hash then e.updateModifiedFee nFeeDelta else e with hpool1
    have hmodify : pool0.modify hash (fun e => some (e.updateModifiedFee nFeeDelta)) =
        some pool1 := modify_eq hin rfl
    have hparents1 : ParentLinks E pool1 := h0.linked.parents.mapEntries fun _ _ =>
      field_ite rfl
    have hchildren1 : ChildLinks E pool1 := h0.linked.children.mapEntries fun _ _ =>
      field_ite rfl
    have hw1 : Within E pool1 := h.within
    obtain ⟨r, hr, hrsub, hrmem⟩ := assumeAncestors_spec hw1 hparents1 hin
    -- counts and sizes do not change, so that the assertions hold as they did before
    have hmodify2 : pool1.modifyEach r (updateDescendantState 0 nFeeDelta 0) =
        some (pool1.mapEntries fun x e =>
          if x ∈ r then e.addDescendantState 0 nFeeDelta 0 else e) := by
      refine modifyEach_eq hrsub fun x hx => if_pos ?_
      have hpos := h0.linked.descendants.pos (hrsub hx)
      have hcount : (pool1.entry x).countWithDescendants = (pool0.entry x).countWithDescendants :=
        field_ite rfl
      have hsize : (pool1.entry x).sizeWithDescendants = (pool0.entry x).sizeWithDescendants :=
        field_ite rfl
      simp only [addDescendantState, add_zero, hcount, hsize]
      exact ⟨hpos.2, hpos.1⟩
    set pool2 := pool1.mapEntries fun x e =>
      if x ∈ r then e.addDescendantState 0 nFeeDelta 0 else e with hpool2
    have hw2 : Within E pool2 := h.within
    have hchildren2 : ChildLinks E pool2 := hchildren1.mapEntries fun _ _ =>
      field_ite rfl
    obtain ⟨r', hr', hrsub', hrmem'⟩ := calculateDescendants_erase hw2 hchildren2 h.acyclic hin
    have hmodify3 : pool2.modifyEach (r'.erase hash) (updateAncestorState 0 nFeeDelta 0 0) =
        some (pool0.mapEntries (prioritised hash r (r'.erase hash) nFeeDelta)) := by
      refine modifyEach_eq hrsub' fun x hx => if_pos ?_
      have hpos := h0.linked.ancestors.pos (hrsub' hx)
      have hfield {f : CTxMemPoolEntry → Int} (hm : ∀ e, f (updateModifiedFee nFeeDelta e) = f e := by
          intros; rfl) (hd : ∀ e, f (addDescendantState 0 nFeeDelta 0 e) = f e := by intros; rfl) :
          f (pool2.entry x) = f (pool0.entry x) := (field_ite (hd _)).trans (field_ite (hm _))
      have hcount := hfield (f := countWithAncestors)
      have hsize := hfield (f := sizeWithAncestors)
      have hsig := hfield (f := sigOpCostWithAncestors)
      simp only [addAncestorState, add_zero, hcount, hsize, hsig]
      exact ⟨hpos.2.1, hpos.1, hpos.2.2⟩
    refine ⟨pool0.mapEntries (prioritised hash r (r'.erase hash) nFeeDelta), ?_, rfl, fun x => ?_,
      h.within, h.acyclic, h0.linked.prioritised hin hrmem hrmem', h0.ledger.prioritised⟩
    · refine (if_pos hin).trans ?_
      simp [← hpool0, hmodify, hr, hmodify2, hr', hmodify3]
    · exact field_prioritised
  · exact ⟨pool0, if_neg hin, rfl, fun _ => rfl, h0⟩

end CTxMemPool

end BitcoinPurity
