import BitcoinPurity.Mempool.Tracks

/-!
# A consistent pool

`Consistent pool`: links and totals are those recomputed from the stored transactions.  While the
transactions of disconnected blocks are added back, the links from them to entries that were there
before are missing; `ConsistentBut R pool` says the same for the links that do not lead from the
re-added transactions `R` to others.

The operations that remove entries and the application of a change set keep both.
-/

namespace BitcoinPurity

open Each Explore Relation Ancestry List CTxMemPoolEntry
open Finset (mem_insert mem_inter notMem_empty)

namespace CTxMemPool

variable {pool pool' pool'' : CTxMemPool} {E E' : Nat → Nat → Prop} {R s : Finset Nat}

def Spends (pool : CTxMemPool) (p c : Nat) : Prop :=
  p ∈ pool.mapTx ∧ c ∈ pool.mapTx ∧ ∃ o ∈ (pool.entry c).inputs, o.hash = p

/-- One entry spends an output of another, where not just the first is in the set. -/
def SpendsBut (R : Finset Nat) (pool : CTxMemPool) (p c : Nat) : Prop :=
  pool.Spends p c ∧ (p ∈ R → c ∈ R)

/-- **Links and totals are what the stored transactions say**, and so are `mapNextTx`, the totals
of the pool and the places in `txns_randomized`. -/
def Consistent (pool : CTxMemPool) : Prop := Tracks pool.Spends pool

/-- Consistent, but for what leads from the entries of a set to others. -/
def ConsistentBut (R : Finset Nat) (pool : CTxMemPool) : Prop := Tracks (SpendsBut R pool) pool

theorem Tracks.congr (h : Tracks E pool) (hE : ∀ p c, E p c ↔ E' p c) : Tracks E' pool := by
  have : E = E' := funext₂ fun p c => propext (hE p c)
  rwa [← this]

theorem spendsBut_empty : SpendsBut ∅ pool = pool.Spends := by
  funext p c
  simp [SpendsBut]

theorem consistentBut_empty : ConsistentBut ∅ pool ↔ Consistent pool := by
  rw [ConsistentBut, spendsBut_empty, Consistent]

theorem consistent_empty : Consistent {} := by
  have hno (p c) : ¬ ({} : CTxMemPool).Spends p c := fun h => notMem_empty p h.1
  refine ⟨fun p c h => absurd h (hno p c), fun x h => ?_, ?_, ?_⟩
  · grind
  · refine ⟨?_, ?_, ?_, ?_⟩ <;> exact fun x hx => absurd hx (notMem_empty x)
  · refine ⟨fun x hx => absurd hx (notMem_empty x), fun o t => ?_, nodup_nil, rfl, rfl,
      fun i t => ?_⟩
    · exact iff_of_false (not_mem_nil) fun h => notMem_empty t h.1
    · exact iff_of_false (by simp) fun h => notMem_empty t h.1

/-! ## Removing -/

theorem Loses.refl (pool : CTxMemPool) : Loses pool pool ∅ :=
  ⟨(Finset.sdiff_empty).symm, fun _ => rfl⟩

section
variable (h : Loses pool pool' s)
include h

theorem Loses.trans {t : Finset Nat} (h' : Loses pool' pool'' t) : Loses pool pool'' (s ∪ t) :=
  ⟨by rw [h'.mapTx, h.mapTx, sdiff_sdiff_left, Finset.sup_eq_union],
    fun x => (h'.entry x).trans (h.entry x)⟩

theorem Loses.mem {x : Nat} : x ∈ pool'.mapTx ↔ x ∈ pool.mapTx ∧ x ∉ s := by
  rw [h.mapTx, Finset.mem_sdiff]

theorem Loses.spends (p c : Nat) : pool'.Spends p c ↔ pool.Spends p c ∧ p ∉ s ∧ c ∉ s := by
  rw [Spends, Spends, h.mem, h.mem, h.inputs]
  tauto

theorem Loses.spendsBut (p c : Nat) :
    SpendsBut R pool' p c ↔ SpendsBut R pool p c ∧ p ∉ s ∧ c ∉ s := by
  rw [SpendsBut, SpendsBut, h.spends]
  tauto

end

namespace ConsistentBut

variable (h : ConsistentBut R pool)
include h

theorem removeStaged (hs : s ⊆ pool.mapTx) (hclosed : ∀ x ∈ s, (pool.entry x).children ⊆ s) :
    ∃ pool', pool.removeStaged s false = some pool' ∧ Loses pool pool' s ∧
      ConsistentBut R pool' := by
  obtain ⟨pool', heq, hloses, ht⟩ := Tracks.removeStaged_closed h hs fun a b ha hab =>
    hclosed a ha ((h.linked.children a (hs ha) b).2 hab)
  exact ⟨pool', heq, hloses, ht.congr fun p c => (hloses.spendsBut p c).symm⟩

theorem removeAll (hs : s ⊆ pool.mapTx) : ∃ r pool', pool.calculateAllDescendants s = some r ∧
      (∀ y, y ∈ r ↔ ∃ x ∈ s, ReflTransGen (SpendsBut R pool) x y) ∧
      pool.removeStaged r false = some pool' ∧ Loses pool pool' r ∧ ConsistentBut R pool' := by
  obtain ⟨r, hr, hrsub, hmem⟩ := calculateAllDescendants_spec h.within h.linked.children hs
  have hclosed : ∀ x ∈ r, (pool.entry x).children ⊆ r := by
    intro x hx c hc
    obtain ⟨y, hy, hyx⟩ := (hmem x).1 hx
    exact (hmem c).2 ⟨y, hy, hyx.tail ((h.linked.children x (hrsub hx) c).1 hc)⟩
  obtain ⟨pool', heq, hloses, h'⟩ := h.removeStaged hrsub hclosed
  exact ⟨r, pool', hr, hmem, heq, hloses, h'⟩

theorem removeRecursive (tx : CTransaction) :
    ∃ pool' s, pool.removeRecursive tx = some pool' ∧ Loses pool pool' s ∧
      ConsistentBut R pool' ∧ (tx.hash ∈ pool.mapTx →
        ∀ x, x ∈ s ↔ ReflTransGen (SpendsBut R pool) tx.hash x) := by
  have hsub : (if tx.hash ∈ pool.mapTx then {tx.hash} else pool.spendersOf tx) ⊆ pool.mapTx := by
    split
    next htx =>
      exact Finset.singleton_subset_iff.2 htx
    intro x hx
    rw [spendersOf, mem_toFinset, mem_filterMap] at hx
    obtain ⟨n, -, hn⟩ := hx
    exact (h.ledger.spender_some hn).1
  obtain ⟨r, pool', hr, hmem, heq, hloses, h'⟩ := h.removeAll hsub
  refine ⟨pool', r, ?_, hloses, h', fun htx x => by simp [hmem, htx]⟩
  rw [CTxMemPool.removeRecursive]
  simp only [if_pos hsub, hr]
  exact heq

theorem expire (time : Int) :
    ∃ pool' s, pool.expire time = some pool' ∧ Loses pool pool' s ∧ ConsistentBut R pool' := by
  obtain ⟨r, pool', hr, -, heq, hloses, h'⟩ :=
    h.removeAll (s := pool.mapTx.filter fun x => (pool.entry x).nTime < time)
      (Finset.filter_subset _ _)
  refine ⟨pool', r, ?_, hloses, h'⟩
  rw [CTxMemPool.expire, hr]
  exact heq

theorem clearPrioritisation (hash : Nat) : ConsistentBut R (pool.clearPrioritisation hash) :=
  ⟨h.within, h.acyclic,
    ⟨h.linked.parents, h.linked.children, h.linked.ancestors, h.linked.descendants⟩,
    ⟨h.ledger.keys, h.ledger.next, h.ledger.nextKeys, h.ledger.txSize, h.ledger.fee,
      h.ledger.randomized⟩⟩

theorem trimLoop (env : TrimEnv) {fuel : Nat} (hfuel : pool.mapTx.card ≤ fuel)
    (out : List COutPoint) :
    ∃ pool' out' s, CTxMemPool.trimLoop env fuel pool out = some (pool', out') ∧
      Loses pool pool' s ∧ ConsistentBut R pool' := by
  induction fuel generalizing pool out with
  | zero =>
    have hempty : ¬ pool.mapTx.Nonempty := by grind
    rw [CTxMemPool.trimLoop, dif_neg hempty]
    exact ⟨pool, out, ∅, rfl, .refl pool, h⟩
  | succ fuel ih =>
    rw [CTxMemPool.trimLoop]
    by_cases hne : pool.mapTx.Nonempty
    · rw [dif_pos hne]
      split
      · have hworst := (env.worst pool hne).2
        obtain ⟨r, hr, hmem⟩ := calculateDescendants_empty h.within h.linked.children hworst
        have hrsub : r ⊆ pool.mapTx := fun x hx => h.within.reflTransGen hworst ((hmem x).1 hx)
        have hclosed : ∀ x ∈ r, (pool.entry x).children ⊆ r := by
          intro x hx c hc
          exact (hmem c).2 (((hmem x).1 hx).tail ((h.linked.children x (hrsub hx) c).1 hc))
        obtain ⟨pool1, heq1, hloses1, h1⟩ := h.removeStaged hrsub hclosed
        -- the worst entry is gone
        have hlt : pool1.mapTx.card < pool.mapTx.card := by
          refine Finset.card_lt_card ?_
          rw [hloses1.mapTx]
          refine Finset.sdiff_ssubset hrsub ⟨_, (hmem _).2 .refl⟩
        obtain ⟨pool2, out2, s2, heq2, hloses2, h2⟩ := ih h1 (by omega)
          (out ++ pool1.noSpendsRemaining ((ascending r.card r).map pool.entry))
        refine ⟨pool2, out2, r ∪ s2, ?_, hloses1.trans hloses2, h2⟩
        grind
      · exact ⟨pool, out, ∅, rfl, .refl pool, h⟩
    · rw [dif_neg hne]
      exact ⟨pool, out, ∅, rfl, .refl pool, h⟩

theorem trimToSize (env : TrimEnv) :
    ∃ pool' out s, pool.trimToSize env = some (pool', out) ∧ Loses pool pool' s ∧
      ConsistentBut R pool' := h.trimLoop env le_rfl []

end ConsistentBut

/-! ## Blocks -/

/-- Every transaction of a block that is in the pool comes after those of its parents that are. -/
def ParentsFirst (pool : CTxMemPool) (vtx : List CTransaction) : Prop :=
  ∀ i (h : i < vtx.length), vtx[i].hash ∈ pool.mapTx →
    ∀ p ∈ pool.findParents (pool.entry vtx[i].hash), p ∈ (vtx.take i).map CTransaction.hash

instance (pool : CTxMemPool) (vtx : List CTransaction) : Decidable (ParentsFirst pool vtx) :=
  inferInstanceAs (Decidable (∀ i (_ : i < vtx.length), _))

theorem spends_iff_findParents {p c : Nat} (hc : c ∈ pool.mapTx) :
    pool.Spends p c ↔ p ∈ pool.findParents (pool.entry c) := by
  rw [findParents, mem_inter, mem_toFinset, mem_map, Spends]
  tauto

/-- What is left when the entries with `G` go, which have their parents among them, and those that
descend from an entry with `C`. -/
structure Leaves (G C : Nat → Prop) (pool pool' : CTxMemPool) : Prop where
  loses : ∃ s, Loses pool pool' s
  mem : ∀ x, x ∈ pool'.mapTx ↔
    x ∈ pool.mapTx ∧ ¬ G x ∧ ∀ c ∈ pool.mapTx, C c → ¬ ReflTransGen pool.Spends c x

namespace Leaves

variable {G G' C C' : Nat → Prop} (h : Leaves G C pool pool')
include h

theorem congr (hG : ∀ x ∈ pool.mapTx, G x ↔ G' x) (hC : ∀ c ∈ pool.mapTx, C c ↔ C' c) :
    Leaves G' C' pool pool' := by
  refine ⟨h.loses, fun x => (h.mem x).trans (and_congr_right fun hx => ?_)⟩
  rw [hG x hx]
  exact and_congr_right fun _ => forall₂_congr fun c hc => by rw [hC c hc]

theorem clearPrioritisation (hash : Nat) : Leaves G C pool (pool'.clearPrioritisation hash) :=
  ⟨h.loses.imp fun _ hs => ⟨hs.mapTx, hs.entry⟩, h.mem⟩

/-- The paths between entries that are left are those that there were. -/
theorem reaches (hG : ∀ a b, G b → pool.Spends a b → G a) {c x : Nat} (hc : c ∈ pool'.mapTx)
    (hx : x ∈ pool'.mapTx) : ReflTransGen pool'.Spends c x ↔ ReflTransGen pool.Spends c x := by
  obtain ⟨s, hs⟩ := h.loses
  constructor
  · exact ReflTransGen.mono (fun a b hab => ((hs.spends a b).1 hab).1) c x
  · intro hcx
    induction hcx using ReflTransGen.head_induction_on with
    | refl => exact .refl
    | @head a b hab hbx ih =>
      have hb : b ∈ pool'.mapTx := by
        refine (h.mem b).2 ⟨hab.2.1, fun hGb => ((h.mem a).1 hc).2.1 (hG a b hGb hab), ?_⟩
        exact fun d hd hCd hdb => ((h.mem x).1 hx).2.2 d hd hCd (hdb.trans hbx)
      exact (ih hb).head ((hs.spends a b).2 ⟨hab, (hs.mem.1 hc).2, (hs.mem.1 hb).2⟩)

theorem trans (hG : ∀ a b, G b → pool.Spends a b → G a) (h' : Leaves G' C' pool' pool'') :
    Leaves (fun x => G x ∨ G' x) (fun c => C c ∨ ¬ G c ∧ C' c) pool pool'' := by
  obtain ⟨s, hs⟩ := h.loses
  obtain ⟨s', hs'⟩ := h'.loses
  refine ⟨⟨_, hs.trans hs'⟩, fun x => ?_⟩
  rw [h'.mem]
  constructor
  · rintro ⟨hx, hG', hC'⟩
    obtain ⟨hxp, hGx, hC⟩ := (h.mem x).1 hx
    refine ⟨hxp, not_or.2 ⟨hGx, hG'⟩, ?_⟩
    rintro c hc (hCc | ⟨hGc, hCc⟩) hcx
    · exact hC c hc hCc hcx
    · have hc' : c ∈ pool'.mapTx :=
        (h.mem c).2 ⟨hc, hGc, fun d hd hCd hdc => hC d hd hCd (hdc.trans hcx)⟩
      exact hC' c hc' hCc ((h.reaches hG hc' hx).2 hcx)
  · rintro ⟨hxp, hGx, hC⟩
    obtain ⟨hGx, hG'⟩ := not_or.1 hGx
    have hx : x ∈ pool'.mapTx := (h.mem x).2 ⟨hxp, hGx, fun c hc hCc => hC c hc (.inl hCc)⟩
    refine ⟨hx, hG', fun c hc hCc hcx => ?_⟩
    obtain ⟨hcp, hGc, -⟩ := (h.mem c).1 hc
    exact hC c hcp (.inr ⟨hGc, hCc⟩) ((h.reaches hG hc hx).1 hcx)

end Leaves

/-- An entry with another witness hash spends one of the outpoints. -/
def Clashes (witnessHash : Nat) (prevouts : List COutPoint) (e : CTxMemPoolEntry) : Prop :=
  e.tx.witnessHash ≠ witnessHash ∧ ∃ o ∈ prevouts, o ∈ e.inputs

theorem Loses.clashes (h : Loses pool pool' s) (w : Nat) (l : List COutPoint) (x : Nat) :
    Clashes w l (pool'.entry x) ↔ Clashes w l (pool.entry x) :=
  iff_of_eq (h.field (Clashes w l) x)

namespace Consistent

variable (h : Consistent pool)
include h

variable (tx : CTransaction)

theorem removeConflict (prevout : COutPoint) :
    ∃ pool', pool.removeConflict tx prevout = some pool' ∧ Consistent pool' ∧ Leaves
      (fun _ => False) (fun c => Clashes tx.witnessHash [prevout] (pool.entry c)) pool pool' := by
  have hnone (hno : ∀ c ∈ pool.mapTx, ¬ Clashes tx.witnessHash [prevout] (pool.entry c)) : Leaves
      (fun _ => False) (fun c => Clashes tx.witnessHash [prevout] (pool.entry c)) pool pool :=
    ⟨⟨∅, .refl pool⟩, fun x => ⟨fun hx => ⟨hx, id, fun c hc hC => absurd hC (hno c hc)⟩, And.left⟩⟩
  rw [CTxMemPool.removeConflict]
  cases hsp : pool.spender prevout with
  | none =>
    refine ⟨pool, rfl, h, hnone fun c hc hcl => ?_⟩
    obtain ⟨-, o, ho, hoc⟩ := hcl
    rw [mem_singleton.1 ho] at hoc
    simp [h.ledger.spender_iff.2 ⟨hc, hoc⟩] at hsp
  | some hash =>
    obtain ⟨hin, hspends⟩ := h.ledger.spender_some hsp
    have honly {c : Nat} (hc : c ∈ pool.mapTx) (hcl : ∃ o ∈ [prevout], o ∈ (pool.entry c).inputs) :
        c = hash := by
      obtain ⟨o, ho, hoc⟩ := hcl
      exact h.ledger.eq_of_inputs hc hin (mem_singleton.1 ho ▸ hoc) hspends
    by_cases hne : (pool.entry hash).tx.witnessHash ≠ tx.witnessHash
    · obtain ⟨pool', s, heq, hloses, h', hs⟩ := ((consistentBut_empty.2 h).clearPrioritisation
        (pool.entry hash).tx.hash).removeRecursive (pool.entry hash).tx
      rw [h.ledger.keys hash hin] at hs
      have hloses : Loses pool pool' s := ⟨hloses.mapTx, hloses.entry⟩
      have hs x : x ∈ s ↔ ReflTransGen pool.Spends hash x := by
        rw [hs hin x, spendsBut_empty]
        rfl
      refine ⟨pool', (if_pos hne).trans heq, consistentBut_empty.1 h', ⟨s, hloses⟩, fun x => ?_⟩
      rw [hloses.mem, hs]
      refine and_congr_right fun hx => ⟨fun hnot => ⟨id, fun c hc hcl => ?_⟩, fun hall => ?_⟩
      · rwa [honly hc hcl.2]
      · exact hall.2 hash hin ⟨hne, prevout, mem_singleton_self _, hspends⟩
    · refine ⟨pool, if_neg hne, h, hnone fun c hc hcl => hne ?_⟩
      rw [← honly hc hcl.2]
      exact hcl.1

theorem removeConflicts :
    ∃ pool', pool.removeConflicts tx = some pool' ∧ Consistent pool' ∧ Leaves (fun _ => False)
      (fun c => Clashes tx.witnessHash (tx.vin.map CTxIn.prevout) (pool.entry c)) pool pool' := by
  rw [CTxMemPool.removeConflicts]
  induction tx.vin.map CTxIn.prevout generalizing pool with
  | nil => exact ⟨pool, rfl, h, ⟨∅, .refl pool⟩, by simp [Clashes]⟩
  | cons prevout prevouts ih =>
    obtain ⟨pool1, heq1, h1, hleaves1⟩ := h.removeConflict tx prevout
    obtain ⟨pool2, heq2, h2, hleaves2⟩ := ih h1
    obtain ⟨s, hs⟩ := hleaves1.loses
    refine ⟨pool2, ?_, h2, (hleaves1.trans (fun _ _ hF => hF.elim) hleaves2).congr (by simp)
      fun c _ => ?_⟩
    · rw [foldlM_cons, heq1]
      exact heq2
    · rw [hs.clashes]
      simp [Clashes, and_or_left]

theorem removeBlockTx (hroot : ∀ p, ¬ pool.Spends p tx.hash) :
    ∃ pool', pool.removeBlockTx tx = some pool' ∧ Consistent pool' ∧ Leaves (· = tx.hash)
      (fun c => c ≠ tx.hash ∧
        Clashes tx.witnessHash (tx.vin.map CTxIn.prevout) (pool.entry c)) pool pool' := by
  obtain ⟨pool1, heq1, h1, hleaves1⟩ : ∃ pool1,
      (if tx.hash ∈ pool.mapTx then pool.removeStaged {tx.hash} true else some pool) =
        some pool1 ∧ Consistent pool1 ∧ Leaves (· = tx.hash) (fun _ => False) pool pool1 := by
    by_cases hin : tx.hash ∈ pool.mapTx
    · obtain ⟨pool1, heq, hloses, ht⟩ := Tracks.removeStaged_root h hin hroot
      exact ⟨pool1, (if_pos hin).trans heq, ht.congr fun p c => (hloses.spends p c).symm,
        ⟨_, hloses⟩, by simp [hloses.mem]⟩
    refine ⟨pool, if_neg hin, h, ⟨∅, .refl pool⟩, fun x => ?_⟩
    grind
  obtain ⟨pool2, heq2, h2, hleaves2⟩ := h1.removeConflicts tx
  obtain ⟨s, hs⟩ := hleaves1.loses
  refine ⟨pool2.clearPrioritisation tx.hash, ?_,
    consistentBut_empty.1 ((consistentBut_empty.2 h2).clearPrioritisation tx.hash),
    ((hleaves1.trans ?_ hleaves2).clearPrioritisation tx.hash).congr (by simp) fun c _ => ?_⟩
  · rw [CTxMemPool.removeBlockTx]
    grind
  · rintro a b rfl hab
    exact absurd hab (hroot a)
  · rw [hs.clashes, false_or]

end Consistent

/-- An entry clashes with a transaction of a block, and is none of those up to it. -/
def ClashesIn (pool : CTxMemPool) (c : Nat) : List CTransaction → Prop
  | [] => False
  | tx :: vtx => c ≠ tx.hash ∧
    (Clashes tx.witnessHash (tx.vin.map CTxIn.prevout) (pool.entry c) ∨ pool.ClashesIn c vtx)

theorem Loses.clashesIn (h : Loses pool pool' s) (c : Nat) (vtx : List CTransaction) :
    pool'.ClashesIn c vtx ↔ pool.ClashesIn c vtx := by
  induction vtx with
  | nil => rfl
  | cons tx vtx ih => rw [ClashesIn, ClashesIn, h.clashes, ih]

/-- **A connected block**: what is confirmed goes, and what is in conflict with it with all
descendants. -/
theorem Consistent.removeForBlock (h : Consistent pool) {vtx : List CTransaction}
    (hfirst : pool.ParentsFirst vtx) :
    ∃ pool', pool.removeForBlock vtx = some pool' ∧ Consistent pool' ∧
      Leaves (· ∈ vtx.map CTransaction.hash) (pool.ClashesIn · vtx) pool pool' := by
  induction vtx generalizing pool with
  | nil => exact ⟨pool, rfl, h, ⟨∅, .refl pool⟩, by simp [ClashesIn]⟩
  | cons tx vtx ih =>
    have hroot p : ¬ pool.Spends p tx.hash := fun hp =>
      not_mem_nil (hfirst 0 (Nat.succ_pos _) hp.2.1 p ((spends_iff_findParents hp.2.1).1 hp))
    obtain ⟨pool1, heq1, h1, hleaves1⟩ := h.removeBlockTx tx hroot
    obtain ⟨s, hs⟩ := hleaves1.loses
    obtain ⟨pool2, heq2, h2, hleaves2⟩ := ih h1 fun i hi hin p hp => by
      have hp := (hs.spends p _).1 ((spends_iff_findParents hin).2 hp)
      have hmem := hfirst (i + 1) (Nat.succ_lt_succ hi) hp.1.2.1 p
        ((spends_iff_findParents hp.1.2.1).1 hp.1)
      rw [take_succ_cons, map_cons, mem_cons] at hmem
      refine hmem.resolve_left fun heq => ?_
      exact ((hleaves1.mem p).1 (hs.mem.2 ⟨hp.1.1, hp.2.1⟩)).2.1 heq
    refine ⟨pool2, ?_, h2, (hleaves1.trans ?_ hleaves2).congr (by simp) fun c _ => ?_⟩
    · rw [CTxMemPool.removeForBlock, foldlM_cons, heq1]
      exact heq2
    · rintro a b rfl hab
      exact absurd hab (hroot a)
    · rw [hs.clashesIn, ClashesIn, and_or_left]

/-! ## Change sets -/

variable {e : CTxMemPoolEntry} {β : Type*}

theorem Gains.field (h : Gains pool pool' e) (f : CTxMemPoolEntry → β)
    {x : Nat} (hx : x ≠ e.tx.hash) (hf : ∀ e : CTxMemPoolEntry, f e.body = f e := by intros; rfl) :
    f (pool'.entry x) = f (pool.entry x) := by
  rw [← hf, h.entry x hx, hf]

theorem Gains.field_added (h : Gains pool pool' e) (f : CTxMemPoolEntry → β)
    (hf : ∀ e : CTxMemPoolEntry, f e.body = f e := by intros; rfl) :
    f (pool'.entry e.tx.hash) = f e := by
  rw [← hf, h.added, hf]

theorem Gains.spends (h : Gains pool pool' e) (ha : Addable pool e) (p c : Nat) :
    pool'.Spends p c ↔ pool.Spends p c ∨ (c = e.tx.hash ∧ p ∈ pool.findParents e) ∨
      (p = e.tx.hash ∧ c ∈ pool.mapTx ∧ ∃ o ∈ (pool.entry c).inputs, o.hash = e.tx.hash) := by
  have hmem x : x ∈ pool'.mapTx ↔ x = e.tx.hash ∨ x ∈ pool.mapTx := by
    rw [h.mapTx, mem_insert]
  have hparents : p ∈ pool.findParents e ↔ p ∈ pool.mapTx ∧ ∃ o ∈ e.inputs, o.hash = p := by
    rw [findParents, mem_inter, mem_toFinset, mem_map, and_comm]
  rw [Spends, hmem, hmem, hparents]
  by_cases hc : c = e.tx.hash
  · rw [hc, h.field_added inputs]
    have hnew := ha.new
    constructor
    · rintro ⟨rfl | hp, -, o, ho, hop⟩
      · exact absurd hop (ha.noSelf o ho)
      · exact .inr (.inl ⟨rfl, hp, o, ho, hop⟩)
    · rintro (⟨-, hn, -⟩ | ⟨-, hp, hspend⟩ | ⟨-, hn, -⟩)
      · exact absurd hn hnew
      · exact ⟨.inr hp, .inl rfl, hspend⟩
      · exact absurd hn hnew
  · rw [h.field inputs hc]
    constructor
    · rintro ⟨rfl | hp, hcin, hspend⟩
      · exact .inr (.inr ⟨rfl, hcin.resolve_left hc, hspend⟩)
      · exact .inl ⟨hp, hcin.resolve_left hc, hspend⟩
    · rintro (⟨hp, hcin, hspend⟩ | ⟨hce, -⟩ | ⟨rfl, hcin, hspend⟩)
      · exact ⟨.inr hp, .inr hcin, hspend⟩
      · exact absurd hce hc
      · exact ⟨.inl rfl, .inr hcin, hspend⟩

theorem ConsistentBut.addNewTransaction {A : Finset Nat} (h : ConsistentBut R pool)
    (R' : Finset Nat) (ha : Addable pool e)
    (hA : ∀ a, a ∈ A ↔ ∃ p ∈ pool.findParents e, ReflTransGen (SpendsBut R pool) a p)
    (hold : ∀ p c, pool.Spends p c → ((p ∈ R' → c ∈ R') ↔ (p ∈ R → c ∈ R)))
    (hin : ∀ p ∈ pool.findParents e, p ∈ R' → e.tx.hash ∈ R')
    (hout : ∀ c ∈ pool.mapTx, (∃ o ∈ (pool.entry c).inputs, o.hash = e.tx.hash) →
      e.tx.hash ∈ R' ∧ c ∉ R') :
    ∃ pool', (pool.splice e).addNewTransaction e.tx.hash A = some pool' ∧ Gains pool pool' e ∧
      ConsistentBut R' pool' := by
  obtain ⟨pool', heq, hgains, ht⟩ := Tracks.addNewTransaction h ha hA
  refine ⟨pool', heq, hgains, ht.congr fun p c => ?_⟩
  rw [SpendsBut, SpendsBut, hgains.spends ha]
  constructor
  · grind
  · grind

theorem ConsistentBut.ancestors (h : ConsistentBut R pool) (e : CTxMemPoolEntry) :
    ∃ A, pool.assumeCalculateMemPoolAncestors e true = some A ∧
      ∀ a, a ∈ A ↔ ∃ p ∈ pool.findParents e, ReflTransGen (SpendsBut R pool) a p := by
  rw [assumeCalculateMemPoolAncestors_eq]
  exact exploreParents_spec h.within h.linked.parents Finset.inter_subset_right

/-- Entries that can be added one after the other to what is kept of a pool: as they are staged,
not there, in conflict with nothing, and parents first. -/
structure Joins (pool : CTxMemPool) (keep : Finset Nat) (es : List CTxMemPoolEntry) : Prop where
  fresh : ∀ e ∈ es, e.Fresh
  new : ∀ e ∈ es, e.tx.hash ∉ keep
  noConflict : ∀ e ∈ es, ∀ o ∈ e.inputs, ∀ t ∈ keep, o ∉ (pool.entry t).inputs
  unspent : ∀ e ∈ es, ∀ t ∈ keep, ∀ o ∈ (pool.entry t).inputs, o.hash ≠ e.tx.hash
  noSelf : ∀ e ∈ es, ∀ o ∈ e.inputs, o.hash ≠ e.tx.hash
  order : es.Pairwise fun a b => a.tx.hash ≠ b.tx.hash ∧
    ∀ o ∈ a.inputs, o.hash ≠ b.tx.hash ∧ o ∉ b.inputs

namespace Joins

variable {es : List CTxMemPoolEntry}

theorem addable (h : Joins pool pool.mapTx (e :: es)) : Addable pool e :=
  ⟨h.fresh e mem_cons_self, h.new e mem_cons_self, h.noSelf e mem_cons_self,
    h.noConflict e mem_cons_self⟩

theorem tail (h : Joins pool pool.mapTx (e :: es)) (hg : Gains pool pool' e) :
    Joins pool' pool'.mapTx es := by
  obtain ⟨horder, htail⟩ := pairwise_cons.1 h.order
  have hmem {x : Nat} (hx : x ∈ pool'.mapTx) : x = e.tx.hash ∨ x ∈ pool.mapTx ∧ x ≠ e.tx.hash := by
    rw [hg.mapTx, mem_insert] at hx
    grind
  have hself := hg.field_added inputs
  refine ⟨fun b hb => h.fresh b (mem_cons_of_mem _ hb), fun b hb hin => ?_,
    fun b hb o ho t ht => ?_, fun b hb t ht o ho => ?_,
    fun b hb => h.noSelf b (mem_cons_of_mem _ hb), htail⟩
  · rcases hmem hin with heq | hin
    · exact (horder b hb).1 heq.symm
    · exact h.new b (mem_cons_of_mem _ hb) hin.1
  · rcases hmem ht with rfl | ht
    · rw [hself]
      exact fun ho' => ((horder b hb).2 o ho').2 ho
    · rw [hg.field inputs ht.2]
      exact h.noConflict b (mem_cons_of_mem _ hb) o ho t ht.1
  · rcases hmem ht with rfl | ht
    · rw [hself] at ho
      exact ((horder b hb).2 o ho).1
    · rw [hg.field inputs ht.2] at ho
      exact h.unspent b (mem_cons_of_mem _ hb) t ht.1 o ho

theorem of_loses (h : Joins pool (pool.mapTx \ s) es) (hl : Loses pool pool' s) :
    Joins pool' pool'.mapTx es := by
  rw [hl.mapTx]
  refine ⟨h.fresh, h.new, fun b hb o ho t ht => ?_, fun b hb t ht o ho => ?_, h.noSelf, h.order⟩
  · rw [hl.inputs]
    exact h.noConflict b hb o ho t ht
  · rw [hl.inputs] at ho
    exact h.unspent b hb t ht o ho

end Joins

theorem Consistent.addNewTransaction {A : Finset Nat} (h : Consistent pool) (ha : Addable pool e)
    (hunspent : ∀ t ∈ pool.mapTx, ∀ o ∈ (pool.entry t).inputs, o.hash ≠ e.tx.hash)
    (hA : ∀ a, a ∈ A ↔ ∃ p ∈ pool.findParents e, ReflTransGen (SpendsBut ∅ pool) a p) :
    ∃ pool', (pool.splice e).addNewTransaction e.tx.hash A = some pool' ∧ Gains pool pool' e ∧
      Consistent pool' := by
  obtain ⟨pool', heq, hgains, h'⟩ := ConsistentBut.addNewTransaction
    (consistentBut_empty.2 h) ∅ ha hA (fun _ _ _ => Iff.rfl)
    (fun p _ hp => absurd hp (notMem_empty p)) (by grind)
  exact ⟨pool', heq, hgains, consistentBut_empty.1 h'⟩

variable {es : List CTxMemPoolEntry} {changeset : ChangeSet}

theorem Consistent.applyEntries (h : Consistent pool) (hjoins : Joins pool pool.mapTx es) :
    ∃ pool', es.foldlM (fun pool e => pool.applyEntry e) pool = some pool' ∧ Consistent pool' := by
  induction es generalizing pool with
  | nil => exact ⟨pool, rfl, h⟩
  | cons e es ih =>
    have hself := hjoins.addable
    have hb := consistentBut_empty.2 h
    have hsub : pool.mapTx ⊆ (pool.splice e).mapTx := Finset.subset_insert _ _
    obtain ⟨A, hA, hmem⟩ := exploreParents_spec
      (fun p c hpc => ⟨hsub (hb.within p c hpc).1, hsub (hb.within p c hpc).2⟩)
      (hself.linked_splice hb).parents
      (show pool.findParents e ⊆ _ from Finset.inter_subset_right.trans hsub)
    obtain ⟨pool1, heq1, hgains, h1⟩ := h.addNewTransaction hself
      (hjoins.unspent e mem_cons_self) hmem
    obtain ⟨pool2, heq2, h2⟩ := ih h1 (hjoins.tail hgains)
    refine ⟨pool2, ?_, h2⟩
    rw [foldlM_cons, applyEntry, assumeCalculateMemPoolAncestors_eq, if_pos rfl,
      hself.findParents_splice, hA]
    grind

/-- What a change set removes is in the pool with all its children, and the ancestors it has for
its first entry were calculated in this pool, with parents that are not removed. -/
structure Removable (pool : CTxMemPool) (changeset : ChangeSet) : Prop where
  removed : changeset.toRemove ⊆ pool.mapTx
  closed : ∀ x ∈ changeset.toRemove, (pool.entry x).children ⊆ changeset.toRemove
  cached : ∀ A, changeset.ancestors = some A → ∀ e es, changeset.entryVec = e :: es →
    (∃ limits, pool.calculateMemPoolAncestors e limits true = some (.ok A)) ∧
      ∀ o ∈ e.inputs, o.hash ∉ changeset.toRemove

theorem Loses.findParents (h : Loses pool pool' s) {p : Nat} :
    p ∈ pool'.findParents e ↔ p ∈ pool.findParents e ∧ p ∉ s := by
  rw [CTxMemPool.findParents, CTxMemPool.findParents, mem_inter, mem_inter, h.mem, and_assoc]

theorem Loses.ancestors (h : Loses pool pool' s)
    (hclosed : ∀ a b, a ∈ s → SpendsBut R pool a b → b ∈ s) {a p : Nat} (hp : p ∉ s) :
    ReflTransGen (SpendsBut R pool') a p ↔ ReflTransGen (SpendsBut R pool) a p := by
  rw [reflTransGen_iff_eq_or_transGen, reflTransGen_iff_eq_or_transGen,
    transGen_removeClosed h.spendsBut hclosed, and_iff_left hp]

theorem ConsistentBut.applyRemovals (h : ConsistentBut R pool) (hr : Removable pool changeset) :
    ∃ pool1, pool.removeStaged changeset.toRemove false = some pool1 ∧
      Loses pool pool1 changeset.toRemove ∧ ConsistentBut R pool1 ∧
      ∀ e es, changeset.entryVec = e :: es → ∃ A,
        (changeset.ancestors = some A ∨ changeset.ancestors = none ∧
          pool1.assumeCalculateMemPoolAncestors e true = some A) ∧
        ∀ a, a ∈ A ↔ ∃ p ∈ pool1.findParents e, ReflTransGen (SpendsBut R pool1) a p := by
  obtain ⟨pool1, heq, hloses, h1⟩ := h.removeStaged hr.removed hr.closed
  refine ⟨pool1, heq, hloses, h1, fun e es hvec => ?_⟩
  cases hc : changeset.ancestors with
  | none =>
    obtain ⟨A, hA, hmem⟩ := h1.ancestors e
    exact ⟨A, .inr ⟨rfl, hA⟩, hmem⟩
  | some A =>
    obtain ⟨⟨limits, hok⟩, hkept⟩ := hr.cached A hc e es hvec
    obtain ⟨A', hA', hmem⟩ := h.ancestors e
    rw [calculateMemPoolAncestors_ok hok, Option.some.injEq] at hA'
    subst hA'
    have hclosed : ∀ a b, a ∈ changeset.toRemove → SpendsBut R pool a b →
        b ∈ changeset.toRemove := fun a b ha hab =>
      hr.closed a ha ((h.linked.children a (hr.removed ha) b).2 hab)
    refine ⟨A, .inl rfl, fun a => (hmem a).trans (exists_congr fun p => ?_)⟩
    rw [hloses.findParents, and_assoc]
    refine and_congr_right fun hp => ?_
    have hps : p ∉ changeset.toRemove := by
      rw [CTxMemPool.findParents, mem_inter, mem_toFinset, mem_map] at hp
      obtain ⟨⟨o, ho, rfl⟩, -⟩ := hp
      exact hkept o ho
    rw [and_iff_right hps, hloses.ancestors hclosed hps]

theorem apply_eq {A : Finset Nat} (heq : pool.removeStaged changeset.toRemove false = some pool')
    (hvec : changeset.entryVec = e :: es)
    (hA : changeset.ancestors = some A ∨ changeset.ancestors = none ∧
      pool'.assumeCalculateMemPoolAncestors e true = some A) :
    pool.apply changeset = (do
      let pool ← (pool'.splice e).addNewTransaction e.tx.hash A
      es.foldlM (fun pool e => pool.applyEntry e) pool) := by
  rw [apply, heq]
  simp only [hvec]
  rcases hA with hA | ⟨hA, hcalc⟩
  · simp [hA]
  · simp [hA, hcalc]

/-- A change set that can be applied. -/
structure Applicable (pool : CTxMemPool) (changeset : ChangeSet) : Prop
    extends Removable pool changeset where
  joins : Joins pool (pool.mapTx \ changeset.toRemove) changeset.entryVec

theorem Joins.applicable (h : Joins {} ∅ es) : Applicable {} { entryVec := es } :=
  ⟨⟨Finset.empty_subset _, by simp, by simp⟩, h⟩

/-- **Applying a change set.** -/
theorem Consistent.apply (h : Consistent pool) (ha : Applicable pool changeset) :
    ∃ pool', pool.apply changeset = some pool' ∧ Consistent pool' := by
  obtain ⟨pool1, heq, hloses, h1, hfirst⟩ :=
    (consistentBut_empty.2 h).applyRemovals ha.toRemovable
  have hjoins := ha.joins.of_loses hloses
  cases hvec : changeset.entryVec with
  | nil =>
    refine ⟨pool1, ?_, consistentBut_empty.1 h1⟩
    rw [CTxMemPool.apply, heq]
    simp [hvec]
  | cons e es =>
    rw [hvec] at hjoins
    obtain ⟨A, hA, hmem⟩ := hfirst e es hvec
    obtain ⟨pool2, heq2, hgains, h2⟩ := (consistentBut_empty.1 h1).addNewTransaction
      hjoins.addable (hjoins.unspent e mem_cons_self) hmem
    obtain ⟨pool3, heq3, h3⟩ := h2.applyEntries (hjoins.tail hgains)
    refine ⟨pool3, ?_, h3⟩
    rw [apply_eq heq hvec hA, heq2]
    exact heq3

theorem Consistent.prioritiseTransaction (h : Consistent pool) (hash : Nat) (nFeeDelta : Int) :
    ∃ pool', pool.prioritiseTransaction hash nFeeDelta = some pool' ∧ Consistent pool' := by
  obtain ⟨pool', heq, hmap, hinputs, h'⟩ := Tracks.prioritiseTransaction h hash nFeeDelta
  refine ⟨pool', heq, h'.congr fun p c => ?_⟩
  rw [Spends, Spends, hmap, hinputs]

end CTxMemPool

end BitcoinPurity
