import BitcoinPurity.Mempool.Consistent

/-!
# Transactions of disconnected blocks

The transactions of disconnected blocks enter the pool above entries that were there before them.
`addNewTransaction` leaves out the links to those; `UpdateTransactionsFromBlock` makes them, and
counts every re-added transaction as an ancestor of what descends from it, last transaction first
and with the descendants that it has found cached.

`Readded.updateTransactionsFromBlock`: after it the pool is consistent.
-/

namespace BitcoinPurity

open Each Explore Relation Ancestry List CTxMemPoolEntry

namespace CTxMemPool

variable {pool pool' : CTxMemPool} {P K A D : Nat → Nat → Prop}

/-! ## Linking and counting below an entry -/

section

variable {it : Nat} {s : Finset Nat}

theorem linkChildren_spec (hit : it ∈ pool.mapTx) (hs : s ⊆ pool.mapTx) (h : Linked P K A D pool) :
    ∃ pool', forEach s (fun child pool => do
        let pool ← pool.updateChild it child true
        pool.updateParent child it true) pool = some pool' ∧ SameTxs pool pool' ∧
      Linked (fun p c => P p c ∨ (p = it ∧ c ∈ s)) (fun p c => K p c ∨ (p = it ∧ c ∈ s)) A D
        pool' := by
  refine forEach_spec (fun d st => SameTxs pool st ∧
    Linked (fun p c => P p c ∨ (p = it ∧ c ∈ d)) (fun p c => K p c ∨ (p = it ∧ c ∈ d)) A D st)
    ⟨.refl pool, h.congr (by simp) (by simp) same same⟩ ?_
  rintro d x st hx hxd ⟨hsame, hst⟩
  obtain ⟨st1, heq1, hsame1, h1⟩ := updateChild_add (hsame.mapTx ▸ hit) hst
  obtain ⟨st2, heq2, hsame2, h2⟩ := updateParent_add
    (hsame1.mapTx ▸ hsame.mapTx ▸ hs hx) h1
  have hinsert q (p c) :
      (q ∨ (p = it ∧ c ∈ d)) ∨ (p = it ∧ c = x) ↔ q ∨ (p = it ∧ c ∈ insert x d) := by
    rw [Finset.mem_insert]
    tauto
  refine ⟨st2, ?_, (hsame.trans hsame1).trans hsame2, h2.congr (fun _ _ => hinsert ..)
    (fun _ _ => hinsert ..) same same⟩
  simp [heq1, heq2]

theorem modify_descendants (hit : it ∈ pool.mapTx) (hs : s ⊆ pool.mapTx)
    (h : Linked P K A D pool) (hnew : ∀ d ∈ s, ¬ D it d) :
    ∃ pool', pool.modify it (updateDescendantState
        (∑ d ∈ s, (pool.entry d).txSize) (∑ d ∈ s, (pool.entry d).modifiedFee) s.card) =
        some pool' ∧ SameTxs pool pool' ∧
      Linked P K A (fun x d => D x d ∨ (x = it ∧ d ∈ s)) pool' := by
  set pool' := pool.mapEntries fun y e =>
    if y = it then e.addDescendantState (∑ d ∈ s, (pool.entry d).txSize)
      (∑ d ∈ s, (pool.entry d).modifiedFee) s.card else e with hpool'
  have hsame : SameTxs pool pool' :=
    .mapEntries fun _ _ => field_ite rfl
  have htot x : (pool'.entry x).descendantTotals =
      (pool.entry x).descendantTotals + if x = it then ∑ d ∈ s, (pool.entry d).upWeight else 0 := by
    by_cases hx : x = it
    · simp only [hpool', mapEntries, hx, if_true]
      rw [descendantTotals_addDescendantState, sum_upWeight]
    · simp [hpool', mapEntries, hx]
  have hcounted := (counted_entry (fun _ => rfl) it s hsame hs (fun _ _ => Iff.rfl) hnew
      fun x _ => htot x).1 h.descendants
  refine ⟨pool', modify_eq hit ?_, hsame, ?_, ?_, ?_, hcounted⟩
  · have hpos := hcounted it hit
    rw [htot it, if_pos rfl, hsame.upWeight, sum_upWeight] at hpos
    exact updateDescendantState_eq hpos
  · exact h.parents.mapEntries
  · exact h.children.mapEntries
  · exact h.ancestors.mapEntries

theorem modifyEach_addAncestor (hit : it ∈ pool.mapTx) (hs : s ⊆ pool.mapTx)
    (h : Linked P K A D pool) (hnew : ∀ x ∈ s, ¬ A it x) :
    ∃ pool', pool.modifyEach s (updateAncestorState (pool.entry it).txSize
        (pool.entry it).modifiedFee 1 (pool.entry it).sigOpCost) = some pool' ∧
      SameTxs pool pool' ∧ Linked P K (fun a x => A a x ∨ (a = it ∧ x ∈ s)) D pool' := by
  have hcounted :=
    (counted_single (fun _ => rfl) it s sameTxs_addAncestors hit (fun _ _ => Iff.rfl) hnew
      fun x _ => ancestorTotals_addAncestors x).1 h.ancestors
  obtain ⟨heq, hlinked⟩ := modifyEach_ancestors hs h hcounted
  exact ⟨_, heq, sameTxs_addAncestors, hlinked⟩

theorem updateForDescendants_spec (limits : MemPoolLimits) {setExclude all : Finset Nat}
    {u : BlockUpdate} (hit : it ∈ u.pool.mapTx)
    (hall : exploreCached (fun x => (u.pool.entry x).children) u.cachedDescendants
      u.pool.mapTx.card (u.pool.entry it).children ∅ = some all)
    (hs : all \ setExclude ⊆ u.pool.mapTx) (h : Linked P K A D u.pool)
    (hA : ∀ x ∈ all \ setExclude, ¬ A it x) (hD : ∀ d ∈ all \ setExclude, ¬ D it d) :
    ∃ u', updateForDescendants limits setExclude it u = some u' ∧ SameTxs u.pool u'.pool ∧
      Linked P K (fun a x => A a x ∨ (a = it ∧ x ∈ all \ setExclude))
        (fun x d => D x d ∨ (x = it ∧ d ∈ all \ setExclude)) u'.pool ∧
      u'.cachedDescendants = if all \ setExclude = ∅ then u.cachedDescendants
        else Function.update u.cachedDescendants it
          (some ((u.cachedDescendants it).getD ∅ ∪ all \ setExclude)) := by
  obtain ⟨pool1, heq1, hsame1, h1⟩ := modifyEach_addAncestor hit hs h hA
  obtain ⟨pool2, heq2, hsame2, h2⟩ :=
    modify_descendants (hsame1.mapTx ▸ hit) (hsame1.mapTx ▸ hs) h1 hD
  simp only [hsame1.txSize, hsame1.modifiedFee] at heq2
  refine ⟨{
    pool := pool2
    cachedDescendants := if all \ setExclude = ∅ then u.cachedDescendants
      else Function.update u.cachedDescendants it
        (some ((u.cachedDescendants it).getD ∅ ∪ all \ setExclude))
    descendantsToRemove := u.descendantsToRemove ∪ (all \ setExclude).filter fun d =>
      exceeds (pool1.entry d).countWithAncestors limits.ancestorCount ||
        exceeds (pool1.entry d).sizeWithAncestors limits.ancestorSizeVbytes }, ?_,
    hsame1.trans hsame2, h2, rfl⟩
  rw [updateForDescendants]
  simp only [hall, heq1, heq2, Option.bind_eq_bind, Option.bind_some]
  rfl

end

/-! ## The state before the update -/

/-- A pool to which transactions of disconnected blocks have been added, parents first and without
parents that were there before: their links to older entries are missing. -/
structure Readded (done : List Nat) (pool : CTxMemPool) : Prop where
  consistent : ConsistentBut done.toFinset pool
  nodup : done.Nodup
  parents : ∀ p c, pool.Spends p c → c ∈ done → p ∈ done
  order : done.Pairwise fun p c => ¬ pool.Spends c p

namespace Readded

variable {done l : List Nat}

/-- The links that have been made once the transactions of `l` are done. -/
def Links (done : List Nat) (pool : CTxMemPool) (l : List Nat) (p c : Nat) : Prop :=
  pool.Spends p c ∧ (p ∈ done → c ∉ done → p ∈ l)

/-- The pairs that are counted once the transactions of `l` are done. -/
def Counts (done : List Nat) (pool : CTxMemPool) (l : List Nat) (a d : Nat) : Prop :=
  TransGen pool.Spends a d ∧ (a ∈ done → d ∉ done → a ∈ l)

/-- What the loop of `UpdateTransactionsFromBlock` keeps. -/
structure Progress (done : List Nat) (pool : CTxMemPool) (l : List Nat) (u : BlockUpdate) :
    Prop where
  same : SameTxs pool u.pool
  linked : Linked (Links done pool l) (Links done pool l) (Counts done pool l)
    (Counts done pool l) u.pool
  cached : ∀ x s, u.cachedDescendants x = some s →
    x ∈ l ∧ ∀ d, d ∈ s ↔ d ∉ done ∧ TransGen pool.Spends x d

theorem upTo_cons {q : Prop} {it x y : Nat} : q ∧ (x ∈ done → y ∉ done → x ∈ it :: l) ↔
    (q ∧ (x ∈ done → y ∉ done → x ∈ l)) ∨ (x = it ∧ q ∧ y ∉ done) := by grind

variable (h : Readded done pool)
include h

theorem older {a d : Nat} (had : TransGen pool.Spends a d) (ha : a ∉ done) : d ∉ done := by
  induction had with
  | single hab => exact fun hb => ha (h.parents _ _ hab hb)
  | tail _ hbc ih => exact fun hc => ih (h.parents _ _ hbc hc)

theorem transGen_spendsBut {a d : Nat} :
    TransGen (SpendsBut done.toFinset pool) a d ↔ Counts done pool [] a d := by
  constructor
  · intro had
    refine ⟨TransGen.mono (fun p c hpc => hpc.1) _ _ had, fun ha hd => absurd ?_ hd⟩
    clear hd
    induction had with
    | single hab => exact mem_toFinset.1 (hab.2 (mem_toFinset.2 ha))
    | tail _ hbc ih => exact mem_toFinset.1 (hbc.2 (mem_toFinset.2 ih))
  · rintro ⟨had, hnone⟩
    induction had with
    | single hab =>
      refine .single ⟨hab, fun ha => ?_⟩
      by_contra hb
      rw [mem_toFinset] at ha hb
      exact not_mem_nil (hnone ha hb)
    | @tail b c hab hbc ih =>
      have hbc' : b ∈ done → c ∈ done := by
        intro hb
        by_contra hc
        by_cases ha : a ∈ done
        · exact not_mem_nil (hnone ha hc)
        · exact h.older hab ha hb
      refine (ih fun ha hb => hnone ha fun hc => hb (h.parents b c hbc hc)).tail ⟨hbc, ?_⟩
      simpa only [mem_toFinset] using hbc'

theorem acyclic (x : Nat) : ¬ TransGen pool.Spends x x := by
  intro hx
  exact h.consistent.acyclic x (h.transGen_spendsBut.2 ⟨hx, fun h1 h2 => absurd h1 h2⟩)

theorem progress_nil : Progress done pool [] { pool := pool } where
  same := .refl pool
  linked := by
    have hlinks (p c) : SpendsBut done.toFinset pool p c ↔ Links done pool [] p c := by
      rw [SpendsBut, Links]
      simp
    exact h.consistent.linked.congr hlinks hlinks (fun _ _ => h.transGen_spendsBut)
      fun _ _ => h.transGen_spendsBut
  cached := by simp

/-! ## One transaction -/

section

variable {before : List Nat} {it : Nat} {u : BlockUpdate} (hdone : done = before ++ it :: l)
include hdone

theorem later {x c : Nat} (hx : x ∈ it :: l) (hxc : pool.Spends x c) (hc : c ∈ done) :
    c ∈ it :: l := by
  have horder := h.order
  grind

omit h in
theorem mem_done : it ∈ done := by
  rw [hdone]
  exact mem_append_right _ mem_cons_self

theorem not_mem_rest : it ∉ l := by
  have := h.nodup
  rw [hdone, nodup_append] at this
  exact (nodup_cons.1 this.2.1).1

theorem transGen_children {next : Nat → Finset Nat}
    (hnext : ∀ x ∈ pool.mapTx, ∀ y, y ∈ next x ↔ Links done pool (it :: l) x y) {x d : Nat}
    (hx : x ∈ pool.mapTx) (hxl : x ∈ done → x ∈ it :: l) :
    TransGen (fun x y => y ∈ next x) x d ↔ TransGen pool.Spends x d := by
  have hstep {y z : Nat} (hy : y ∈ pool.mapTx) (hyl : y ∈ done → y ∈ it :: l) :
      z ∈ next y ↔ pool.Spends y z := by
    rw [hnext y hy]
    exact and_iff_left fun hyd _ => hyl hyd
  have hkeep {y z : Nat} (hyl : y ∈ done → y ∈ it :: l) hyz :
      z ∈ pool.mapTx ∧ (z ∈ done → z ∈ it :: l) :=
    ⟨hyz.2.1, fun hz => h.later hdone (hyl (h.parents y z hyz hz)) hyz hz⟩
  constructor
  · intro hxd
    suffices TransGen pool.Spends x d ∧ d ∈ pool.mapTx ∧ (d ∈ done → d ∈ it :: l) from this.1
    induction hxd with
    | single hxy => grind
    | tail _ hyz ih => grind
  · intro hxd
    suffices TransGen (fun x y => y ∈ next x) x d ∧ d ∈ pool.mapTx ∧
      (d ∈ done → d ∈ it :: l) from this.1
    induction hxd with
    | single hxy => exact ⟨.single ((hstep hx hxl).2 hxy), hkeep hxl hxy⟩
    | tail _ hyz ih => exact ⟨ih.1.tail ((hstep ih.2.1 ih.2.2).2 hyz), hkeep ih.2.2 hyz⟩

theorem walk_spec (next : Nat → Finset Nat) {cached : Nat → Option (Finset Nat)}
    (hit : it ∈ pool.mapTx)
    (hnext : ∀ x ∈ pool.mapTx, ∀ y, y ∈ next x ↔ Links done pool (it :: l) x y)
    (hcached : ∀ x s, cached x = some s →
      x ∈ l ∧ ∀ d, d ∈ s ↔ d ∉ done ∧ TransGen pool.Spends x d) :
    ∃ all, exploreCached next cached pool.mapTx.card (next it) ∅ = some all ∧
      ∀ d, d ∈ all \ done.toFinset ↔ TransGen pool.Spends it d ∧ d ∉ done := by
  have hin {y : Nat} (hy : TransGen pool.Spends it y) : y ∈ pool.mapTx := by
    obtain ⟨z, -, hz⟩ := TransGen.tail'_iff.1 hy
    exact hz.2.1
  have hfirst {y : Nat} : y ∈ next it ↔ pool.Spends it y := by
    rw [hnext it hit]
    exact and_iff_left fun _ _ => mem_cons_self
  have hstart : Explore.Progress next (· ∉ done) (TransGen pool.Spends it) pool.mapTx ∅
      (next it) ∅ := by
    refine ⟨fun y hy => hin (.single (hfirst.1 hy)), ?_, by simp, by simp, by simp, by simp⟩
    grind
  obtain ⟨all, heq, hsound, hset⟩ := exploreCached_spec
    (fun y z hy hz => hy.tail (((hnext y (hin hy) z).1 hz).1)) (fun y hy => hin hy)
    (fun c s hc hcs => by
      obtain ⟨hcl, hmem⟩ := hcached c s hcs
      have hcd : c ∈ done := by grind
      refine ⟨fun hn => hn hcd, fun d => ?_⟩
      rw [hmem, h.transGen_children hdone hnext (hin hc) fun _ => mem_cons_of_mem _ hcl])
    hstart (Finset.card_le_card Finset.sdiff_subset)
  refine ⟨all, heq, fun d => ?_⟩
  rw [Finset.mem_sdiff, mem_toFinset]
  refine and_congr_left fun hd => ⟨hsound d, fun hitd => ?_⟩
  obtain ⟨y, hy, hyd⟩ := TransGen.head'_iff.1 hitd
  refine hset y (.inl (hfirst.2 hy)) d hd ?_
  have hyl : y ∈ done → y ∈ it :: l := h.later hdone mem_cons_self hy
  rcases reflTransGen_iff_eq_or_transGen.1 hyd with rfl | hyd
  · exact .refl
  · exact ((h.transGen_children hdone hnext hy.2.1 hyl).2 hyd).to_reflTransGen

omit hdone in
theorem nextChildren_mem (hsame : SameTxs pool u.pool) (hit : it ∈ pool.mapTx) (c : Nat) :
    c ∈ u.pool.nextChildren it ↔ pool.Spends it c := by
  have hledger := h.consistent.ledger
  simp only [nextChildren, mem_toFinset, mem_map, mem_filter, beq_iff_eq,
    Prod.exists, exists_eq_right, hsame.mapNextTx, hledger.next]
  constructor
  · rintro ⟨o, ⟨hc, ho⟩, hhash⟩
    exact ⟨hit, hc, o, ho, hhash⟩
  · rintro ⟨-, hc, o, ho, hhash⟩
    exact ⟨o, ⟨hc, ho⟩, hhash⟩

/-- **One transaction**: it is linked to its older children and counted with what descends from
it. -/
theorem step (limits : MemPoolLimits) (hp : Progress done pool l u) :
    ∃ u', updateTransactionFromBlock limits done.toFinset it u = some u' ∧
      Progress done pool (it :: l) u' := by
  rw [updateTransactionFromBlock]
  by_cases hit : it ∈ pool.mapTx
  · have hitu : it ∈ u.pool.mapTx := hp.same.mapTx ▸ hit
    have hchildren := h.nextChildren_mem hp.same hit
    have hsub : u.pool.nextChildren it ⊆ u.pool.mapTx := fun c hc =>
      hp.same.mapTx ▸ ((hchildren c).1 hc).2.1
    rw [if_pos hitu, if_pos hsub]
    -- the links to older children
    obtain ⟨pool1, heq1, hsame1, h1⟩ := linkChildren_spec hitu
      (Finset.sdiff_subset.trans hsub : u.pool.nextChildren it \ done.toFinset ⊆ _) hp.linked
    have hlinks (p c) : Links done pool l p c ∨
        (p = it ∧ c ∈ u.pool.nextChildren it \ done.toFinset) ↔ Links done pool (it :: l) p c := by
      rw [Links, Links, upTo_cons, Finset.mem_sdiff, hchildren, mem_toFinset]
      grind
    have h1 := h1.congr hlinks hlinks same same
    have hsame := hp.same.trans hsame1
    -- the descendants
    obtain ⟨all, hall, hmem⟩ := h.walk_spec hdone (fun x => (pool1.entry x).children) hit
      (fun x hx y => h1.children x (hsame.mapTx ▸ hx) y) hp.cached
    rw [← hsame.mapTx] at hall
    have hnew : ∀ d ∈ all \ done.toFinset, ¬ Counts done pool l it d := fun d hd hcount =>
      h.not_mem_rest hdone (hcount.2 (mem_done hdone) ((hmem d).1 hd).2)
    have hin : all \ done.toFinset ⊆ pool1.mapTx := by
      intro d hd
      obtain ⟨y, -, hyd⟩ := TransGen.tail'_iff.1 ((hmem d).1 hd).1
      exact hsame.mapTx ▸ hyd.2.1
    have hcounts (a d) : Counts done pool l a d ∨ (a = it ∧ d ∈ all \ done.toFinset) ↔
        Counts done pool (it :: l) a d := by
      rw [Counts, Counts, upTo_cons, hmem]
      grind
    obtain ⟨u', heq', hsame', h', hcache⟩ := updateForDescendants_spec limits
      (u := { u with pool := pool1 }) (hsame1.mapTx ▸ hitu) hall hin h1 hnew hnew
    refine ⟨u', ?_, hsame.trans hsame', h'.congr same same hcounts
      hcounts, fun x s hxs => ?_⟩
    · rw [heq1]
      exact heq'
    · have hold hu : x ∈ it :: l ∧
          ∀ d, d ∈ s ↔ d ∉ done ∧ TransGen pool.Spends x d :=
        ⟨mem_cons_of_mem _ (hp.cached x s hu).1, (hp.cached x s hu).2⟩
      rw [hcache] at hxs
      split at hxs
      · exact hold hxs
      by_cases hx : x = it
      · subst hx
        have hnone : u.cachedDescendants x = none := by
          cases hc : u.cachedDescendants x with
          | none => rfl
          | some s' => exact absurd (hp.cached x s' hc).1 (h.not_mem_rest hdone)
        grind
      · rw [Function.update_of_ne hx] at hxs
        exact hold hxs
  · have hitu : it ∉ u.pool.mapTx := fun hmem => hit (hp.same.mapTx ▸ hmem)
    rw [if_neg hitu]
    refine ⟨u, rfl, hp.same, hp.linked.congr ?_ ?_ ?_ ?_, fun x s hxs =>
      ⟨mem_cons_of_mem _ (hp.cached x s hxs).1, (hp.cached x s hxs).2⟩⟩
    all_goals
      intro p c
      simp only [Links, Counts, upTo_cons]
      refine (or_iff_left ?_).symm
      rintro ⟨rfl, hpc, -⟩
    · exact hit hpc.1
    · exact hit hpc.1
    · obtain ⟨y, hy, -⟩ := TransGen.head'_iff.1 hpc
      exact hit hy.1
    · obtain ⟨y, hy, -⟩ := TransGen.head'_iff.1 hpc
      exact hit hy.1

end

/-! ## All transactions -/

theorem progress (limits : MemPoolLimits) (before : List Nat) (hdone : done = before ++ l) :
    ∃ u, l.reverse.foldlM (fun u hash => updateTransactionFromBlock limits done.toFinset hash u)
      ({ pool := pool } : BlockUpdate) = some u ∧ Progress done pool l u := by
  induction l generalizing before with
  | nil => exact ⟨_, rfl, h.progress_nil⟩
  | cons it l ih =>
    obtain ⟨u, heq, hp⟩ := ih (before ++ [it]) (by simp [hdone])
    obtain ⟨u', heq', hp'⟩ := h.step hdone limits hp
    refine ⟨u', ?_, hp'⟩
    rw [reverse_cons, foldlM_append, heq]
    grind

/-- **`UpdateTransactionsFromBlock`** makes the pool consistent. -/
theorem updateTransactionsFromBlock (limits : MemPoolLimits) :
    ∃ pool', pool.updateTransactionsFromBlock limits done = some pool' ∧ Consistent pool' := by
  obtain ⟨u, heq, hp⟩ := h.progress limits [] rfl
  have hspends (p c) : pool.Spends p c ↔ u.pool.Spends p c := by
    rw [Spends, Spends, hp.same.mapTx, hp.same.inputs]
  have hu : Consistent u.pool := by
    have ht : Tracks pool.Spends u.pool := by
      refine ⟨fun p c hpc => hp.same.mapTx ▸ ⟨hpc.1, hpc.2.1⟩, h.acyclic,
        hp.linked.congr ?_ ?_ ?_ ?_, h.consistent.ledger.of_sameTxs hp.same⟩
      all_goals exact fun a b => and_iff_left fun ha _ => ha
    exact ht.congr hspends
  obtain ⟨pool', heq', h'⟩ : ∃ pool', forEach u.descendantsToRemove removeOverLimit u.pool =
      some pool' ∧ Consistent pool' := by
    refine forEach_spec (fun _ st => Consistent st) hu ?_
    intro d x st _ _ hst
    by_cases hx : x ∈ st.mapTx
    · obtain ⟨st', -, heq, -, h', -⟩ :=
        (consistentBut_empty.2 hst).removeRecursive (st.entry x).tx
      exact ⟨st', (if_pos hx).trans heq, consistentBut_empty.1 h'⟩
    · exact ⟨st, if_neg hx, hst⟩
  refine ⟨pool', ?_, h'⟩
  rw [CTxMemPool.updateTransactionsFromBlock, heq]
  exact heq'

end Readded

/-! ## Re-adding -/

theorem Readded.loses {done : List Nat} {s : Finset Nat} (h : Readded done pool)
    (hl : Loses pool pool' s) (h' : ConsistentBut done.toFinset pool') : Readded done pool' where
  consistent := h'
  nodup := h.nodup
  parents := fun p c hpc => h.parents p c ((hl.spends p c).1 hpc).1
  order := h.order.imp fun hcp hcp' => hcp ((hl.spends _ _).1 hcp').1

/-- What can happen to a transaction of a disconnected block.  If it is accepted, then by a change
set for it alone; it is not there yet, in conflict with nothing that is kept, not an input of one
that was re-added before it, and those of its parents that are in the pool were re-added. -/
def Resurrectable (pool : CTxMemPool) (done : List Nat) : Resurrection → Prop
  | .accepted changeset => Removable pool changeset ∧ ∃ e, changeset.entryVec = [e] ∧
      e.Fresh ∧ e.tx.hash ∉ done ∧ e.tx.hash ∉ pool.mapTx \ changeset.toRemove ∧
      (∀ o ∈ e.inputs, o.hash ≠ e.tx.hash) ∧
      (∀ o ∈ e.inputs, ∀ t ∈ pool.mapTx \ changeset.toRemove, o ∉ (pool.entry t).inputs) ∧
      (∀ t ∈ done, t ∈ pool.mapTx \ changeset.toRemove →
        ∀ o ∈ (pool.entry t).inputs, o.hash ≠ e.tx.hash) ∧
      ∀ p ∈ pool.findParents e, p ∉ changeset.toRemove → p ∈ done
  | .rejected _ => True

theorem Readded.resurrect {done : List Nat} (h : Readded done pool) {r : Resurrection}
    (hr : Resurrectable pool done r) :
    ∃ pool' done', CTxMemPool.resurrect r (pool, done) = some (pool', done') ∧
      Readded done' pool' := by
  cases r with
  | rejected tx =>
    obtain ⟨pool', s, heq, hloses, h', -⟩ := h.consistent.removeRecursive tx
    refine ⟨pool', done, ?_, h.loses hloses h'⟩
    simp only [CTxMemPool.resurrect, heq]
    rfl
  | accepted changeset =>
    obtain ⟨hremovable, e, hvec, hfresh, hnot, hnew, hself, hconflict, hunspent, hparents⟩ := hr
    obtain ⟨pool1, heq1, hloses, h1, hfirst⟩ := h.consistent.applyRemovals hremovable
    have hR1 := h.loses hloses h1
    obtain ⟨A, hA, hmem⟩ := hfirst e [] hvec
    have ha : Addable pool1 e := by
      refine ⟨hfresh, hloses.mapTx ▸ hnew, hself, fun o ho t ht => ?_⟩
      rw [hloses.inputs]
      exact hconflict o ho t (hloses.mapTx ▸ ht)
    have hunspent1 : ∀ t ∈ done, t ∈ pool1.mapTx →
        ¬ ∃ o ∈ (pool1.entry t).inputs, o.hash = e.tx.hash := by
      rintro t ht htin ⟨o, ho, heq⟩
      rw [hloses.inputs] at ho
      exact hunspent t ht (hloses.mapTx ▸ htin) o ho heq
    have hgrown {x : Nat} (hx : x ∈ pool1.mapTx) :
        x ∈ (done ++ [e.tx.hash]).toFinset ↔ x ∈ done.toFinset := by
      have := ha.ne_of_mem hx
      simp [this]
    obtain ⟨pool2, heq2, hgains, h2⟩ := h1.addNewTransaction (done ++ [e.tx.hash]).toFinset ha hmem
      (fun p c hpc => by rw [hgrown hpc.1, hgrown hpc.2.1]) (fun _ _ _ => by simp)
      (fun c hc hspend => ⟨by simp, fun hmemc =>
        hunspent1 c (mem_toFinset.1 ((hgrown hc).1 hmemc)) hc hspend⟩)
    have hin : e.tx.hash ∈ pool2.mapTx := hgains.mapTx ▸ Finset.mem_insert_self _ _
    refine ⟨pool2, done ++ [e.tx.hash], ?_, h2, ?_, fun p c hpc hc => ?_, ?_⟩
    · have happly : pool.apply changeset = some pool2 := by
        rw [apply_eq heq1 hvec hA, heq2]
        rfl
      simp only [CTxMemPool.resurrect, happly, hvec, Option.bind_eq_bind, Option.bind_some,
        map_cons, filter_cons, hin]
      rfl
    · rw [nodup_append]
      exact ⟨h.nodup, nodup_singleton _, by grind⟩
    · rcases (hgains.spends ha p c).1 hpc with hpc | ⟨rfl, hp⟩ | ⟨rfl, -⟩
      · have hcd : c ∈ done := by
          have := ha.ne_of_mem hpc.2.1
          simpa [this] using hc
        exact mem_append_left _ (hR1.parents p c hpc hcd)
      · have := hloses.findParents.1 hp
        exact mem_append_left _ (hparents p this.1 this.2)
      · simp
    · rw [pairwise_append]
      refine ⟨?_, pairwise_singleton _ _, fun p hp c hc hcp => ?_⟩
      · refine List.Pairwise.imp_of_mem (fun {p c} hp hc hold hcp => ?_) hR1.order
        rcases (hgains.spends ha c p).1 hcp with hcp | ⟨rfl, -⟩ | ⟨rfl, -⟩
        · exact hold hcp
        · exact hnot hp
        · exact hnot hc
      · rw [mem_singleton.1 hc] at hcp
        rcases (hgains.spends ha _ p).1 hcp with hcp | ⟨rfl, -⟩ | ⟨-, hpin, hspend⟩
        · exact ha.new hcp.1
        · exact hnot hp
        · exact hunspent1 p hp hpin hspend

end CTxMemPool

end BitcoinPurity
