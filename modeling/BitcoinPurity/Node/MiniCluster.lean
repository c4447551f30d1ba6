import BitcoinPurity.Mempool.Consistent
import BitcoinPurity.Node.MockTemplate

/-!
# What the mini miner starts from

The constructor on a consistent pool.  `make_spec`: it succeeds; the miner is ready iff at most 500
transactions are connected to those of the outpoints, and then it is sound, every outpoint either
belongs to a requested transaction among the entries or has a bump fee of 0 already, and the
requests are those of the outpoints (`Accounts`).
-/

namespace BitcoinPurity

open Each Explore LastBy Relation Ancestry List

namespace CTxMemPool

variable {pool : CTxMemPool}

/-! ## Clusters -/

theorem foldl_appendNew_spec (new : List Nat) {l : List Nat} (hl : l.Nodup) :
    let r := new.foldl (fun txs y => if y ∈ txs then txs else txs ++ [y]) l
    l <+: r ∧ r.Nodup ∧ ∀ y, y ∈ r ↔ y ∈ l ∨ y ∈ new := by
  induction new generalizing l with
  | nil => simpa using hl
  | cons z new ih =>
    by_cases hz : z ∈ l
    · grind
    · obtain ⟨hpre, hnodup, hmem⟩ := ih (hl.append (nodup_singleton z) (by simpa using hz))
      rw [foldl_cons, if_neg hz]
      refine ⟨(prefix_append l [z]).trans hpre, hnodup, fun y => ?_⟩
      rw [hmem, mem_append, mem_singleton, mem_cons, or_assoc]

/-- Entries that have their parents and their children. -/
structure Clustered (pool : CTxMemPool) (cluster : List Nat) : Prop where
  nodup : cluster.Nodup
  subset : ∀ x ∈ cluster, x ∈ pool.mapTx
  closed : ∀ x ∈ cluster, ∀ y ∈ (pool.entry x).parents ∪ (pool.entry x).children, y ∈ cluster

theorem clustered_of_done {i : Nat} {l : List Nat} (hl : l.Nodup) (hsub : ∀ x ∈ l, x ∈ pool.mapTx)
    (hdone : ∀ j < i, ∀ x, l[j]? = some x →
      ∀ y ∈ (pool.entry x).parents ∪ (pool.entry x).children, y ∈ l)
    (hi : i ≤ 500) (hend : l[i]? = none) : Clustered pool l ∧ l.length ≤ 500 := by
  have hle := getElem?_eq_none_iff.1 hend
  refine ⟨⟨hl, hsub, fun x hx => ?_⟩, hle.trans hi⟩
  obtain ⟨j, hj, rfl⟩ := getElem_of_mem hx
  exact hdone j (hj.trans_le hle) _ (getElem?_eq_getElem hj)

theorem gatherLoop_spec {K : Finset Nat} (hK : K ⊆ pool.mapTx)
    (hrel : ∀ x ∈ K, (pool.entry x).parents ∪ (pool.entry x).children ⊆ K)
    {fuel i : Nat} {l : List Nat} (hl : l.Nodup) (hsub : ∀ x ∈ l, x ∈ K)
    (hdone : ∀ j < i, ∀ x, l[j]? = some x →
      ∀ y ∈ (pool.entry x).parents ∪ (pool.entry x).children, y ∈ l)
    (hi : i ≤ 500) (hfuel : pool.mapTx.card ≤ fuel + i) :
    ∃ r, pool.gatherLoop fuel i l = some r ∧ (r = [] ∧ 500 < K.card ∨
      Clustered pool r ∧ r.length ≤ 500 ∧ ∀ x ∈ l, x ∈ r) := by
  induction fuel generalizing i l with
  | zero =>
    have hlen : l.length ≤ pool.mapTx.card := by
      rw [← toFinset_card_of_nodup hl]
      exact Finset.card_le_card fun x hx => hK (hsub x (mem_toFinset.1 hx))
    have hnone : l[i]? = none := getElem?_eq_none (by omega)
    obtain ⟨hc, hle⟩ := clustered_of_done hl (fun x hx => hK (hsub x hx)) hdone hi hnone
    exact ⟨l, by simp [gatherLoop, hnone], .inr ⟨hc, hle, fun _ => id⟩⟩
  | succ fuel ih =>
    rw [gatherLoop]
    cases hx : l[i]? with
    | none =>
      obtain ⟨hc, hle⟩ := clustered_of_done hl (fun x hx => hK (hsub x hx)) hdone hi hx
      exact ⟨l, rfl, .inr ⟨hc, hle, fun _ => id⟩⟩
    | some x =>
      simp only
      by_cases hmax : l.length > 500
      · refine ⟨[], if_pos hmax, .inl ⟨rfl, hmax.trans_le ?_⟩⟩
        rw [← toFinset_card_of_nodup hl]
        exact Finset.card_le_card fun x hx => hsub x (mem_toFinset.1 hx)
      rw [if_neg hmax]
      obtain ⟨hpre, hnodup, hmem⟩ := foldl_appendNew_spec
        (ascending (pool.entry x).parents.card (pool.entry x).parents ++
          ascending (pool.entry x).children.card (pool.entry x).children) hl
      simp only [mem_append, mem_ascending le_rfl, ← Finset.mem_union] at hmem
      generalize foldl _ l _ = l' at hpre hnodup hmem ⊢
      have hxl : x ∈ l := mem_of_getElem? hx
      have hil : i < l.length := (List.getElem?_eq_some_iff.1 hx).1
      have hsub' : ∀ y ∈ l', y ∈ K := by grind
      have hdone' : ∀ j < i + 1, ∀ y, l'[j]? = some y →
          ∀ z ∈ (pool.entry y).parents ∪ (pool.entry y).children, z ∈ l' := by
        intro j hj y hy z hz
        have hkept : l'[j]? = l[j]? := by
          obtain ⟨t, rfl⟩ := hpre
          exact getElem?_append_left (by omega)
        grind
      obtain ⟨r, heq, hr⟩ := ih hnodup hsub' hdone' (by omega) (by omega)
      exact ⟨r, heq, hr.imp_right fun hr =>
        ⟨hr.1, hr.2.1, fun y hy => hr.2.2 y (hpre.subset hy)⟩⟩

theorem Clustered.spends (h : Consistent pool) {cluster : List Nat} (hc : Clustered pool cluster)
    {p c : Nat} (hpc : pool.Spends p c) : p ∈ cluster ↔ c ∈ cluster := by
  constructor
  · intro hp
    have := (h.linked.children p hpc.1 c).2 hpc
    exact hc.closed p hp c (Finset.mem_union_right _ this)
  · intro hmem
    have := (h.linked.parents c hpc.2.1 p).2 hpc
    exact hc.closed c hmem p (Finset.mem_union_left _ this)

theorem Clustered.eqvGen (h : Consistent pool) {cluster : List Nat} (hc : Clustered pool cluster)
    {x y : Nat} (hxy : EqvGen pool.Spends x y) : x ∈ cluster ↔ y ∈ cluster := by
  induction hxy with
  | rel p c hpc => exact hc.spends h hpc
  | refl => exact Iff.rfl
  | symm _ _ _ ih => exact ih.symm
  | trans _ _ _ _ _ ih ih' => exact ih.trans ih'

open Classical in
/-- The transactions of the pool that are connected to those of the outpoints. -/
noncomputable def cluster (pool : CTxMemPool) (outpoints : List COutPoint) : Finset Nat :=
  pool.mapTx.filter fun y =>
    ∃ o ∈ outpoints, o.hash ∈ pool.mapTx ∧ EqvGen pool.Spends o.hash y

theorem mem_cluster {outpoints : List COutPoint} {y : Nat} : y ∈ pool.cluster outpoints ↔
    y ∈ pool.mapTx ∧ ∃ o ∈ outpoints, o.hash ∈ pool.mapTx ∧ EqvGen pool.Spends o.hash y := by
  classical
  exact Finset.mem_filter

/-- **`GatherClusters` gives up iff the cluster has more than 500 transactions.** -/
theorem Consistent.gatherClusters_spec (h : Consistent pool) {s : Finset Nat}
    {outpoints : List COutPoint}
    (hs : ∀ t, t ∈ s ↔ t ∈ pool.mapTx ∧ ∃ o ∈ outpoints, o.hash = t) :
    ∃ r, pool.gatherClusters (ascending s.card s) = some r ∧
      (r = [] ∧ 500 < (pool.cluster outpoints).card ∨
        Clustered pool r ∧ (pool.cluster outpoints).card ≤ 500 ∧ ∀ x ∈ s, x ∈ r) := by
  have hrel : ∀ x ∈ pool.cluster outpoints,
      (pool.entry x).parents ∪ (pool.entry x).children ⊆ pool.cluster outpoints := by
    intro x hx y hy
    obtain ⟨hx, o, ho, hin, hox⟩ := mem_cluster.1 hx
    rcases Finset.mem_union.1 hy with hy | hy
    · have hyx := (h.linked.parents x hx y).1 hy
      exact mem_cluster.2
        ⟨(h.within y x hyx).1, o, ho, hin, hox.trans _ _ _ (.symm _ _ (.rel _ _ hyx))⟩
    · have hxy := (h.linked.children x hx y).1 hy
      exact mem_cluster.2 ⟨(h.within x y hxy).2, o, ho, hin, hox.trans _ _ _ (.rel _ _ hxy)⟩
  have hstart : ∀ x ∈ ascending s.card s, x ∈ pool.cluster outpoints := by
    intro x hx
    obtain ⟨hx, o, ho, rfl⟩ := (hs x).1 ((mem_ascending le_rfl).1 hx)
    exact mem_cluster.2 ⟨hx, o, ho, hx, .refl _⟩
  obtain ⟨r, heq, hr⟩ := gatherLoop_spec (fun x hx => (mem_cluster.1 hx).1) hrel
    (nodup_ascending le_rfl) hstart (fun j hj => absurd hj (Nat.not_lt_zero j)) (Nat.zero_le _)
    (Nat.le_add_right pool.mapTx.card 0)
  refine ⟨r, heq, hr.imp_right fun ⟨hc, hlen, hin⟩ => ?_⟩
  have hin : ∀ x ∈ s, x ∈ r := fun x hx => hin x ((mem_ascending le_rfl).2 hx)
  refine ⟨hc, (Finset.card_le_card fun y hy => ?_).trans (r.toFinset_card_le.trans hlen), hin⟩
  obtain ⟨-, o, ho, hmem, hoy⟩ := mem_cluster.1 hy
  exact mem_toFinset.2 ((hc.eqvGen h hoy).1 (hin _ ((hs _).2 ⟨hmem, o, ho, rfl⟩)))

end CTxMemPool

namespace MiniMiner

open CTxMemPool

variable {pool : CTxMemPool} {m : MiniMiner} {outpoints : List COutPoint}

/-! ## The requests -/

/-- The outpoints of the requested transactions have no bump fee yet, the others have one of 0. -/
structure Accounts (outpoints : List COutPoint) (m : MiniMiner) : Prop where
  requested : ∀ t ∈ m.requestedTxids, ∃ o ∈ outpoints, o.hash = t
  ofTxid : ∀ t ∈ m.requestedTxids, ∀ o, o ∈ m.requestedOutpoints t ↔ o ∈ outpoints ∧ o.hash = t
  fees : ∀ o ∈ outpoints, m.bumpFees o = if o.hash ∈ m.requestedTxids then none else some 0

theorem settle_eq (t : Nat) (m : MiniMiner) : ∃ fees, m.settle t =
    { m with bumpFees := fees, requestedTxids := m.requestedTxids.erase t } := by
  rw [settle]
  split
  · exact ⟨_, rfl⟩
  next ht => exact ⟨m.bumpFees, by rw [Finset.erase_eq_of_notMem ht]⟩

theorem Accounts.settle (h : Accounts outpoints m) (t : Nat) : Accounts outpoints (m.settle t) := by
  rw [MiniMiner.settle]
  by_cases ht : t ∈ m.requestedTxids
  · rw [if_pos ht]
    refine ⟨fun u hu => h.requested u (Finset.mem_of_mem_erase hu),
      fun u hu => h.ofTxid u (Finset.mem_of_mem_erase hu), fun o ho => ?_⟩
    simp only [emplaceBumpFees, h.fees o ho, h.ofTxid t ht]
    grind
  · rwa [if_neg ht]

/-- What the outpoints that have been looked at leave. -/
structure Requests (pool : CTxMemPool) (done : List COutPoint) (m : MiniMiner) : Prop where
  fresh : m = {
    toBeReplaced := m.toBeReplaced, requestedTxids := m.requestedTxids
    requestedOutpoints := m.requestedOutpoints, bumpFees := m.bumpFees }
  replaced : m.toBeReplaced ⊆ pool.mapTx
  closed : ∀ p c, p ∈ m.toBeReplaced → pool.Spends p c → c ∈ m.toBeReplaced
  txids : ∀ t, t ∈ m.requestedTxids ↔ t ∈ pool.mapTx ∧ ∃ o ∈ done, o.hash = t
  ofTxid : ∀ t o, o ∈ m.requestedOutpoints t ↔ t ∈ pool.mapTx ∧ o ∈ done ∧ o.hash = t
  fees : ∀ o, m.bumpFees o = if o ∈ done ∧ o.hash ∉ pool.mapTx then some 0 else none

def withRequest (o : COutPoint) (m : MiniMiner) : MiniMiner :=
  { m with
    requestedTxids := insert o.hash m.requestedTxids
    requestedOutpoints := Function.update m.requestedOutpoints o.hash
      (m.requestedOutpoints o.hash ++ [o]) }

theorem Requests.withRequest {done : List COutPoint} (h : Requests pool done m) {o : COutPoint}
    (ho : o.hash ∈ pool.mapTx) : Requests pool (done ++ [o]) (m.withRequest o) where
  fresh := congrArg (MiniMiner.withRequest o) h.fresh
  replaced := h.replaced
  closed := h.closed
  txids := by
    intro t
    simp only [MiniMiner.withRequest, Finset.mem_insert, h.txids, mem_append, mem_singleton]
    grind
  ofTxid := by
    intro t o'
    simp only [MiniMiner.withRequest, mem_append, mem_singleton]
    by_cases ht : t = o.hash
    · subst ht
      rw [Function.update_self, mem_append, h.ofTxid, mem_singleton]
      grind
    · rw [Function.update_of_ne ht, h.ofTxid]
      grind
  fees := by
    intro o'
    simp only [MiniMiner.withRequest, h.fees, mem_append, mem_singleton]
    grind

theorem Requests.request (hpool : pool.Consistent) {done : List COutPoint}
    (h : Requests pool done m) (o : COutPoint) :
    ∃ m', request pool m o = some m' ∧ Requests pool (done ++ [o]) m' := by
  rw [MiniMiner.request]
  by_cases ho : o.hash ∈ pool.mapTx
  · have h' := h.withRequest ho
    rw [if_pos ho]
    cases hspender : pool.spender o with
    | none => exact ⟨m.withRequest o, rfl, h'⟩
    | some ptx =>
      have hptx := (hpool.ledger.spender_some hspender).1
      obtain ⟨r, hr, hmem⟩ := calculateDescendants_empty hpool.within hpool.linked.children hptx
      refine ⟨{ m.withRequest o with toBeReplaced := m.toBeReplaced ∪ r }, ?_, ?_⟩
      · simp only [if_pos hptx, hr, Option.map_some]
        rfl
      · refine ⟨congrArg (fun m' : MiniMiner => { m' with toBeReplaced := m.toBeReplaced ∪ r })
          h'.fresh, ?_, ?_, h'.txids, h'.ofTxid, h'.fees⟩
        · refine Finset.union_subset h.replaced fun y hy => ?_
          rcases ReflTransGen.cases_tail ((hmem y).1 hy) with rfl | ⟨z, -, hzy⟩
          · exact hptx
          · exact hzy.2.1
        · intro p c hp hpc
          rcases Finset.mem_union.1 hp with hp | hp
          · exact Finset.mem_union_left _ (h.closed p c hp hpc)
          · exact Finset.mem_union_right _ ((hmem c).2 (((hmem p).1 hp).tail hpc))
  · rw [if_neg ho]
    refine ⟨m.emplaceBumpFees [o] 0, rfl, congrArg (emplaceBumpFees [o] 0) h.fresh, h.replaced,
      h.closed, fun t => ?_, fun t o' => ?_, fun o' => ?_⟩
    · simp only [emplaceBumpFees, h.txids, mem_append, mem_singleton]
      grind
    · simp only [emplaceBumpFees, h.ofTxid, mem_append, mem_singleton]
      grind
    · simp only [emplaceBumpFees, h.fees, mem_append, mem_singleton]
      grind

theorem requests_spec (hpool : pool.Consistent) (outpoints : List COutPoint) :
    ∃ m, outpoints.foldlM (request pool) {} = some m ∧ Requests pool outpoints m := by
  suffices ∀ done m, Requests pool done m → ∃ m', outpoints.foldlM (request pool) m = some m' ∧
      Requests pool (done ++ outpoints) m' from
    this [] {} ⟨rfl, Finset.empty_subset _, by simp, by simp, by simp, by simp⟩
  induction outpoints with
  | nil => exact fun done m h => ⟨m, rfl, by rwa [append_nil]⟩
  | cons o outpoints ih =>
    intro done m h
    obtain ⟨m1, heq1, h1⟩ := h.request hpool o
    grind

theorem Requests.toAccounts (h : Requests pool outpoints m) : Accounts outpoints m where
  requested := fun t ht => ((h.txids t).1 ht).2
  ofTxid := by
    intro t ht o
    rw [h.ofTxid]
    exact and_iff_right ((h.txids t).1 ht).1
  fees := by
    intro o ho
    have hiff : o.hash ∈ m.requestedTxids ↔ o.hash ∈ pool.mapTx := by
      rw [h.txids]
      exact and_iff_left ⟨o, ho, rfl⟩
    rw [h.fees]
    grind

/-! ## The entries -/

/-- What adding the entries of a cluster leaves. -/
structure Added (pool : CTxMemPool) (l : List Nat) (m m' : MiniMiner) : Prop where
  rest : m' = { m with
    entries := m'.entries, entry := m'.entry, requestedTxids := m'.requestedTxids
    bumpFees := m'.bumpFees }
  entries : ∀ x, x ∈ m'.entries ↔ x ∈ m.entries ∨ x ∈ l ∧ x ∉ m.toBeReplaced
  entry : ∀ x ∈ l, x ∉ m.toBeReplaced → m'.entry x = .ofEntry (pool.entry x)
  kept : ∀ x ∉ l, m'.entry x = m.entry x
  requested : ∀ t, t ∈ m'.requestedTxids ↔
    t ∈ m.requestedTxids ∧ ¬ (t ∈ l ∧ t ∈ m.toBeReplaced)

theorem addEntry_spec (pool : CTxMemPool) (m : MiniMiner) (x : Nat) :
    Added pool [x] m (addEntry pool m x) := by
  rw [addEntry]
  split
  next hx =>
    obtain ⟨fees, hsettle⟩ := settle_eq x m
    rw [hsettle]
    refine ⟨rfl, fun y => ?_, ?_, fun y _ => rfl, fun t => ?_⟩
    · grind
    · simp [hx]
    · grind
  next hx =>
    refine ⟨rfl, fun y => ?_, ?_, fun y hy => ?_, fun t => ?_⟩
    · grind
    · simp
    · exact Function.update_of_ne (by simpa using hy) _ _
    · grind

theorem Accounts.addEntry (pool : CTxMemPool) (h : Accounts outpoints m) (x : Nat) :
    Accounts outpoints (addEntry pool m x) := by
  rw [MiniMiner.addEntry]
  split
  · exact h.settle x
  · exact { h with }

theorem addEntries_spec (pool : CTxMemPool) (l : List Nat) (h : Accounts outpoints m) :
    Added pool l m (l.foldl (addEntry pool) m) ∧
      Accounts outpoints (l.foldl (addEntry pool) m) := by
  induction l generalizing m with
  | nil => exact ⟨⟨rfl, by simp, by simp, by simp, by simp⟩, h⟩
  | cons x l ih =>
    have h1 := addEntry_spec pool m x
    obtain ⟨h2, hacc⟩ := ih (h.addEntry pool x)
    rw [foldl_cons]
    have hrep : (MiniMiner.addEntry pool m x).toBeReplaced = m.toBeReplaced := by rw [h1.rest]
    refine ⟨⟨h2.rest.trans (by rw [h1.rest]), fun y => ?_, fun y hy hyr => ?_, fun y hy => ?_,
      fun t => ?_⟩, hacc⟩
    · rw [h2.entries, h1.entries, hrep, mem_singleton, mem_cons]
      tauto
    · by_cases hyl : y ∈ l
      · exact h2.entry y hyl (by rwa [hrep])
      rw [h2.kept y hyl]
      obtain rfl : y = x := (mem_cons.1 hy).resolve_right hyl
      exact h1.entry y (mem_singleton.2 rfl) hyr
    · rw [mem_cons, not_or] at hy
      rw [h2.kept y hy.2, h1.kept y (by simpa using hy.1)]
    · rw [h2.requested, h1.requested, hrep, mem_singleton, mem_cons]
      tauto

theorem cacheDescendants_spec {D : Nat → Finset Nat} {l : List Nat}
    (hD : ∀ x ∈ l, pool.calculateDescendants x ∅ = some (D x)) :
    l.foldlM (cacheDescendants pool) m = some { m with
      descendantSet := fun x => if x ∈ l ∧ x ∉ m.toBeReplaced then some (D x \ m.toBeReplaced)
        else m.descendantSet x } := by
  induction l generalizing m with
  | nil => simp
  | cons x l ih =>
    rw [foldlM_cons, cacheDescendants, hD x mem_cons_self, Option.map_some, Option.bind_eq_bind,
      Option.bind_some, ih fun y hy => hD y (.tail _ hy)]
    by_cases hr : x ∈ m.toBeReplaced
    all_goals
      simp only [hr]
      refine congrArg (fun f => some { m with descendantSet := f }) (funext fun y => ?_)
      grind

/-! ## The constructor -/

/-- The entries are those of the pool, with all of their ancestors there. -/
structure Holds (pool : CTxMemPool) (m : MiniMiner) : Prop where
  subset : m.entries ⊆ pool.mapTx
  entry : ∀ x ∈ m.entries, m.entry x = .ofEntry (pool.entry x)
  up : ∀ p c, c ∈ m.entries → pool.Spends p c → p ∈ m.entries

namespace Holds

theorem spends (h : Holds pool m) (p c : Nat) :
    m.Spends p c ↔ pool.Spends p c ∧ p ∈ m.entries ∧ c ∈ m.entries := by
  rw [MiniMiner.Spends, mem_parents]
  constructor
  · rintro ⟨hmem, hp, i, hi, rfl⟩
    rw [h.entry c hmem] at hi
    exact ⟨⟨h.subset hp, h.subset hmem, i.prevout, mem_map_of_mem hi, rfl⟩, hp, hmem⟩
  · rintro ⟨⟨-, -, o, ho, rfl⟩, hp, hmem⟩
    obtain ⟨i, hi, rfl⟩ := mem_map.1 ho
    refine ⟨hmem, hp, i, ?_, rfl⟩
    rw [h.entry c hmem]
    exact hi

theorem reflTransGen (h : Holds pool m) {a x : Nat} (hx : x ∈ m.entries) :
    ReflTransGen m.Spends a x ↔ ReflTransGen pool.Spends a x :=
  reflTransGen_restrict h.spends h.up hx

theorem mem_ancestors (h : Holds pool m) {a x : Nat} (hx : x ∈ m.entries) :
    a ∈ m.ancestors x ↔ ReflTransGen pool.Spends a x := by
  rw [MiniMiner.mem_ancestors, h.reflTransGen hx, and_iff_right_iff_imp]
  exact fun hax => ReflTransGen.head_induction_on hax hx fun {p c} hpc _ hc => h.up p c hc hpc

end Holds

theorem sound_of_cluster (hpool : pool.Consistent) {cluster : List Nat} {rep : Finset Nat}
    (hc : Clustered pool cluster) (hrep : ∀ p c, p ∈ rep → pool.Spends p c → c ∈ rep)
    (hentries : ∀ x, x ∈ m.entries ↔ x ∈ cluster ∧ x ∉ rep)
    (hentry : ∀ x ∈ m.entries, m.entry x = .ofEntry (pool.entry x))
    (hdesc : ∀ x ∈ m.entries, ∃ s, m.descendantSet x = some (s \ rep) ∧
      ∀ d, d ∈ s ↔ ReflTransGen pool.Spends x d) : Holds pool m ∧ Sound m := by
  classical
  have hm : Holds pool m := by
    refine ⟨fun x hx => hc.subset x ((hentries x).1 hx).1, hentry, fun p c hmem hpc => ?_⟩
    obtain ⟨hcl, hcr⟩ := (hentries c).1 hmem
    exact (hentries p).2 ⟨(hc.spends hpool hpc).2 hcl, fun hp => hcr (hrep p c hp hpc)⟩
  refine ⟨hm, fun x hx => ?_, fun x hx => ?_⟩
  · have hancestors : m.ancestors x = insert x
        (pool.mapTx.filter fun a => TransGen pool.Spends a x) := by
      ext a
      rw [hm.mem_ancestors hx, Finset.mem_insert, Finset.mem_filter,
        reflTransGen_iff_eq_or_transGen, eq_comm]
      refine or_congr_right (and_iff_right_of_imp fun hax => ?_).symm
      exact hm.subset ((MiniMiner.mem_ancestors.1 ((hm.mem_ancestors hx).2 hax.to_reflTransGen)).1)
    have hown : ∀ a ∈ m.ancestors x,
        (m.entry a).own = ((pool.entry a).weight.2.1, (pool.entry a).weight.2.2.1) := by
      intro a ha
      rw [hentry a (mem_ancestors.1 ha).1]
      rfl
    have hnot : x ∉ pool.mapTx.filter fun a => TransGen pool.Spends a x := fun h =>
      hpool.acyclic x (Finset.mem_filter.1 h).2
    have htot := hpool.linked.ancestors x (hm.subset hx)
    rw [Finset.sum_congr rfl hown, hancestors, Finset.sum_insert hnot, hentry x hx]
    refine Prod.ext ?_ ?_
    · refine (congrArg (fun w => w.2.1) htot).trans ?_
      simp [Prod.snd_sum, Prod.fst_sum]
    · refine (congrArg (fun w => w.2.2.1) htot).trans ?_
      simp [Prod.snd_sum, Prod.fst_sum]
  · obtain ⟨s, hset, hs⟩ := hdesc x hx
    refine ⟨_, hset, fun d => ?_⟩
    rw [Finset.mem_sdiff, hs]
    constructor
    · rintro ⟨hxd, hd⟩
      have hcl : d ∈ cluster := by
        induction hxd with
        | refl => exact ((hentries x).1 hx).1
        | tail hxc hcd ih => exact (hc.spends hpool hcd).1 (ih fun h => hd (hrep _ _ h hcd))
      have hmem := (hentries d).2 ⟨hcl, hd⟩
      exact ⟨hmem, (hm.reflTransGen hmem).2 hxd⟩
    · rintro ⟨hd, hxd⟩
      exact ⟨(hm.reflTransGen hd).1 hxd, ((hentries d).1 hd).2⟩

/-- What a miner that is ready starts with. -/
structure Made (pool : CTxMemPool) (outpoints : List COutPoint) (m : MiniMiner) : Prop where
  holds : Holds pool m
  sound : Sound m
  tidy : ∀ rate, Tidy rate m
  accounts : Accounts outpoints m
  subset : m.requestedTxids ⊆ m.entries
  requested : ∀ o ∈ outpoints, o.hash ∈ pool.mapTx → o.hash ∉ m.toBeReplaced →
    o.hash ∈ m.requestedTxids
  inBlock : m.inBlock = ∅

theorem Requests.tidy {m0 : MiniMiner} (h : Requests pool outpoints m0) (rate : Int)
    (hrest : m = { m0 with
      entries := m.entries, entry := m.entry, requestedTxids := m.requestedTxids
      bumpFees := m.bumpFees, descendantSet := m.descendantSet })
    (hcached : ∀ x, (m.descendantSet x).isSome ↔ x ∈ m.entries)
    (hreplaced : Disjoint m0.toBeReplaced m.entries) : Tidy rate m ∧ m.inBlock = ∅ := by
  rw [h.fresh] at hrest
  refine ⟨⟨hcached, ?_, ?_, ?_, ?_, ?_⟩, ?_⟩
  all_goals rw [hrest]
  · exact hreplaced
  all_goals simp

/-- **The constructor succeeds**; the miner is ready iff the cluster is within the limit, and then it
is sound and knows what is requested. -/
theorem make_spec (hpool : pool.Consistent) (outpoints : List COutPoint) :
    ∃ m, make pool outpoints = some m ∧
      (m.readyToCalculate ↔ (pool.cluster outpoints).card ≤ 500) ∧
      (m.readyToCalculate → Made pool outpoints m) := by
  obtain ⟨m0, hm0, hreq⟩ := requests_spec hpool outpoints
  have hempty : m0.entries = ∅ := by rw [hreq.fresh]
  have huncached x : m0.descendantSet x = none := by rw [hreq.fresh]
  have hready : m0.readyToCalculate := by rw [hreq.fresh]
  have hasked : ∀ o ∈ outpoints, o.hash ∈ pool.mapTx → o.hash ∈ m0.requestedTxids :=
    fun o ho hmem => (hreq.txids _).2 ⟨hmem, o, ho, rfl⟩
  rw [make, hm0]
  simp only [Option.bind_eq_bind, Option.bind_some]
  by_cases hnone : m0.requestedTxids = ∅
  · have htidy rate := hreq.tidy (m := m0) rate rfl (by simp [hempty, huncached])
      (by simp [hempty])
    have hcluster : pool.cluster outpoints = ∅ := by
      refine Finset.eq_empty_of_forall_notMem fun y hy => ?_
      obtain ⟨-, o, ho, hmem, -⟩ := mem_cluster.1 hy
      exact Finset.notMem_empty _ (hnone ▸ hasked o ho hmem)
    refine ⟨m0, by rw [if_pos hnone]; rfl, iff_of_true hready (by simp [hcluster]),
      fun _ => ⟨⟨?_, ?_, ?_⟩, ⟨?_, ?_⟩, fun rate => (htidy rate).1, hreq.toAccounts, ?_,
        fun o ho hmem _ => hasked o ho hmem, (htidy 0).2⟩⟩
    all_goals simp [hempty, hnone]
  rw [if_neg hnone]
  obtain ⟨cluster, hcluster, ⟨rfl, hmax⟩ | ⟨hc, hmax, hneeded⟩⟩ :=
    hpool.gatherClusters_spec hreq.txids
  · rw [hcluster]
    exact ⟨_, rfl, iff_of_false (by simp) hmax.not_ge, fun h => absurd h (by simp)⟩
  obtain ⟨t, ht⟩ := Finset.nonempty_iff_ne_empty.2 hnone
  rw [hcluster]
  simp only [Option.bind_some]
  rw [if_neg (List.isEmpty_iff.not.2 (ne_nil_of_mem (hneeded t ht)))]
  obtain ⟨hadded, hacc⟩ := addEntries_spec pool cluster hreq.toAccounts
  generalize cluster.foldl (addEntry pool) m0 = m1 at hadded hacc
  have hrep : m1.toBeReplaced = m0.toBeReplaced := by rw [hadded.rest]
  have hdesc x (hx : x ∈ cluster) :=
    calculateDescendants_empty hpool.within hpool.linked.children (hc.subset x hx)
  choose! D hD hmem using hdesc
  have hentries x : x ∈ m1.entries ↔ x ∈ cluster ∧ x ∉ m0.toBeReplaced := by
    simp [hadded.entries, hempty]
  obtain ⟨sets, hsets⟩ : ∃ sets : Nat → Option (Finset Nat), sets = fun x =>
      if x ∈ cluster ∧ x ∉ m1.toBeReplaced then some (D x \ m1.toBeReplaced)
      else m1.descendantSet x := ⟨_, rfl⟩
  have hset x : sets x = if x ∈ m1.entries then some (D x \ m0.toBeReplaced) else none := by
    have hnone : m1.descendantSet x = none := by
      rw [hadded.rest]
      exact huncached x
    simp only [hsets, hrep, hentries, hnone]
  refine ⟨{ m1 with descendantSet := sets }, by rw [cacheDescendants_spec hD, hsets],
    iff_of_true (by rw [hadded.rest]; exact hready) hmax, fun _ => ?_⟩
  have hsound := sound_of_cluster (m := { m1 with descendantSet := sets }) hpool hc hreq.closed hentries
    (fun x hx => hadded.entry x ((hentries x).1 hx).1 ((hentries x).1 hx).2) fun x hx =>
    ⟨D x, (hset x).trans (if_pos hx), hmem x ((hentries x).1 hx).1⟩
  have htidy rate := hreq.tidy (m := { m1 with descendantSet := sets }) rate
    (by rw [hadded.rest]) (fun x => by by_cases hx : x ∈ m1.entries <;> simp [hset])
    (Finset.disjoint_left.2 fun x hx hmem => ((hentries x).1 hmem).2 hx)
  refine ⟨hsound.1, hsound.2, fun rate => (htidy rate).1, { hacc with },
    fun t ht => ?_, fun o ho hin hkept => ?_, (htidy 0).2⟩
  · obtain ⟨ht, hkept⟩ := (hadded.requested t).1 ht
    grind
  · exact (hadded.requested _).2 ⟨hasked o ho hin, fun h => hkept (hrep ▸ h.2)⟩

end MiniMiner

end BitcoinPurity
