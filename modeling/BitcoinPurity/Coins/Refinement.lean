import BitcoinPurity.Coins.Cache

/-!
# The coins cache refines a map

What a stack of caches is for: the top layer behaves like one map from outpoints to unspent
coins.  `CoinsView.visible` is that map, `EntryInv` says what the flags of an entry promise about
the view below it (a fresh coin is unknown there, a clean one is the same there), and
`Consistent` asks this of every layer.

Each operation keeps `Consistent` and does to `visible` what its abstract counterpart does to a
map (`CoinsOp.run_refines`).  `coinsCache_refines` is the result over every sequence of operations.
-/

namespace BitcoinPurity

open List CoinsView CCoinsViewCache CCoinsCacheEntry Function
open CoinsStack (fetchCoin flush haveAll onTop sync view)

/-! ## The abstract map -/

/-- The calls made on the top layer. -/
inductive CoinsOp
  | getCoin (o : COutPoint)
  | haveCoin (o : COutPoint)
  | accessCoin (o : COutPoint)
  | haveInputs (tx : CTransaction)
  | addCoin (o : COutPoint) (coin : Coin) (possibleOverwrite : Bool)
  | spendCoin (o : COutPoint)
  | setBestBlock (hashBlock : Nat)
  | uncache (o : COutPoint)
  | sync
  | flush

/-- What a call returns: the unspent coin it found, a truth value, or nothing. -/
inductive CoinsOutput
  | coin (coin : Option Coin)
  | bool (b : Bool)
  | unit
  deriving DecidableEq, Repr

/-- The effect of a call on one plain map; unspendable outputs are ignored. -/
def CoinsOp.apply (m : CoinsMap) : CoinsOp → CoinsMap
  | .addCoin o coin _ =>
    if isUnspendable coin.out.scriptPubKey then m else update m o (some coin)
  | .spendCoin o => update m o none
  | _ => m

def CoinsOp.answer (m : CoinsMap) : CoinsOp → CoinsOutput
  | .getCoin o => .coin (m o)
  | .haveCoin o => .bool (m o).isSome
  | .accessCoin o => .coin (m o)
  | .haveInputs tx => .bool (tx.isCoinBase || tx.vin.all fun txin => (m txin.prevout).isSome)
  | .spendCoin o => .coin (m o)
  | _ => .unit

/-- The precondition of `AddCoin`: the coin is not spent, and `possible_overwrite` is false only
where no unspent coin exists. -/
def CoinsOp.Admissible (m : CoinsMap) : CoinsOp → Prop
  | .addCoin o coin possibleOverwrite =>
    coin.isSpent = false ∧ (possibleOverwrite = false → m o = none)
  | _ => True

def CoinsOp.run (s : CoinsStack) : CoinsOp → Except CoinsError (CoinsOutput × CoinsStack)
  | .getCoin o => .ok (.coin (s.getCoin o).1, (s.getCoin o).2)
  | .haveCoin o => .ok (.bool (s.haveCoin o).1, (s.haveCoin o).2)
  | .accessCoin o =>
    let r := s.accessCoin o
    .ok (.coin r.1.unspent, r.2)
  | .haveInputs tx => .ok (.bool (s.haveInputs tx).1, (s.haveInputs tx).2)
  | .addCoin o coin possibleOverwrite => do
    let top ← s.top.addCoin o coin possibleOverwrite
    .ok (.unit, { s with top })
  | .spendCoin o =>
    let r := s.spendCoin o
    .ok (.coin (r.1.bind Coin.unspent), r.2)
  | .setBestBlock hashBlock => .ok (.unit, { s with top := { s.top with hashBlock } })
  | .uncache o => .ok (.unit, { s with top := s.top.uncache o })
  | .sync => do
    let s ← s.sync
    .ok (.unit, s)
  | .flush => do
    let s ← s.flush
    .ok (.unit, s)

/-! ## Invariants -/

def CoinsView.visible : CoinsView → CoinsMap
  | .base coins _, o => coins o
  | .cache c below, o =>
    match c.cacheCoins o with
    | some e => e.unspent
    | none => below.visible o

/-- What an entry promises about the coin of the view below. -/
structure EntryInv (e : CCoinsCacheEntry) (parent : Option Coin) : Prop where
  fresh : e.fresh → parent = none
  clean : e.dirty = false → e.coin.isSpent = false ∧ parent = some e.coin
  spent : e.coin.isSpent → e.fresh = false

structure CacheInv (c : CCoinsViewCache) (parent : CoinsMap) : Prop where
  entry : ∀ o e, c.cacheCoins o = some e → EntryInv e (parent o)
  nodup : c.flagged.Nodup
  flagged : ∀ o, o ∈ c.flagged ↔ ∃ e, c.cacheCoins o = some e ∧ e.isFlagged

/-- Every layer keeps its promises, and the base has no spent coin. -/
def Consistent : CoinsView → Prop
  | .base coins _ => ∀ o coin, coins o = some coin → coin.isSpent = false
  | .cache c below => Consistent below ∧ CacheInv c below.visible

/-! ## Lemmas -/

variable {e : CCoinsCacheEntry} {coin : Coin} {below v : CoinsView} {c : CCoinsViewCache}
  {o : COutPoint} {s : CoinsStack} {entries : List (COutPoint × CCoinsCacheEntry)}

theorem CCoinsCacheEntry.unspent_of_not_spent (h : e.coin.isSpent = false) :
    e.unspent = some e.coin := by
  simp [unspent, Coin.unspent, h]

theorem CCoinsCacheEntry.unspent_of_spent (h : e.coin.isSpent) : e.unspent = none := by
  simp [unspent, Coin.unspent, h]

theorem CCoinsCacheEntry.unspent_not_spent (h : e.unspent = some coin) : coin.isSpent = false := by
  unfold unspent Coin.unspent at h
  split at h
  · cases h
  next hs =>
    cases h
    simpa using hs

section

variable (c : CCoinsViewCache) (below : CoinsView) (o : COutPoint)

theorem visible_put (e : CCoinsCacheEntry) : (cache (c.put o e) below).visible =
      update (cache c below).visible o e.unspent := by
  funext o'
  by_cases h : o' = o
  · subst h
    simp [visible]
  · simp [visible, update_of_ne h]

theorem visible_erase : (cache (c.erase o) below).visible =
      update (cache c below).visible o (below.visible o) := by
  funext o'
  by_cases h : o' = o
  · subst h
    simp [visible]
  · simp [visible, update_of_ne h]

end

namespace CacheInv

variable {c : CCoinsViewCache} {parent : CoinsMap}

theorem empty (hashBlock : Nat) : CacheInv { hashBlock } parent where
  entry o e h := by cases h
  nodup := nodup_nil
  flagged o := by simp

theorem put (h : CacheInv c parent) {o : COutPoint} {e : CCoinsCacheEntry}
    (he : EntryInv e (parent o)) : CacheInv (c.put o e) parent where
  entry o' e' h' := by
    by_cases heq : o' = o
    · subst heq
      simp only [put_cacheCoins, update_self, Option.some.injEq] at h'
      exact h' ▸ he
    · rw [put_cacheCoins, update_of_ne heq] at h'
      exact h.entry o' e' h'
  nodup := put_nodup h.nodup o e
  flagged o' := by
    rw [mem_put_flagged h.nodup]
    by_cases heq : o' = o
    · subst heq
      simp
    · rw [if_neg heq, put_cacheCoins, update_of_ne heq]
      exact h.flagged o'

theorem erase (h : CacheInv c parent) (o : COutPoint) : CacheInv (c.erase o) parent where
  entry o' e' h' := by
    by_cases heq : o' = o
    · subst heq
      simp at h'
    · rw [erase_cacheCoins, update_of_ne heq] at h'
      exact h.entry o' e' h'
  nodup := h.nodup.erase o
  flagged o' := by
    rw [erase_flagged, h.nodup.mem_erase_iff]
    by_cases heq : o' = o
    · subst heq
      simp
    · simpa [heq] using h.flagged o'

theorem setHash (h : CacheInv c parent) (hashBlock : Nat) : CacheInv { c with hashBlock } parent :=
  { h with }

end CacheInv

theorem Consistent.visible_not_spent (h : Consistent v) (hv : v.visible o = some coin) :
    coin.isSpent = false := by
  induction v with
  | base coins hashBlock => exact h o coin hv
  | cache c below ih =>
    simp only [visible] at hv
    split at hv
    next e he => exact e.unspent_not_spent hv
    · exact ih h.1 hv

/-! ## Reading -/

theorem fill_spec {below' : CoinsView} (hb : Consistent below')
    (hv : below'.visible = below.visible) (hc : CacheInv c below.visible)
    (hnone : c.cacheCoins o = none) :
    Consistent (.cache (c.fill o (below.visible o)) below') ∧
      (cache (c.fill o (below.visible o)) below').visible = (cache c below).visible ∧
      ((c.fill o (below.visible o)).cacheCoins o).bind (·.unspent) = below.visible o := by
  rw [← hv] at hc ⊢
  have hsame : (cache c below).visible = (cache c below').visible := by
    simp [visible, hv]
  rw [hsame]
  cases hvis : below'.visible o with
  | none => exact ⟨⟨hb, hc⟩, rfl, by simp [fill, hnone]⟩
  | some coin =>
    have hs := hb.visible_not_spent hvis
    have hfilled : EntryInv { coin, fresh := coin.isSpent } (some coin) := by
      refine ⟨?_, fun _ => ⟨hs, rfl⟩, ?_⟩ <;> simp [hs]
    refine ⟨⟨hb, hc.put (hvis ▸ hfilled)⟩, ?_, ?_⟩
    · simp only [fill]
      rw [visible_put, unspent_of_not_spent hs]
      simp [visible, hnone, hvis]
    · simp [fill, unspent, Coin.unspent, hs]

/-- **`GetCoin` reads the visible map** and changes nothing that can be seen. -/
theorem getCoin_spec (h : Consistent v) (o : COutPoint) :
    (v.getCoin o).1 = v.visible o ∧ (v.getCoin o).2.visible = v.visible ∧
      Consistent (v.getCoin o).2 := by
  induction v with
  | base coins hashBlock => exact ⟨rfl, rfl, h⟩
  | cache c below ih =>
    obtain ⟨hb, hc⟩ := h
    obtain ⟨h1, h2, h3⟩ := ih hb
    cases hco : c.cacheCoins o with
    | some e => exact ⟨by simp [getCoin, visible, hco],
        by simp [getCoin, hco], by simpa [getCoin, hco] using ⟨hb, hc⟩⟩
    | none =>
      obtain ⟨f1, f2, f3⟩ := fill_spec h3 h2 hc hco
      simp only [getCoin, hco, h1]
      refine ⟨?_, f2, f1⟩
      rw [f3]
      simp [visible, hco]

theorem fetchCoin_spec (h : Consistent s.view) (o : COutPoint) :
    Consistent (s.fetchCoin o).view ∧ (s.fetchCoin o).view.visible = s.view.visible ∧
      ((s.fetchCoin o).top.cacheCoins o).bind (·.unspent) = s.view.visible o := by
  obtain ⟨hb, hc⟩ := h
  obtain ⟨h1, h2, h3⟩ := getCoin_spec hb o
  cases hco : s.top.cacheCoins o with
  | some e =>
    have he : s.fetchCoin o = s := by simp [fetchCoin, hco]
    rw [he]
    exact ⟨⟨hb, hc⟩, rfl, by simp [view, visible, hco]⟩
  | none =>
    obtain ⟨f1, f2, f3⟩ := fill_spec h3 h2 hc hco
    have he : s.fetchCoin o =
        { top := s.top.fill o (s.base.visible o), base := (s.base.getCoin o).2 } := by
      simp [fetchCoin, hco, h1]
    rw [he]
    refine ⟨f1, f2, ?_⟩
    rw [f3]
    simp [view, visible, hco]

theorem accessed_unspent (e : Option CCoinsCacheEntry) :
    Coin.unspent ((e.map (·.coin)).getD .empty) = e.bind (·.unspent) := by
  cases e with
  | none => rfl
  | some e => rfl

theorem haveAll_spec (h : Consistent s.view) (os : List COutPoint) :
    (s.haveAll os).1 = os.all (fun o => (s.view.visible o).isSome) ∧
      Consistent (s.haveAll os).2.view ∧ (s.haveAll os).2.view.visible = s.view.visible := by
  induction os generalizing s with
  | nil => exact ⟨rfl, h, rfl⟩
  | cons o os ih =>
    obtain ⟨f1, f2, f3⟩ := fetchCoin_spec h o
    have hhave : s.haveCoin o = ((s.view.visible o).isSome, s.fetchCoin o) := by
      simp [CoinsStack.haveCoin, f3]
    simp only [haveAll, hhave]
    by_cases hv : (s.view.visible o).isSome
    · obtain ⟨i1, i2, i3⟩ := ih f1
      rw [f2] at i1 i3
      simp only [hv, all_cons]
      exact ⟨i1, i2, i3⟩
    · simp only [hv, all_cons]
      exact ⟨rfl, f1, f2⟩

/-! ## Writing -/

theorem addCoin_spec (h : Consistent s.view) {possibleOverwrite : Bool} (hs : coin.isSpent = false)
    (hnew : possibleOverwrite = false → s.view.visible o = none) :
    ∃ top, s.top.addCoin o coin possibleOverwrite = .ok top ∧ Consistent (.cache top s.base) ∧
      (cache top s.base).visible =
        CoinsOp.apply s.view.visible (.addCoin o coin possibleOverwrite) := by
  obtain ⟨hb, hc⟩ := h
  unfold addCoin
  by_cases hun : isUnspendable coin.out.scriptPubKey
  · exact ⟨s.top, by simp [hs, hun], ⟨hb, hc⟩, by simp [CoinsOp.apply, hun, view]⟩
  -- what is known of the entry that is overwritten
  set e := (s.top.cacheCoins o).getD { coin := .empty } with he
  have hspent : possibleOverwrite = false → e.coin.isSpent := by
    intro hp
    have hv := hnew hp
    simp only [view, visible] at hv
    cases hco : s.top.cacheCoins o with
    | none => simp [he, hco]
    | some e' =>
      rw [hco] at hv
      by_contra hns
      have hns' : e'.coin.isSpent = false := by simpa [he, hco] using hns
      simp [unspent_of_not_spent hns'] at hv
  have hfresh : (e.fresh || !possibleOverwrite && !e.dirty) → s.base.visible o = none := by
    intro hf
    rw [Bool.or_eq_true, Bool.and_eq_true] at hf
    cases hco : s.top.cacheCoins o with
    | none =>
      rcases hf with hf | ⟨hp, -⟩
      · simp [he, hco] at hf
      · have hv := hnew (by simpa using hp)
        simpa [view, visible, hco] using hv
    | some e' =>
      have hinv := hc.entry o e' hco
      have hee : e = e' := by simp [he, hco]
      rw [hee] at hf hspent
      rcases hf with hf | ⟨hp, hd⟩
      · exact hinv.fresh hf
      have hsp := hspent (by simpa using hp)
      have hcl := (hinv.clean (by simpa using hd)).1
      simp [hsp] at hcl
  refine ⟨s.top.put o { coin, dirty := true, fresh := e.fresh || !possibleOverwrite && !e.dirty },
    ?_, ⟨hb, hc.put ⟨hfresh, ?_, ?_⟩⟩, ?_⟩
  · cases possibleOverwrite with
    | true => simp [hs, hun]
    | false => simp [hs, hun, hspent rfl]
  · intro hd
    cases hd
  · intro hsp
    simp [hs] at hsp
  · rw [visible_put, unspent_of_not_spent hs]
    simp [CoinsOp.apply, hun, view]

theorem spendCoin_spec (h : Consistent s.view) (o : COutPoint) :
    (s.spendCoin o).1.bind Coin.unspent = s.view.visible o ∧ Consistent (s.spendCoin o).2.view ∧
      (s.spendCoin o).2.view.visible = update s.view.visible o none := by
  obtain ⟨f1, f2, f3⟩ := fetchCoin_spec h o
  rw [← f2] at f3 ⊢
  unfold CoinsStack.spendCoin
  cases hco : (s.fetchCoin o).top.cacheCoins o with
  | none =>
    rw [hco] at f3
    simp only [hco]
    refine ⟨f3, f1, ?_⟩
    rw [eq_comm, update_eq_self_iff]
    exact f3
  | some e =>
    rw [hco] at f3
    simp only [hco]
    have hinv := f1.2.entry o e hco
    refine ⟨f3, ?_⟩
    split
    next hf =>
      refine ⟨⟨f1.1, f1.2.erase o⟩, ?_⟩
      simp only [view]
      rw [visible_erase, hinv.fresh hf]
    next hf =>
    refine ⟨⟨f1.1, f1.2.put ⟨?_, ?_, ?_⟩⟩, ?_⟩
    · intro hf'
      exact absurd hf' hf
    · intro hd
      cases hd
    · simpa using hf
    · simp only [view]
      rw [visible_put, unspent_of_spent Coin.isSpent_empty]

theorem uncache_spec (h : Consistent (.cache c below)) (o : COutPoint) :
    Consistent (.cache (c.uncache o) below) ∧
      (cache (c.uncache o) below).visible = (cache c below).visible := by
  unfold uncache
  cases hco : c.cacheCoins o with
  | none => exact ⟨h, rfl⟩
  | some e =>
    simp only
    split
    · exact ⟨h, rfl⟩
    next hflags =>
      -- a clean entry is the same below
      have hd : e.dirty = false := by
        simp only [Bool.or_eq_true, not_or, Bool.not_eq_true] at hflags
        exact hflags.1
      obtain ⟨hns, hp⟩ := (h.2.entry o e hco).clean hd
      refine ⟨⟨h.1, h.2.erase o⟩, ?_⟩
      rw [visible_erase]
      simp [visible, hco, hp, unspent_of_not_spent hns]

/-! ## Merging a layer into the one below -/

variable {us : CCoinsViewCache}

/-- **One entry of a child** is merged: whatever flags the parent has for the coin, the parent
then shows the child's coin and still keeps its own promises. -/
theorem batchWriteEntry_spec (hus : CacheInv us below.visible)
    {it : CCoinsCacheEntry} (hit : EntryInv it ((cache us below).visible o)) :
    ∃ us', us.batchWriteEntry o it = .ok us' ∧ CacheInv us' below.visible ∧
      (cache us' below).visible = update (cache us below).visible o it.unspent := by
  unfold batchWriteEntry
  by_cases hd : it.dirty
  swap
  · -- not dirty: the parent shows the same coin already
    obtain ⟨hns, hp⟩ := hit.clean (by simpa using hd)
    refine ⟨us, by simp [hd], hus, ?_⟩
    rw [eq_comm, update_eq_self_iff, hp, unspent_of_not_spent hns]
  cases hco : us.cacheCoins o with
  | none =>
    have hvis : (cache us below).visible o = below.visible o := by
      simp [visible, hco]
    have hnot : (it.fresh && it.coin.isSpent) = false := by
      cases hs : it.coin.isSpent with
      | false => simp
      | true => simp [hit.spent hs]
    refine ⟨us.put o { coin := it.coin, dirty := true, fresh := it.fresh }, by simp [hd, hnot],
      hus.put ⟨?_, ?_, hit.spent⟩, visible_put _ _ _ _⟩
    · intro hf
      rw [← hvis]
      exact hit.fresh hf
    · intro h
      cases h
  | some itUs =>
    have hvis : (cache us below).visible o = itUs.unspent := by
      simp [visible, hco]
    have hinv := hus.entry o itUs hco
    -- a fresh coin of the child is not unspent here, so the flag was not misapplied
    have hok : (it.fresh && !itUs.coin.isSpent) = false := by
      cases hf : it.fresh with
      | false => simp
      | true =>
        have hnone := hit.fresh hf
        rw [hvis] at hnone
        cases hs : itUs.coin.isSpent with
        | true => simp
        | false => simp [unspent_of_not_spent hs] at hnone
    by_cases her : (itUs.fresh && it.coin.isSpent)
    · rw [Bool.and_eq_true] at her
      refine ⟨us.erase o, by simp [hd, hok, her], hus.erase o, ?_⟩
      rw [visible_erase, hinv.fresh her.1, unspent_of_spent her.2]
    refine ⟨us.put o { itUs with coin := it.coin, dirty := true }, by simp [hd, hok, her],
      hus.put ⟨hinv.fresh, ?_, ?_⟩, visible_put _ _ _ _⟩
    · intro h
      cases h
    · intro hs
      have hs' : it.coin.isSpent := hs
      simpa [hs'] using her

/-- What a list of entries with distinct outpoints does to a map. -/
def writeAll (m : CoinsMap) (entries : List (COutPoint × CCoinsCacheEntry)) : CoinsMap :=
  entries.foldl (fun m it => update m it.1 it.2.unspent) m

theorem writeAll_of_not_mem (h : o ∉ entries.map (·.1)) (m : CoinsMap) :
    writeAll m entries o = m o := by
  induction entries generalizing m with
  | nil => rfl
  | cons it entries ih =>
    simp only [map_cons, mem_cons, not_or] at h
    show writeAll (update m it.1 it.2.unspent) entries o = m o
    rw [ih h.2, update_of_ne h.1]

theorem writeAll_of_mem (hn : (entries.map (·.1)).Nodup) (h : (o, e) ∈ entries) (m : CoinsMap) :
    writeAll m entries o = e.unspent := by
  induction entries generalizing m with
  | nil => cases h
  | cons it entries ih =>
    rw [map_cons, nodup_cons] at hn
    show writeAll (update m it.1 it.2.unspent) entries o = e.unspent
    rcases mem_cons.1 h with rfl | h
    · rw [writeAll_of_not_mem hn.1, update_self]
    · exact ih hn.2 h _

theorem promises_tail {it : COutPoint × CCoinsCacheEntry} (hn : ((it :: entries).map (·.1)).Nodup)
    {m : CoinsMap} (h : ∀ x ∈ it :: entries, EntryInv x.2 (m x.1)) (coin : Option Coin) :
    ∀ x ∈ entries, EntryInv x.2 (update m it.1 coin x.1) := by
  intro x hx
  rw [map_cons, nodup_cons] at hn
  have hne : x.1 ≠ it.1 := by
    intro heq
    exact hn.1 (heq ▸ mem_map_of_mem hx)
  rw [update_of_ne hne]
  exact h x (mem_cons_of_mem _ hx)

theorem foldlM_batchWriteEntry_spec (entries : List (COutPoint × CCoinsCacheEntry))
    (hn : (entries.map (·.1)).Nodup) (hus : CacheInv us below.visible)
    (h : ∀ x ∈ entries, EntryInv x.2 ((cache us below).visible x.1)) :
    ∃ us', entries.foldlM (fun c it => c.batchWriteEntry it.1 it.2) us = .ok us' ∧
      CacheInv us' below.visible ∧
      (cache us' below).visible = writeAll (cache us below).visible entries := by
  induction entries generalizing us with
  | nil => exact ⟨us, rfl, hus, rfl⟩
  | cons it entries ih =>
    obtain ⟨us1, h1, h2, h3⟩ := batchWriteEntry_spec hus (h it (by simp))
    have hrest := promises_tail hn h it.2.unspent
    rw [← h3] at hrest
    rw [map_cons, nodup_cons] at hn
    obtain ⟨us', h4, h5, h6⟩ := ih hn.2 h2 hrest
    refine ⟨us', ?_, h5, ?_⟩
    · simp only [foldlM_cons, h1]
      exact h4
    · rw [h6, h3]
      rfl

theorem foldl_base_eq (entries : List (COutPoint × CCoinsCacheEntry))
    (hn : (entries.map (·.1)).Nodup) (m : CoinsMap) (h : ∀ x ∈ entries, EntryInv x.2 (m x.1)) :
    entries.foldl (fun coins it =>
      if it.2.dirty then update coins it.1 it.2.unspent else coins) m = writeAll m entries := by
  induction entries generalizing m with
  | nil => rfl
  | cons it entries ih =>
    have hrest := promises_tail hn h it.2.unspent
    have hstep : (if it.2.dirty then update m it.1 it.2.unspent else m) =
        update m it.1 it.2.unspent := by
      split
      · rfl
      next hd =>
        obtain ⟨hns, hp⟩ := (h it (by simp)).clean (by simpa using hd)
        rw [eq_comm, update_eq_self_iff, hp, unspent_of_not_spent hns]
    rw [map_cons, nodup_cons] at hn
    simp only [foldl_cons, hstep]
    exact ih hn.2 _ hrest

/-- **`BatchWrite`** of entries that keep their promises to the view below. -/
theorem batchWrite_spec (hv : Consistent v) (hn : (entries.map (·.1)).Nodup)
    (h : ∀ x ∈ entries, EntryInv x.2 (v.visible x.1)) (hashBlock : Nat) :
    ∃ v', v.batchWrite entries hashBlock = .ok v' ∧ Consistent v' ∧
      v'.visible = writeAll v.visible entries := by
  cases v with
  | base coins hb =>
    refine ⟨_, rfl, ?_, foldl_base_eq entries hn coins h⟩
    intro o coin hco
    rw [foldl_base_eq entries hn coins h] at hco
    by_cases hmem : o ∈ entries.map (·.1)
    · obtain ⟨⟨o', e⟩, hin, rfl⟩ := mem_map.1 hmem
      rw [writeAll_of_mem hn hin] at hco
      exact unspent_not_spent hco
    · rw [writeAll_of_not_mem hmem] at hco
      exact hv o coin hco
  | cache us below =>
    obtain ⟨us', h1, h2, h3⟩ := foldlM_batchWriteEntry_spec entries hn hv.2 h
    refine ⟨.cache { us' with hashBlock } below, ?_, ⟨hv.1, h2.setHash hashBlock⟩, h3⟩
    simp only [batchWrite, h1]
    rfl

/-! ## Sync and Flush -/

section

variable {s : CoinsStack} {c : CCoinsViewCache} {o : COutPoint}

theorem mem_flaggedEntries {e : CCoinsCacheEntry} :
    (o, e) ∈ c.flaggedEntries ↔ o ∈ c.flagged ∧ c.cacheCoins o = some e := by
  unfold flaggedEntries
  rw [mem_filterMap]
  constructor
  · rintro ⟨o', ho', hmap⟩
    obtain ⟨e', he', ⟨⟩⟩ := Option.map_eq_some_iff.1 hmap
    exact ⟨ho', he'⟩
  · rintro ⟨ho, he⟩
    exact ⟨o, ho, by simp [he]⟩

theorem CacheInv.map_flaggedEntries {parent : CoinsMap}
    (h : CacheInv c parent) : c.flaggedEntries.map (·.1) = c.flagged := by
  have key : ∀ l : List COutPoint, (∀ o ∈ l, ∃ e, c.cacheCoins o = some e) →
      (l.filterMap fun o => (c.cacheCoins o).map (o, ·)).map (·.1) = l := by
    intro l
    induction l with
    | nil =>
      intro _
      rfl
    | cons o l ih =>
      intro hl
      obtain ⟨e, he⟩ := hl o (by simp)
      have ih' := ih fun o' ho' => hl o' (by simp [ho'])
      simpa [he] using ih'
  refine key c.flagged fun o ho => ?_
  obtain ⟨e, he, -⟩ := (h.flagged o).1 ho
  exact ⟨e, he⟩

theorem batchWrite_top (h : Consistent s.view) :
    ∃ v', s.base.batchWrite s.top.flaggedEntries s.top.hashBlock = .ok v' ∧ Consistent v' ∧
      v'.visible = s.view.visible ∧ ∀ o ∉ s.top.flagged, v'.visible o = s.base.visible o := by
  obtain ⟨hb, hc⟩ := h
  have hn : (s.top.flaggedEntries.map (·.1)).Nodup := by
    rw [hc.map_flaggedEntries]
    exact hc.nodup
  have hentries : ∀ x ∈ s.top.flaggedEntries, EntryInv x.2 (s.base.visible x.1) :=
    fun x hx => hc.entry x.1 x.2 (mem_flaggedEntries.1 hx).2
  obtain ⟨v', h1, h2, h3⟩ := batchWrite_spec hb hn hentries s.top.hashBlock
  have hout : ∀ o ∉ s.top.flagged, v'.visible o = s.base.visible o := by
    intro o ho
    rw [← hc.map_flaggedEntries] at ho
    rw [h3, writeAll_of_not_mem ho]
  refine ⟨v', h1, h2, ?_, hout⟩
  funext o
  by_cases ho : o ∈ s.top.flagged
  · obtain ⟨e, he, -⟩ := (hc.flagged o).1 ho
    rw [h3, writeAll_of_mem hn (mem_flaggedEntries.2 ⟨ho, he⟩)]
    simp [view, visible, he]
  rw [hout o ho]
  cases hco : s.top.cacheCoins o with
  | none => simp [view, visible, hco]
  | some e =>
    -- an entry that is not on the list is clean
    have hd : e.dirty = false := by
      cases hd : e.dirty with
      | false => rfl
      | true => exact absurd ((hc.flagged o).2 ⟨e, hco, by simp [isFlagged, hd]⟩) ho
    obtain ⟨hns, hp⟩ := (hc.entry o e hco).clean hd
    simp [view, visible, hco, hp, unspent_of_not_spent hns]

/-- An entry after a `Sync`: a spent coin is gone, another one is clean. -/
def synced (e : Option CCoinsCacheEntry) : Option CCoinsCacheEntry :=
  e.bind fun e => if e.coin.isSpent then none else some { coin := e.coin }

theorem nextAndMaybeErase_spec (hc : c.flagged.Nodup) (ho : (c.cacheCoins o).isSome) :
    (c.nextAndMaybeErase o).cacheCoins = update c.cacheCoins o (synced (c.cacheCoins o)) ∧
      (c.nextAndMaybeErase o).flagged.Nodup ∧
      ∀ o', o' ∈ (c.nextAndMaybeErase o).flagged ↔ o' ≠ o ∧ o' ∈ c.flagged := by
  obtain ⟨e, he⟩ := Option.isSome_iff_exists.1 ho
  unfold nextAndMaybeErase
  by_cases hs : e.coin.isSpent
  · simp only [he, hs, synced, Option.bind_some]
    exact ⟨rfl, hc.erase o, fun o' => hc.mem_erase_iff⟩
  simp only [he, hs, synced, Option.bind_some]
  refine ⟨rfl, put_nodup hc o _, fun o' => ?_⟩
  rw [if_neg Bool.false_ne_true, mem_put_flagged hc]
  by_cases heq : o' = o
  · simp [isFlagged]
  · simp [heq]

theorem foldl_nextAndMaybeErase (l : List COutPoint) (hl : l.Nodup)
    (hc : c.flagged.Nodup) (hsome : ∀ o ∈ l, (c.cacheCoins o).isSome) :
    (∀ o, (l.foldl nextAndMaybeErase c).cacheCoins o =
        if o ∈ l then synced (c.cacheCoins o) else c.cacheCoins o) ∧
      (l.foldl nextAndMaybeErase c).flagged.Nodup ∧
      ∀ o, o ∈ (l.foldl nextAndMaybeErase c).flagged ↔ o ∉ l ∧ o ∈ c.flagged := by
  induction l generalizing c with
  | nil => exact ⟨fun o => by simp, hc, fun o => by simp⟩
  | cons o l ih =>
    rw [nodup_cons] at hl
    obtain ⟨h1, h2, h3⟩ := nextAndMaybeErase_spec hc (hsome o (by simp))
    have hne : ∀ o' ∈ l, o' ≠ o := by
      rintro o' ho' rfl
      exact hl.1 ho'
    have hsome' : ∀ o' ∈ l, ((c.nextAndMaybeErase o).cacheCoins o').isSome := by
      intro o' ho'
      rw [h1, update_of_ne (hne o' ho')]
      exact hsome o' (by simp [ho'])
    obtain ⟨i1, i2, i3⟩ := ih hl.2 h2 hsome'
    simp only [foldl_cons]
    refine ⟨fun o' => ?_, i2, fun o' => ?_⟩
    · rw [i1, h1]
      by_cases heq : o' = o
      · subst heq
        simp [hl.1]
      · simp [heq]
    · rw [i3, h3]
      simp only [mem_cons]
      tauto

theorem sync_spec (h : Consistent s.view) :
    ∃ s', s.sync = .ok s' ∧ Consistent s'.view ∧ s'.view.visible = s.view.visible ∧
      s'.base.visible = s.view.visible := by
  obtain ⟨v', h1, h2, h3, h4⟩ := batchWrite_top h
  obtain ⟨-, hc⟩ := h
  have hsome : ∀ o ∈ s.top.flagged, (s.top.cacheCoins o).isSome := by
    intro o ho
    obtain ⟨e, he, -⟩ := (hc.flagged o).1 ho
    simp [he]
  obtain ⟨i1, i2, i3⟩ := foldl_nextAndMaybeErase s.top.flagged hc.nodup hc.nodup hsome
  set top := s.top.flagged.foldl nextAndMaybeErase s.top with htop
  have hempty : top.flagged = [] := by
    rw [eq_nil_iff_forall_not_mem]
    intro o ho
    obtain ⟨hn, hm⟩ := (i3 o).1 ho
    exact hn hm
  -- what is left is clean, and the view below shows the same coin
  have hclean : ∀ o e, top.cacheCoins o = some e →
      e.dirty = false ∧ e.fresh = false ∧ e.coin.isSpent = false ∧ v'.visible o = some e.coin := by
    intro o e he
    rw [i1] at he
    split at he
    · obtain ⟨e', he', heq⟩ := Option.bind_eq_some_iff.1 he
      split at heq
      · cases heq
      next hs =>
        cases heq
        have hs' : e'.coin.isSpent = false := by simpa using hs
        refine ⟨rfl, rfl, hs', ?_⟩
        rw [h3]
        simp [view, visible, he', unspent_of_not_spent hs']
    next ho =>
      have hnf : e.isFlagged = false := by
        cases hf : e.isFlagged with
        | false => rfl
        | true => exact absurd ((hc.flagged o).2 ⟨e, he, hf⟩) ho
      rw [isFlagged, Bool.or_eq_false_iff] at hnf
      obtain ⟨hns, hp⟩ := (hc.entry o e he).clean hnf.1
      exact ⟨hnf.1, hnf.2, hns, by rw [h4 o ho, hp]⟩
  have hinv : CacheInv top v'.visible := by
    refine ⟨fun o e he => ?_, i2, fun o => ?_⟩
    · obtain ⟨hd, hf, hns, hp⟩ := hclean o e he
      refine ⟨fun h => ?_, fun _ => ⟨hns, hp⟩, fun _ => hf⟩
      simp [hf] at h
    · constructor
      · intro ho
        simp [hempty] at ho
      · rintro ⟨e, he, hf⟩
        obtain ⟨hd, hf', -, -⟩ := hclean o e he
        simp [isFlagged, hd, hf'] at hf
  refine ⟨{ top, base := v' }, ?_, ⟨h2, hinv⟩, ?_, h3⟩
  · simp only [sync, h1]
    show (if top.flagged.isEmpty then (.ok ⟨top, v'⟩ : Except CoinsError CoinsStack)
      else .error .notAllCleared) = .ok ⟨top, v'⟩
    simp [hempty]
  · rw [← h3]
    funext o
    simp only [view, visible]
    cases hco : top.cacheCoins o with
    | none => rfl
    | some e =>
      obtain ⟨-, -, hns, hp⟩ := hclean o e hco
      simp [hp, unspent_of_not_spent hns]

end

/-! ## Whole runs -/

/-- **Step**: an admissible call on a consistent stack throws nothing, answers as the map does
and updates it as the map does; `Sync` and `Flush` leave that map in the view below. -/
theorem CoinsOp.run_refines {s : CoinsStack} (h : Consistent s.view) {op : CoinsOp}
    (hop : op.Admissible s.view.visible) :
    ∃ s', op.run s = .ok (op.answer s.view.visible, s') ∧ Consistent s'.view ∧
      s'.view.visible = op.apply s.view.visible ∧
      (op = .sync ∨ op = .flush → s'.base.visible = op.apply s.view.visible) := by
  cases op with
  | getCoin o =>
    obtain ⟨f1, f2, f3⟩ := fetchCoin_spec h o
    exact ⟨s.fetchCoin o, by simp [run, answer, CoinsStack.getCoin, f3], f1, f2, by simp⟩
  | haveCoin o =>
    obtain ⟨f1, f2, f3⟩ := fetchCoin_spec h o
    exact ⟨s.fetchCoin o, by simp [run, answer, CoinsStack.haveCoin, f3], f1, f2, by simp⟩
  | accessCoin o =>
    obtain ⟨f1, f2, f3⟩ := fetchCoin_spec h o
    refine ⟨s.fetchCoin o, ?_, f1, f2, by simp⟩
    simp [run, answer, CoinsStack.accessCoin, accessed_unspent, f3]
  | haveInputs tx =>
    by_cases hcb : tx.isCoinBase
    · exact ⟨s, by simp [run, answer, CoinsStack.haveInputs, hcb], h, rfl, by simp⟩
    obtain ⟨a1, a2, a3⟩ := haveAll_spec h (tx.vin.map (·.prevout))
    refine ⟨(s.haveAll (tx.vin.map (·.prevout))).2, ?_, a2, a3, by simp⟩
    simp [run, answer, CoinsStack.haveInputs, hcb, a1, comp_def]
  | addCoin o coin possibleOverwrite =>
    obtain ⟨top, h1, h2, h3⟩ := addCoin_spec h hop.1 hop.2
    refine ⟨{ s with top }, ?_, h2, h3, by simp⟩
    simp only [run, h1]
    rfl
  | spendCoin o =>
    obtain ⟨h1, h2, h3⟩ := spendCoin_spec h o
    exact ⟨(s.spendCoin o).2, by simp [run, answer, h1], h2, h3, by simp⟩
  | setBestBlock hashBlock =>
    exact ⟨{ s with top := { s.top with hashBlock } }, rfl, ⟨h.1, h.2.setHash hashBlock⟩, rfl,
      by simp⟩
  | uncache o =>
    obtain ⟨h1, h2⟩ := uncache_spec h o
    exact ⟨{ s with top := s.top.uncache o }, rfl, h1, h2, by simp⟩
  | sync =>
    obtain ⟨s', h1, h2, h3, h4⟩ := sync_spec h
    refine ⟨s', ?_, h2, h3, fun _ => h4⟩
    simp only [run, h1]
    rfl
  | flush =>
    obtain ⟨v', h1, h2, h3, -⟩ := batchWrite_top h
    refine ⟨{ top := { hashBlock := s.top.hashBlock }, base := v' }, ?_, ⟨h2, .empty _⟩, ?_,
      fun _ => h3⟩
    · simp only [run, CoinsStack.flush, h1]
      rfl
    · rw [← h3]
      rfl

def runOps : CoinsStack → List CoinsOp → Except CoinsError (List CoinsOutput × CoinsStack)
  | s, [] => .ok ([], s)
  | s, op :: ops => do
    let r ← op.run s
    let rs ← runOps r.2 ops
    .ok (r.1 :: rs.1, rs.2)

def applyOps (m : CoinsMap) (ops : List CoinsOp) : CoinsMap := ops.foldl CoinsOp.apply m

def answerOps : CoinsMap → List CoinsOp → List CoinsOutput
  | _, [] => []
  | m, op :: ops => op.answer m :: answerOps (op.apply m) ops

/-- Each call meets its precondition on the map at that point. -/
def AdmissibleOps : CoinsMap → List CoinsOp → Prop
  | _, [] => True
  | m, op :: ops => op.Admissible m ∧ AdmissibleOps (op.apply m) ops

theorem runOps_refines (ops : List CoinsOp) (h : Consistent s.view)
    (hops : AdmissibleOps s.view.visible ops) :
    ∃ s', runOps s ops = .ok (answerOps s.view.visible ops, s') ∧ Consistent s'.view ∧
      s'.view.visible = applyOps s.view.visible ops ∧
      (ops.getLast? = some .sync ∨ ops.getLast? = some .flush →
        s'.base.visible = applyOps s.view.visible ops) := by
  induction ops generalizing s with
  | nil => exact ⟨s, rfl, h, rfl, by simp⟩
  | cons op ops ih =>
    obtain ⟨s1, h1, h2, h3, h4⟩ := op.run_refines h hops.1
    have hrest := hops.2
    rw [← h3] at hrest
    obtain ⟨s', i1, i2, i3, i4⟩ := ih h2 hrest
    rw [h3] at i1 i3 i4
    refine ⟨s', ?_, i2, i3, ?_⟩
    · simp only [runOps, h1]
      show (do
        let rs ← runOps s1 ops
        Except.ok (_ :: rs.1, rs.2)) = _
      rw [i1]
      rfl
    · cases ops with
      | nil =>
        cases i1
        simpa [applyOps] using h4
      | cons op' ops => simpa [applyOps] using i4

/-! ## Top theorem -/

/-- The stacks that arise: new caches on a base without spent coins or on top of each other,
used through admissible calls on the top layer, the top layer dropped at any time. -/
inductive Built : CoinsStack → Prop
  | onBase {coins : CoinsMap} (hashBlock : Nat)
      (h : ∀ o coin, coins o = some coin → coin.isSpent = false) :
      Built (.onTop (.base coins hashBlock))
  | push {s : CoinsStack} (h : Built s) : Built (.onTop s.view)
  | call {s s' : CoinsStack} {op : CoinsOp} {out : CoinsOutput} (h : Built s)
      (hop : op.Admissible s.view.visible) (hr : op.run s = .ok (out, s')) : Built s'
  | drop {top c : CCoinsViewCache} {below : CoinsView}
      (h : Built { top, base := .cache c below }) : Built { top := c, base := below }

theorem Built.consistent (h : Built s) : Consistent s.view := by
  induction h with
  | onBase hashBlock h => exact ⟨h, .empty _⟩
  | push _ ih => exact ⟨ih, .empty _⟩
  | call _ hop hr ih =>
    obtain ⟨s1, h1, h2, -, -⟩ := CoinsOp.run_refines ih hop
    rw [hr] at h1
    cases h1
    exact h2
  | drop _ ih => exact ih.1

/-- **The cache refines a map**: every sequence of admissible calls on the top layer of a stack
runs without an exception, returns the answers of one plain map, and leaves its map visible;
after `Sync` or `Flush` the layer below shows that map too. -/
theorem coinsCache_refines {s : CoinsStack} (hs : Built s) (ops : List CoinsOp)
    (hops : AdmissibleOps s.view.visible ops) :
    ∃ s', runOps s ops = .ok (answerOps s.view.visible ops, s') ∧
      s'.view.visible = applyOps s.view.visible ops ∧
      (ops.getLast? = some .sync ∨ ops.getLast? = some .flush →
        s'.base.visible = applyOps s.view.visible ops) := by
  obtain ⟨s', h1, -, h3, h4⟩ := runOps_refines ops hs.consistent hops
  exact ⟨s', h1, h3, h4⟩

def sampleCoin : Coin := { out := ⟨50, [op1]⟩, fCoinBase := false, nHeight := 3 }

def sampleStack : CoinsStack :=
  .onTop (onTop (.base (fun o => if o = ⟨1, 0⟩ then some sampleCoin else none) 9)).view

theorem sampleStack_built : Built sampleStack := by
  refine .push (.onBase 9 fun o coin h => ?_)
  split at h
  · cases h
    rfl
  · cases h

/-- Spend the coin, add another one, flush: the middle layer shows the new coin only. -/
theorem coinsCache_refines_flush :
    ∃ s', runOps sampleStack [.spendCoin ⟨1, 0⟩, .addCoin ⟨2, 0⟩ sampleCoin false, .flush] =
        .ok ([.coin (some sampleCoin), .unit, .unit], s') ∧
      s'.base.visible ⟨1, 0⟩ = none ∧ s'.base.visible ⟨2, 0⟩ = some sampleCoin := by
  obtain ⟨s', h1, -, h3⟩ := coinsCache_refines sampleStack_built
    [.spendCoin ⟨1, 0⟩, .addCoin ⟨2, 0⟩ sampleCoin false, .flush]
    ⟨trivial, ⟨rfl, fun _ => rfl⟩, trivial, trivial⟩
  refine ⟨s', h1, ?_, ?_⟩
  · rw [h3 (.inr rfl)]
    rfl
  · rw [h3 (.inr rfl)]
    rfl

end BitcoinPurity
