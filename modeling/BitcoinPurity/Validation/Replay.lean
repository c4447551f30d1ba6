import BitcoinPurity.Chain.Index
import BitcoinPurity.Coins.Database
import BitcoinPurity.Lib.Runs
import BitcoinPurity.Validation.DisconnectBlock

/-!
# Crash recovery of the chainstate

`Chainstate::ReplayBlocks` and `RollforwardBlock`: after a flush that did not complete, roll the
coins back along the old branch to the fork, forward along the new one, and flush the result.
The work is done in a cache over the database; only the flush at the end writes to it, and a
crash can interrupt it again.

The coins found may be any mixture of the old and the new set, so spends find coins already gone
and undo data coins already back.  Rolling back and forward are lists of writes that do not
depend on what is there (`WritesAlways`), and they lead from the old set to the new one, hence
from every mixture (`Writes.write_mixture`).

* `replayBlocks_recovers`: after any number of crashes, a replay that completes leaves the new
  set and the new tip.
* `interrupted_flush_recovers`: in particular when the first crash is one in `BatchWrite`.
-/

namespace BitcoinPurity

open Calls Writes Tighten List Branch CCoinsViewDB

/-! ## Algorithm -/

/-- What `BlockManager` keeps: the index by hash, the blocks and the undo data on disk. -/
structure BlockStorage where
  blockIndex : Nat → Option BlockPtr
  getBlockHash : BlockPtr → Nat
  readBlock : BlockPtr → Option CBlock
  readBlockUndo : BlockPtr → Option CBlockUndo
  connectEnv : BlockPtr → ConnectEnv

def spendAll : List CTxIn → CoinsProg Unit
  | [] => pure ()
  | txin :: vin => do
    let _ ← spendCoin txin.prevout
    spendAll vin

def spendAllOf (tx : CTransaction) : CoinsProg Unit :=
  if tx.isCoinBase then pure () else spendAll tx.vin

/-- The loop of `RollforwardBlock`; every addition may be an overwrite. -/
def rollforwardTxs (nHeight : Nat) : List CTransaction → CoinsProg Unit
  | [] => pure ()
  | tx :: vtx => do
    spendAllOf tx
    addCoins tx nHeight true
    rollforwardTxs nHeight vtx

namespace BlockStorage
variable (st : BlockStorage)

def rollforwardBlock (pindex : BlockPtr) : CoinsProg Unit := do
  let block ← .getOr .readFailed (st.readBlock pindex)
  rollforwardTxs (nHeight pindex).toNat block.vtx

/-- The part of the loop of `ReplayBlocks` that disconnects one block.  An unclean result is
ignored. -/
def rollbackBlock (pindex : BlockPtr) : CoinsProg Unit := do
  let block ← .getOr .readFailed (st.readBlock pindex)
  let undo ← .getOr .disconnectFailed (st.readBlockUndo pindex)
  let _ ← disconnectBlock (st.connectEnv pindex) block undo
  pure ()

def rollbackUnlessGenesis (pindex : BlockPtr) : CoinsProg Unit :=
  if nHeight pindex > 0 then st.rollbackBlock pindex else pure ()

def rollbackLoop (pindexFork : BlockPtr) : BlockPtr → CoinsProg Unit
  | [] => pure ()
  | x :: b =>
    if x :: b = pindexFork then pure ()
    else do
      st.rollbackUnlessGenesis (x :: b)
      rollbackLoop pindexFork b

/-- Roll forward along the new branch: `left` blocks from `height` on. -/
def rollforwardLoop (pindexNew : BlockPtr) : Nat → Int → CoinsProg Unit
  | 0, _ => pure ()
  | left + 1, height => do
    st.rollforwardBlock (getAncestor pindexNew height)
    rollforwardLoop pindexNew left (height + 1)

def replay (pindexOld pindexFork pindexNew : BlockPtr) : CoinsProg Unit := do
  st.rollbackLoop pindexFork pindexOld
  let nForkHeight := if pindexFork = [] then 0 else nHeight pindexFork
  st.rollforwardLoop pindexNew (nHeight pindexNew - nForkHeight).toNat (nForkHeight + 1)
  setBestBlock (st.getBlockHash pindexNew)

/-- The old tip of the interrupted flush, null for the first one, and the fork. -/
def oldAndFork (pindexNew : BlockPtr) (hashOld : Nat) : Except BlockError (BlockPtr × BlockPtr) :=
  if hashOld = 0 then .ok ([], [])
  else
    match st.blockIndex hashOld with
    | none => .error .unknownHeads
    | some pindexOld => do
      failIf (lastCommonAncestor pindexOld pindexNew == []) .assertFailed
      .ok (pindexOld, lastCommonAncestor pindexOld pindexNew)

/-- `ReplayBlocks`: the batches that its flush writes to the database. -/
def replayBlocks (full : CDBBatch → Bool) (db : CCoinsViewDB) : Except BlockError (List CDBBatch) :=
  match db.headBlocks with
  | [] => .ok []
  | [hashNew, hashOld] =>
    match st.blockIndex hashNew with
    | none => .error .unknownHeads
    | some pindexNew => do
      let (pindexOld, pindexFork) ← st.oldAndFork pindexNew hashOld
      let (_, cache) ← onCache (st.replay pindexOld pindexFork pindexNew)
        (.onTop (.base db.coins db.bestBlock))
      db.batchWrite full cache.top.flaggedEntries cache.top.hashBlock
  | _ => .error .unknownHeads

/-- A crash in the middle of the flush of `ReplayBlocks`: `k` batches have been written. -/
def crash (step : (CDBBatch → Bool) × Nat) (db : CCoinsViewDB) : Option CCoinsViewDB :=
  match st.replayBlocks step.1 db with
  | .ok batches =>
    if step.2 < batches.length then some (db.writeBatches (batches.take step.2)) else none
  | .error _ => none

end BlockStorage

/-! ## The block tree -/

/-- The blocks of the tree and the undo data that `ConnectBlock` wrote for them. -/
structure BlockTree (st : BlockStorage) where
  genesis : CBlockHeader
  body : BlockPtr → CBlock
  undo : BlockPtr → CBlockUndo
  height_eq : ∀ b, (st.connectEnv b).nHeight = (nHeight b).toNat
  not_genesis : ∀ b, 1 < b.length → (st.connectEnv b).isGenesis = false

namespace BlockTree
variable {st : BlockStorage} (t : BlockTree st)

/-- The UTXO map at a block; it is empty up to the genesis block. -/
def utxo : BlockPtr → CoinsMap
  | [] => fun _ => none
  | x :: b =>
    if b = [] then fun _ => none
    else
      match onMap (connectBlock (st.connectEnv (x :: b)) (t.body (x :: b))) (utxo b) with
      | .ok r => r.2
      | .error _ => utxo b

/-- `ConnectBlock` accepted the block on its parent, wrote its undo data, and no output overwrote
an unspent coin. -/
structure Connects (b : BlockPtr) : Prop where
  accepted : ∃ m, onMap (connectBlock (st.connectEnv b) (t.body b)) (t.utxo b.tail) =
    .ok (t.undo b, m)
  noOverwrite : NoOverwrite (t.utxo b.tail) (t.body b)

/-- A tip of the tree: every block above the genesis block was connected. -/
structure ValidTip (tip : BlockPtr) : Prop where
  rooted : [t.genesis] <:+ tip
  connects : ∀ b, b <:+ tip → 1 < b.length → t.Connects b

/-- The two tips are in the index, and the data of the blocks between each of them and their
fork can be read. -/
structure Readable (old new : BlockPtr) : Prop where
  newHash : st.getBlockHash new ≠ 0
  newIndex : st.blockIndex (st.getBlockHash new) = some new
  nullHash : old = [] → st.getBlockHash old = 0
  oldHash : old ≠ [] → st.getBlockHash old ≠ 0
  oldIndex : old ≠ [] → st.blockIndex (st.getBlockHash old) = some old
  back : ∀ b, b <:+ old → ¬ b <:+ new →
    st.readBlock b = some (t.body b) ∧ st.readBlockUndo b = some (t.undo b)
  forth : ∀ b, b <:+ new → ¬ b <:+ old → 1 < b.length → st.readBlock b = some (t.body b)

end BlockTree

/-! ## Lemmas -/

/-- On every map the program succeeds and makes the same writes. -/
def WritesAlways {α : Type} (p : CoinsProg α) (ws : List (COutPoint × Option Coin)) : Prop :=
  ∀ m, ∃ a, onMap p m = .ok (a, write m ws)

namespace WritesAlways
variable {α β : Type} {ws ws' : List (COutPoint × Option Coin)}

theorem pure (a : α) : WritesAlways (Pure.pure a) [] := fun _ => ⟨a, rfl⟩

variable {f : α → CoinsProg β}

theorem bind {p : CoinsProg α} (hp : WritesAlways p ws)
    (hf : ∀ a, WritesAlways (f a) ws') : WritesAlways (p >>= f) (ws ++ ws') := by
  intro m
  obtain ⟨a, h1⟩ := hp m
  obtain ⟨b, h2⟩ := hf a (write m ws)
  rw [← write_append] at h2
  exact ⟨b, run_bind_ok.2 ⟨a, _, h1, h2⟩⟩

theorem getOr {e : BlockError} {x : Option α} {a : α} (h : x = some a)
    (hf : WritesAlways (f a) ws) : WritesAlways (.getOr e x >>= f) ws := by
  subst h
  exact hf

end WritesAlways

theorem spendAll_writes (vin : List CTxIn) : WritesAlways (spendAll vin) (spendWrites vin) := by
  induction vin with
  | nil => exact .pure ()
  | cons txin vin ih =>
    intro m
    obtain ⟨a, h⟩ := ih (Function.update m txin.prevout none)
    exact ⟨a, by simp only [spendAll, run_bind, onMap_spendCoin, h]; rfl⟩

theorem addCoinsLoop_writes {tx : CTransaction} (nHeight i : Nat) {vout : List CTxOut}
    (hval : ∀ txOut ∈ vout, txOut.nValue ≠ -1) :
    WritesAlways (addCoinsLoop tx nHeight true i vout)
      (outputWrites tx.hash (fun txOut => some (newCoin tx nHeight txOut)) i vout) := by
  induction vout generalizing i with
  | nil => exact .pure ()
  | cons txOut vout ih =>
    intro m
    have hspent : (newCoin tx nHeight txOut).isSpent = false := by
      simpa [newCoin, Coin.isSpent] using hval txOut (by simp)
    have hrest := ih (i + 1) fun t ht => hval t (mem_cons_of_mem _ ht)
    cases hu : isUnspendable txOut.scriptPubKey with
    | true =>
      obtain ⟨a, h⟩ := hrest m
      have hadd : onMap (addCoin ⟨tx.hash, i⟩ (newCoin tx nHeight txOut)
          (m ⟨tx.hash, i⟩).isSome) m = .ok ((), m) :=
        onMap_addCoin_eq_ok.2 ⟨hspent, .inl ⟨hu, rfl⟩⟩
      refine ⟨a, ?_⟩
      simp [addCoinsLoop, mayOverwrite, hadd, outputWrites, hu, h]
    | false =>
      obtain ⟨a, h⟩ := hrest (Function.update m ⟨tx.hash, i⟩ (some (newCoin tx nHeight txOut)))
      have hadd : onMap (addCoin ⟨tx.hash, i⟩ (newCoin tx nHeight txOut)
          (m ⟨tx.hash, i⟩).isSome) m =
            .ok ((), Function.update m ⟨tx.hash, i⟩ (some (newCoin tx nHeight txOut))) := by
        refine onMap_addCoin_eq_ok.2 ⟨hspent, .inr ⟨hu, ?_, rfl⟩⟩
        cases m ⟨tx.hash, i⟩ with
        | none => exact .inr rfl
        | some coin => exact .inl rfl
      refine ⟨a, ?_⟩
      simp [addCoinsLoop, mayOverwrite, hadd, outputWrites, hu, h]

variable {vtx : List CTransaction}

theorem rollforwardTxs_writes (nHeight : Nat)
    (hval : ∀ tx ∈ vtx, ∀ txOut ∈ tx.vout, txOut.nValue ≠ -1) :
    WritesAlways (rollforwardTxs nHeight vtx) (vtx.flatMap (txWrites · nHeight)) := by
  induction vtx with
  | nil => exact .pure ()
  | cons tx vtx ih =>
    have hspend : WritesAlways (spendAllOf tx)
        (if tx.isCoinBase then [] else spendWrites tx.vin) := by
      unfold spendAllOf
      split
      · exact .pure ()
      · exact spendAll_writes tx.vin
    have hrest := ih fun t ht => hval t (mem_cons_of_mem _ ht)
    rw [flatMap_cons, txWrites, append_assoc]
    exact hspend.bind fun _ =>
      (addCoinsLoop_writes nHeight 0 (hval tx (by simp))).bind fun _ => hrest

theorem TxsConnected.writes {nHeight : Nat} {m m' : CoinsMap}
    {undo : List CTxUndo} (h : TxsConnected nHeight m vtx undo m') :
    m' = write m (vtx.flatMap (txWrites · nHeight)) ∧
      ∀ tx ∈ vtx, ∀ txOut ∈ tx.vout, txOut.nValue ≠ -1 := by
  induction h with
  | nil => exact ⟨rfl, by simp⟩
  | cons htx _ ih =>
    obtain ⟨hm, hval⟩ := ih
    refine ⟨?_, ?_⟩
    · rw [flatMap_cons, write_append, ← htx.writes]
      exact hm
    · intro tx ht
      rcases mem_cons.1 ht with rfl | ht
      · exact htx.values
      · exact hval tx ht

/-! ## One block -/

section
variable {st : BlockStorage} {t : BlockTree st} {old new : BlockPtr}

namespace BlockTree

variable {b tip : BlockPtr}

theorem Connects.run (h : t.Connects b) (hb : 1 < b.length) :
    onMap (connectBlock (st.connectEnv b) (t.body b)) (t.utxo b.tail) =
      .ok (t.undo b, t.utxo b) := by
  obtain ⟨m, hm⟩ := h.accepted
  cases b with
  | nil => simp at hb
  | cons x b =>
    have hne : b ≠ [] := by
      rintro rfl
      simp at hb
    rw [tail_cons] at hm ⊢
    have hutxo : t.utxo (x :: b) = m := by
      rw [utxo, if_neg hne, hm]
    rw [hutxo, hm]

theorem one_le_height (t : BlockTree st) (hb : 1 < b.length) : 1 ≤ (st.connectEnv b).nHeight := by
  rw [t.height_eq, nHeight_eq]
  omega

theorem utxo_restorable (t : BlockTree st) (h : ∀ b, b <:+ tip → 1 < b.length → t.Connects b) :
    AllRestorable (t.utxo tip) := by
  induction tip with
  | nil =>
    intro o coin ho
    cases ho
  | cons x b ih =>
    by_cases hb : b = []
    · intro o coin ho
      simp [utxo, if_pos hb] at ho
    have hlen : 1 < (x :: b).length := by
      have := length_pos_iff.2 hb
      rw [length_cons]
      omega
    have hrun := (h _ (suffix_refl _) hlen).run hlen
    obtain ⟨_, _, _, -, -, -, htxs⟩ := connectBlock_ok (t.not_genesis _ hlen) hrun
    exact htxs.restorable (t.one_le_height hlen)
      (ih fun b' hb' => h b' (hb'.trans (suffix_cons x b)))

theorem ValidTip.restorable (h : t.ValidTip tip) (hb : b <:+ tip) : AllRestorable (t.utxo b) :=
  t.utxo_restorable fun b' hb' => h.connects b' (hb'.trans hb)

theorem ValidTip.rollback (h : t.ValidTip tip) (hb : b <:+ tip)
    (hlen : 1 < b.length) (hread : st.readBlock b = some (t.body b))
    (hundo : st.readBlockUndo b = some (t.undo b)) :
    WritesAlways (st.rollbackUnlessGenesis b) (undoWrites (t.body b) (t.undo b)) ∧
      write (t.utxo b) (undoWrites (t.body b) (t.undo b)) = t.utxo b.tail := by
  have hc := h.connects b hb hlen
  have hm := h.restorable ((tail_suffix b).trans hb)
  have hg := t.not_genesis b hlen
  have hh := t.one_le_height hlen
  obtain ⟨hundoLen, hfits⟩ := undoOrder_fits hg hh hm (hc.run hlen)
  have hwrites : WritesAlways (disconnectBlock (st.connectEnv b) (t.body b) (t.undo b))
      (undoWrites (t.body b) (t.undo b)) := disconnectBlock_run _ hundoLen hfits
  refine ⟨?_, ?_⟩
  · have hpos : nHeight b > 0 := by
      rw [nHeight_eq]
      omega
    rw [BlockStorage.rollbackUnlessGenesis, if_pos hpos]
    refine .getOr hread (.getOr hundo ?_)
    have := hwrites.bind fun _ => WritesAlways.pure ()
    rwa [append_nil] at this
  · obtain ⟨r, hr⟩ := hwrites (t.utxo b)
    rw [disconnectBlock_restores hg hh hm hc.noOverwrite (hc.run hlen)] at hr
    grind

end BlockTree

/-! ## Whole branches -/

variable {b : BlockPtr} {m : CoinsMap} {db : CCoinsViewDB}

theorem rollback_writes (hold : t.ValidTip old) (hr : t.Readable old new) {fork : BlockPtr}
    (hfork : fork <:+ b) (hne : fork ≠ []) (hb : b <:+ old)
    (hnot : ∀ b', b' <:+ b → b'.length > fork.length → ¬ b' <:+ new) :
    ∃ ws, WritesAlways (st.rollbackLoop fork b) ws ∧ write (t.utxo b) ws = t.utxo fork := by
  induction b with
  | nil => exact absurd (suffix_nil.1 hfork) hne
  | cons x b ih =>
    unfold BlockStorage.rollbackLoop
    split
    next heq => exact ⟨[], .pure (), by rw [heq]; rfl⟩
    next hneq =>
      have hfork' : fork <:+ b := by
        rcases suffix_cons_iff.1 hfork with h | h
        · exact absurd h.symm hneq
        · exact h
      have hlt : fork.length < (x :: b).length := by
        have := hfork'.length_le
        rw [length_cons]
        omega
      have hlen : 1 < (x :: b).length := by
        have := length_pos_iff.2 hne
        omega
      obtain ⟨hread, hundo⟩ := hr.back _ hb (hnot _ (suffix_refl _) hlt)
      obtain ⟨h1, h2⟩ := hold.rollback hb hlen hread hundo
      obtain ⟨ws, h3, h4⟩ := ih hfork' ((suffix_cons x b).trans hb)
        fun b' hb' => hnot b' (hb'.trans (suffix_cons x b))
      refine ⟨_, h1.bind fun _ => h3, ?_⟩
      rw [write_append, h2]
      exact h4

theorem rollforward_writes (hnew : t.ValidTip new) (hr : t.Readable old new) (left : Nat)
    (hb : b <:+ new) (hne : b ≠ []) (hleft : b.length + left = new.length)
    (hnot : ∀ b', b' <:+ new → b'.length > b.length → ¬ b' <:+ old) :
    ∃ ws, WritesAlways (st.rollforwardLoop new left (nHeight b + 1)) ws ∧
      write (t.utxo b) ws = t.utxo new := by
  induction left generalizing b with
  | zero =>
    have heq : b = new := hb.eq_of_length (by omega)
    exact ⟨[], .pure (), by rw [heq]; rfl⟩
  | succ left ih =>
    -- the next block is the ancestor of the new tip one higher
    have hpos := length_pos_iff.2 hne
    have hanc := getAncestor_suffix new (nHeight b + 1)
    have eb := nHeight_eq b
    have en := nHeight_eq new
    have hlen : (getAncestor new (nHeight b + 1)).length = b.length + 1 := by
      have := getAncestor_length (b := new) (h := nHeight b + 1) (by omega) (by omega)
      omega
    set next := getAncestor new (nHeight b + 1) with hnext
    have htail : next.tail = b := by
      refine suffix_eq_of_length ((tail_suffix _).trans hanc) hb ?_
      rw [length_tail]
      omega
    have hread := hr.forth next hanc (hnot next hanc (by omega)) (by omega)
    have hlen' : 1 < next.length := by omega
    obtain ⟨_, _, _, -, -, -, htxs⟩ := connectBlock_ok (t.not_genesis next hlen')
      ((hnew.connects next hanc hlen').run hlen')
    obtain ⟨h2, hval⟩ := htxs.writes
    rw [t.height_eq, htail] at h2
    have hheight : nHeight next = nHeight b + 1 := by
      rw [nHeight_eq]
      omega
    obtain ⟨ws', h3, h4⟩ := ih hanc (by rintro h; rw [h] at hlen; simp at hlen) (by omega)
      fun b' hb' hgt => hnot b' hb' (by omega)
    rw [hheight] at h3
    refine ⟨_, (WritesAlways.getOr hread (rollforwardTxs_writes _ hval)).bind fun _ => h3, ?_⟩
    rw [write_append, ← h2, h4]

theorem not_suffix_of_length_gt {a c : BlockPtr} (ha : c <:+ a)
    (hlen : c.length > (meet a b).length) : ¬ c <:+ b := by
  intro hb
  have := (suffix_meet ha hb).length_le
  omega

variable (hold : old = [] ∨ t.ValidTip old)
include hold

theorem replay_mixture (hnew : t.ValidTip new)
    (hr : t.Readable old new) (hm : ∀ o, m o = t.utxo old o ∨ m o = t.utxo new o) :
    onMap (st.replay old (meet old new) new) m = .ok ((), t.utxo new) := by
  have hgenesis := hnew.rooted.length_le
  rw [length_singleton] at hgenesis
  -- the writes of both loops, from the old set to the new one
  have hloops : ∃ back forth, WritesAlways (st.rollbackLoop (meet old new) old) back ∧
      WritesAlways (st.rollforwardLoop new
        (nHeight new - if meet old new = [] then 0 else nHeight (meet old new)).toNat
        ((if meet old new = [] then 0 else nHeight (meet old new)) + 1)) forth ∧
      write (write (t.utxo old) back) forth = t.utxo new := by
    have en := nHeight_eq new
    rcases hold with rfl | hold
    · obtain ⟨ws, h1, h2⟩ := rollforward_writes hnew hr (new.length - 1) hnew.rooted (by simp)
        (by simp; omega) fun b' _ hgt h => by
          rw [suffix_nil.1 h] at hgt
          simp at hgt
      rw [show new.length - 1 = (nHeight new - 0).toNat by omega] at h1
      exact ⟨[], ws, .pure (), h1, h2⟩
    · have hleft := meet_suffix_left old new
      have hright := meet_suffix_right old new
      have hne : meet old new ≠ [] := by
        intro h
        have := (suffix_meet hold.rooted hnew.rooted).length_le
        rw [h] at this
        simp at this
      have hlen := hright.length_le
      have ef := nHeight_eq (meet old new)
      obtain ⟨back, h1, h2⟩ := rollback_writes hold hr hleft hne (suffix_refl old)
        fun b' hb' hgt => not_suffix_of_length_gt hb' hgt
      obtain ⟨forth, h3, h4⟩ := rollforward_writes hnew hr
        (new.length - (meet old new).length) hright hne (by omega)
        fun b' hb' hgt => not_suffix_of_length_gt hb' (by rwa [meet_comm])
      grind
  obtain ⟨back, forth, hback, hforth, hnewSet⟩ := hloops
  obtain ⟨_, h1⟩ := hback m
  obtain ⟨_, h2⟩ := hforth (write m back)
  rw [write_mixture hnewSet hm] at h2
  exact run_bind_ok.2 ⟨_, _, h1, run_bind_ok.2 ⟨_, _, h2, rfl⟩⟩

theorem oldAndFork_eq (hnew : t.ValidTip new) (hr : t.Readable old new) :
    st.oldAndFork new (st.getBlockHash old) = .ok (old, meet old new) := by
  unfold BlockStorage.oldAndFork
  rcases hold with rfl | hold
  · rw [if_pos (hr.nullHash rfl)]
    rfl
  have hne : old ≠ [] := by
    rintro rfl
    exact absurd (suffix_nil.1 hold.rooted) (by simp)
  have hfork : meet old new ≠ [] := by
    intro h
    have := (suffix_meet hold.rooted hnew.rooted).length_le
    rw [h] at this
    simp at this
  rw [if_neg (hr.oldHash hne), hr.oldIndex hne]
  simp only [lastCommonAncestor_eq_meet]
  exact bind_eq_ok.2 ⟨(), by simpa using hfork, rfl⟩

/-- `ReplayBlocks` in the middle of a flush: its cache shows the new set over the database, and
its flush continues the one that was interrupted. -/
theorem replayBlocks_run (hnew : t.ValidTip new) (hr : t.Readable old new)
    (hdb : db.MidFlush (st.getBlockHash new) (st.getBlockHash old) (t.utxo old) (t.utxo new))
    (full : CDBBatch → Bool) :
    ∃ cache, Shows (t.utxo new) cache ∧ cache.base = .base db.coins db.bestBlock ∧
      st.replayBlocks full db = .ok (batchLoop full (st.getBlockHash new)
        [.eraseBestBlock, .writeHeadBlocks [st.getBlockHash new, st.getBlockHash old]]
        cache.top.flaggedEntries) := by
  have hunspent : ∀ o coin, db.coins o = some coin → coin.isSpent = false := by
    intro o coin ho
    rcases hdb.mixture o with h | h
    · rcases hold with rfl | hold
      · rw [h] at ho
        cases ho
      · exact (hold.restorable (suffix_refl old) o coin (by rw [← h, ho])).unspent
    · exact (hnew.restorable (suffix_refl new) o coin (by rw [← h, ho])).unspent
  have hshows : Shows db.coins (.onTop (.base db.coins db.bestBlock)) :=
    ⟨⟨hunspent, .empty _⟩, rfl⟩
  obtain ⟨cache, hrun, hcache⟩ := run_onCache _ hshows (replay_mixture hold hnew hr hdb.mixture)
  have hbase := run_invariant (I := fun s => s.base = .base db.coins db.bestBlock)
    (fun c _ _ hI hc => c.onCache_base hI hc) _ rfl hrun
  -- the last call set the best block
  have hhash : cache.top.hashBlock = st.getBlockHash new := by
    obtain ⟨_, s1, -, h⟩ := run_bind_ok.1 hrun
    obtain ⟨_, s2, -, ⟨⟩⟩ := run_bind_ok.1 h
    rfl
  refine ⟨cache, hcache, hbase, ?_⟩
  have holdTip : db.oldTip (st.getBlockHash new) = .ok (st.getBlockHash old) := by
    simp only [CCoinsViewDB.oldTip, hdb.noBest, hdb.heads]
    exact bind_eq_ok.2 ⟨(), by simp, rfl⟩
  have hbatch : db.batchWrite full cache.top.flaggedEntries (st.getBlockHash new) =
      .ok (batchLoop full (st.getBlockHash new)
        [.eraseBestBlock, .writeHeadBlocks [st.getBlockHash new, st.getBlockHash old]]
        cache.top.flaggedEntries) := by
    refine bind_eq_ok.2 ⟨(), by simpa using hr.newHash, ?_⟩
    exact bind_eq_ok.2 ⟨_, holdTip, rfl⟩
  simp only [BlockStorage.replayBlocks, hdb.heads, hr.newIndex]
  refine bind_eq_ok.2 ⟨_, oldAndFork_eq hold hnew hr, ?_⟩
  refine bind_eq_ok.2 ⟨_, hrun, ?_⟩
  rw [hhash]
  exact hbatch

omit hold in
theorem Shows.entry {s : CoinsStack} (h : Shows m s) {it : COutPoint × CCoinsCacheEntry}
    (hit : it ∈ s.top.flaggedEntries) : it.2.unspent = m it.1 := by
  obtain ⟨-, he⟩ := mem_flaggedEntries.1 hit
  rw [← h.2]
  simp [CoinsStack.view, CoinsView.visible, he]

omit hold in
theorem Shows.writeDirty {coins : CoinsMap} {s : CoinsStack} {hashBlock : Nat} (h : Shows m s)
    (hbase : s.base = .base coins hashBlock) : writeDirty coins s.top.flaggedEntries = m := by
  obtain ⟨v', h1, -, h3, -⟩ := batchWrite_top h.1
  rw [hbase] at h1
  cases h1
  rw [← h.2, ← h3]
  rfl

/-- **Step**: a crash in the flush of a replay leaves the database in the middle of the same
flush. -/
theorem crash_midFlush (hnew : t.ValidTip new) (hr : t.Readable old new) {db' : CCoinsViewDB}
    (hdb : db.MidFlush (st.getBlockHash new) (st.getBlockHash old) (t.utxo old) (t.utxo new))
    {step : (CDBBatch → Bool) × Nat} (hs : st.crash step db = some db') :
    db'.MidFlush (st.getBlockHash new) (st.getBlockHash old) (t.utxo old) (t.utxo new) := by
  obtain ⟨cache, hcache, -, hrun⟩ := replayBlocks_run hold hnew hr hdb step.1
  simp only [BlockStorage.crash, hrun] at hs
  split at hs
  next hk =>
    cases hs
    exact hdb.writeBatches_take (fun it hit => hcache.entry hit) hk
  next => cases hs

/-- **Run**: a replay of a database in the middle of the flush succeeds, and completed it leaves
the new set and the new tip. -/
theorem replayBlocks_midFlush (hnew : t.ValidTip new) (hr : t.Readable old new)
    (hdb : db.MidFlush (st.getBlockHash new) (st.getBlockHash old) (t.utxo old) (t.utxo new))
    (full : CDBBatch → Bool) :
    ∃ batches, st.replayBlocks full db = .ok batches ∧ db.writeBatches batches =
        { coins := t.utxo new, bestBlock := st.getBlockHash new, headBlocks := [] } := by
  obtain ⟨cache, hcache, hbase, hrun⟩ := replayBlocks_run hold hnew hr hdb full
  refine ⟨_, hrun, ?_⟩
  rw [writeBatches_batchLoop, ← hcache.writeDirty hbase]
  rfl

/-- A flush from the old to the new set that a crash interrupts is completed by `ReplayBlocks`. -/
theorem interrupted_flush_recovers (hnew : t.ValidTip new)
    (hr : t.Readable old new) (hcoins : db.coins = t.utxo old)
    (hbest : db.bestBlock = st.getBlockHash old) (hheads : db.headBlocks = []) {cache : CoinsStack}
    (hcache : Shows (t.utxo new) cache) {full full' : CDBBatch → Bool} {batches : List CDBBatch}
    {k : Nat}
    (hwrite : db.batchWrite full cache.top.flaggedEntries (st.getBlockHash new) = .ok batches)
    (hpos : 0 < k) (hk : k < batches.length) :
    ∃ batches', st.replayBlocks full' (db.writeBatches (batches.take k)) = .ok batches' ∧
      (db.writeBatches (batches.take k)).writeBatches batches' =
        { coins := t.utxo new, bestBlock := st.getBlockHash new, headBlocks := [] } := by
  obtain ⟨_, -, h⟩ := bind_eq_ok.1 hwrite
  obtain ⟨oldTip, htip, ⟨⟩⟩ := bind_eq_ok.1 h
  have holdTip : oldTip = st.getBlockHash old := by
    unfold CCoinsViewDB.oldTip at htip
    grind
  subst holdTip
  exact replayBlocks_midFlush hold hnew hr (writeBatches_take_midFlush hcoins
    (fun it hit => hcache.entry hit) hpos hk) full'

/-! ## Top theorem -/

/-- **Crash recovery**: from a database that holds, outpoint by outpoint, the set of the old or
of the new tip, after any number of crashes in the flush of `ReplayBlocks`, the next run succeeds,
and completed it leaves the set of the new tip and names it as the best block. -/
theorem replayBlocks_recovers (hnew : t.ValidTip new)
    (hr : t.Readable old new) {db₀ db : CCoinsViewDB}
    (h₀ : db₀.MidFlush (st.getBlockHash new) (st.getBlockHash old) (t.utxo old) (t.utxo new))
    (hcrashes : Runs.Reach st.crash db₀ db) (full : CDBBatch → Bool) :
    ∃ batches, st.replayBlocks full db = .ok batches ∧ db.writeBatches batches =
        { coins := t.utxo new, bestBlock := st.getBlockHash new, headBlocks := [] } := by
  have hdb := hcrashes.invariant h₀ fun db step db' hI hs => crash_midFlush hold hnew hr hI hs
  exact replayBlocks_midFlush hold hnew hr hdb full

end

/-! Two blocks on one genesis block; each pays its coinbase. -/

def sampleHeader (nNonce : Nat) : CBlockHeader :=
  { nVersion := 4, hashMerkleRoot := 0, nTime := 0, nBits := 0, nNonce }

/-- The tip numbered `n` over the genesis block. -/
def sampleTip (n : Nat) : BlockPtr := [sampleHeader n, sampleHeader 1]

def samplePayment (hash : Nat) : CBlock where
  vtx := [{ vin := [{ prevout := ⟨0, 0xffffffff⟩, scriptSig := [op1, op1] }]
            vout := [⟨60, [op1]⟩], hash, witnessHash := hash }]

def sampleNumber (b : BlockPtr) : Nat := (b.head?.map (·.nNonce)).getD 0

def sampleStorage : BlockStorage where
  blockIndex hash := if hash = 2 ∨ hash = 3 then some (sampleTip hash) else none
  getBlockHash := sampleNumber
  readBlock b := some (samplePayment (100 * sampleNumber b))
  readBlockUndo _ := some []
  connectEnv b := sampleConnectEnv (nHeight b).toNat

def sampleTree : BlockTree sampleStorage where
  genesis := sampleHeader 1
  body b := samplePayment (100 * sampleNumber b)
  undo _ := []
  height_eq _ := rfl
  not_genesis _ _ := rfl

theorem sampleTip_valid (n : Nat) (hn : n = 2 ∨ n = 3) : sampleTree.ValidTip (sampleTip n) := by
  refine ⟨⟨[sampleHeader n], rfl⟩, fun b hb hlen => ?_⟩
  have heq : b = sampleTip n := hb.eq_of_length (Nat.le_antisymm hb.length_le hlen)
  subst heq
  refine ⟨?_, fun _ _ _ _ _ _ _ => rfl⟩
  rcases hn with rfl | rfl
  · exact ⟨_, rfl⟩
  · exact ⟨_, rfl⟩

/-- The coin of the old tip is still there, that of the new one already. -/
def sampleDb : CCoinsViewDB where
  coins o := if o = ⟨200, 0⟩ ∨ o = ⟨300, 0⟩ then some ⟨⟨60, [op1]⟩, true, 1⟩ else none
  bestBlock := 0
  headBlocks := [3, 2]

theorem replayBlocks_recovers_sample :
    ∃ db batches, Runs.Reach sampleStorage.crash sampleDb db ∧ db.coins ⟨200, 0⟩ = none ∧
      sampleStorage.replayBlocks (fun _ => true) db = .ok batches ∧
      db.writeBatches batches =
        { coins := sampleTree.utxo (sampleTip 3), bestBlock := 3, headBlocks := [] } := by
  have hr : sampleTree.Readable (sampleTip 2) (sampleTip 3) := by
    refine ⟨by decide, rfl, by simp [sampleTip], fun _ => by decide, fun _ => rfl, ?_, ?_⟩
    · exact fun _ _ _ => ⟨rfl, rfl⟩
    · exact fun _ _ _ _ => rfl
  have h₀ : sampleDb.MidFlush 3 2 (sampleTree.utxo (sampleTip 2)) (sampleTree.utxo (sampleTip 3)) := by
    refine ⟨rfl, rfl, fun o => ?_⟩
    have hold : sampleTree.utxo (sampleTip 2) =
        Function.update (fun _ => none) ⟨200, 0⟩ (some ⟨⟨60, [op1]⟩, true, 1⟩) := rfl
    by_cases h2 : o = ⟨200, 0⟩
    · subst h2
      exact .inl rfl
    by_cases h3 : o = ⟨300, 0⟩
    · subst h3
      exact .inr rfl
    left
    rw [hold]
    simp [sampleDb, h2, h3]
  -- a crash after the first batch
  have hreach : Runs.Reach sampleStorage.crash sampleDb _ :=
    .next .start ((fun _ => true), 1) rfl
  obtain ⟨batches, h1, h2⟩ := replayBlocks_recovers (.inr (sampleTip_valid 2 (.inl rfl)))
    (sampleTip_valid 3 (.inr rfl)) hr h₀ hreach fun _ => true
  exact ⟨_, batches, hreach, rfl, h1, h2⟩

/-- The first flush stops after the batch with the coin of the new tip. -/
theorem interrupted_flush_recovers_sample : ∃ (db : CCoinsViewDB) (batches : List CDBBatch),
    db.headBlocks = [3, 0] ∧ sampleStorage.replayBlocks (fun _ => true) db = .ok batches ∧
    db.writeBatches batches =
      { coins := sampleTree.utxo (sampleTip 3), bestBlock := 3, headBlocks := [] } := by
  have hempty : Shows (fun _ => none) (.onTop (.base (fun _ => none) 0)) :=
    ⟨⟨fun _ _ => nofun, .empty _⟩, rfl⟩
  obtain ⟨cache, ⟨⟩, hcache⟩ := ViewCall.onCache_simulates
    (.addCoin ⟨300, 0⟩ ⟨⟨60, [op1]⟩, true, 1⟩ false) hempty rfl
  have hr : sampleTree.Readable [] (sampleTip 3) :=
    ⟨by decide, rfl, fun _ => rfl, fun h => absurd rfl h, fun h => absurd rfl h,
      fun _ _ _ => ⟨rfl, rfl⟩, fun _ _ _ _ => rfl⟩
  exact ⟨_, (interrupted_flush_recovers (.inl rfl) (sampleTip_valid 3 (.inr rfl)) hr rfl rfl rfl
    hcache (rfl : CCoinsViewDB.batchWrite ⟨fun _ => none, 0, []⟩ (fun _ => true) _ 3 = _)
    Nat.one_pos (by decide)).imp fun _ h => ⟨rfl, h⟩⟩

end BitcoinPurity
