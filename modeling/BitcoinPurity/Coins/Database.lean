import BitcoinPurity.Coins.View
import BitcoinPurity.Lib.Tighten

/-!
# The coins database

`CCoinsViewDB::BatchWrite`: a flush reaches the disk as a sequence of batches, each of them
atomic.  The first one replaces `DB_BEST_BLOCK` by `DB_HEAD_BLOCKS`, which names the new and the
old tip, and the last one does the reverse; a crash leaves the database after any of them.

* `writeBatches_batchLoop`: after all batches the dirty entries are written and the best block is
  the new tip.
* `writeBatches_take`: after some of them each coin is the old or the new one, and the heads
  name both tips.
-/

namespace BitcoinPurity

open Tighten List Function

/-! ## Algorithm -/

/-- The database: its coins, `DB_BEST_BLOCK` (null if absent) and `DB_HEAD_BLOCKS` (empty if
absent). -/
structure CCoinsViewDB where
  coins : CoinsMap
  bestBlock : Nat := 0
  headBlocks : List Nat := []

/-- One entry of a `CDBBatch`. -/
inductive DbWrite
  | eraseBestBlock
  | writeHeadBlocks (hashes : List Nat)
  | coin (o : COutPoint) (coin : Option Coin)
  | eraseHeadBlocks
  | writeBestBlock (hashBlock : Nat)

abbrev CDBBatch := List DbWrite

namespace CCoinsViewDB

section

variable (db : CCoinsViewDB)

def apply : DbWrite → CCoinsViewDB
  | .eraseBestBlock => { db with bestBlock := 0 }
  | .writeHeadBlocks hashes => { db with headBlocks := hashes }
  | .coin o coin => { db with coins := update db.coins o coin }
  | .eraseHeadBlocks => { db with headBlocks := [] }
  | .writeBestBlock hashBlock => { db with bestBlock := hashBlock }

def writeBatch (batch : CDBBatch) : CCoinsViewDB := batch.foldl apply db

def writeBatches (batches : List CDBBatch) : CCoinsViewDB :=
  batches.foldl writeBatch db

/-- `old_tip` of `BatchWrite`: the best block, or in the middle of a replay the old head. -/
def oldTip (hashBlock : Nat) : Except BlockError Nat :=
  if db.bestBlock = 0 then
    match db.headBlocks with
    | [new, old] => do
      failIf (new != hashBlock) .assertFailed
      .ok old
    | _ => .ok 0
  else .ok db.bestBlock

end

def addEntry (batch : CDBBatch) (it : COutPoint × CCoinsCacheEntry) : CDBBatch :=
  if it.2.dirty then batch ++ [.coin it.1 it.2.unspent] else batch

/-- The loop of `BatchWrite`; `full` says when a batch has reached `batch_write_bytes`. -/
def batchLoop (full : CDBBatch → Bool) (hashBlock : Nat) :
    CDBBatch → List (COutPoint × CCoinsCacheEntry) → List CDBBatch
  | batch, [] => [batch ++ [.eraseHeadBlocks, .writeBestBlock hashBlock]]
  | batch, it :: entries =>
    if full (addEntry batch it) then addEntry batch it :: batchLoop full hashBlock [] entries
    else batchLoop full hashBlock (addEntry batch it) entries

/-- `CCoinsViewDB::BatchWrite`: the batches it writes, in order. -/
def batchWrite (db : CCoinsViewDB) (full : CDBBatch → Bool)
    (entries : List (COutPoint × CCoinsCacheEntry)) (hashBlock : Nat) :
    Except BlockError (List CDBBatch) := do
  failIf (hashBlock == 0) .assertFailed
  let oldTip ← db.oldTip hashBlock
  .ok (batchLoop full hashBlock [.eraseBestBlock, .writeHeadBlocks [hashBlock, oldTip]] entries)

/-! ## Lemmas -/

def writeDirty (coins : CoinsMap) (entries : List (COutPoint × CCoinsCacheEntry)) : CoinsMap :=
  entries.foldl (fun coins it =>
    if it.2.dirty then update coins it.1 it.2.unspent else coins) coins

theorem writeBatch_append (db : CCoinsViewDB) (batch batch' : CDBBatch) :
    db.writeBatch (batch ++ batch') = (db.writeBatch batch).writeBatch batch' :=
  foldl_append

theorem writeBatches_batchLoop (full : CDBBatch → Bool) (hashBlock : Nat) (batch : CDBBatch)
    (entries : List (COutPoint × CCoinsCacheEntry)) (db : CCoinsViewDB) :
    db.writeBatches (batchLoop full hashBlock batch entries) =
      { coins := writeDirty (db.writeBatch batch).coins entries, bestBlock := hashBlock,
        headBlocks := [] } := by
  induction entries generalizing batch db with
  | nil =>
    show db.writeBatch (batch ++ _) = _
    rw [writeBatch_append]
    rfl
  | cons it entries ih =>
    have hentry : writeDirty (db.writeBatch batch).coins (it :: entries) =
        writeDirty (db.writeBatch (addEntry batch it)).coins entries := by
      unfold addEntry
      cases hd : it.2.dirty with
      | true =>
        rw [if_pos rfl, writeBatch_append]
        simp only [writeDirty, foldl_cons, hd]
        rfl
      | false => simp [writeDirty, hd]
    rw [hentry]
    unfold batchLoop
    split
    · show CCoinsViewDB.writeBatches (db.writeBatch (addEntry batch it)) _ = _
      rw [ih]
      rfl
    · exact ih _ db

theorem batchLoop_ne_nil (full : CDBBatch → Bool) (hashBlock : Nat) (batch : CDBBatch)
    (entries : List (COutPoint × CCoinsCacheEntry)) :
    batchLoop full hashBlock batch entries ≠ [] := by
  induction entries generalizing batch with
  | nil => simp [batchLoop]
  | cons it entries ih =>
    unfold batchLoop
    split
    · simp
    · exact ih _

theorem mem_dropLast_batchLoop {full : CDBBatch → Bool} {hashBlock : Nat} {batch b : CDBBatch}
    {entries : List (COutPoint × CCoinsCacheEntry)}
    (hb : b ∈ (batchLoop full hashBlock batch entries).dropLast) {w : DbWrite} (hw : w ∈ b) :
    w ∈ batch ∨ ∃ it ∈ entries, w = .coin it.1 it.2.unspent := by
  induction entries generalizing batch with
  | nil => cases hb
  | cons it entries ih =>
    simp only [mem_cons, exists_eq_or_imp, ← or_assoc]
    have hhead (h : w ∈ addEntry batch it) : w ∈ batch ∨ w = .coin it.1 it.2.unspent := by
      unfold addEntry at h
      split at h
      · simpa using h
      · exact .inl h
    unfold batchLoop at hb
    split at hb
    · rw [dropLast_cons_of_ne_nil (batchLoop_ne_nil _ _ _ _)] at hb
      grind
    · exact (ih hb).imp_left hhead

/-- In the middle of a flush from `old` to `new`: the heads name both tips, and each outpoint has
its old or its new coin. -/
structure MidFlush (new old : Nat) (coinsOld coinsNew : CoinsMap) (db : CCoinsViewDB) : Prop where
  heads : db.headBlocks = [new, old]
  noBest : db.bestBlock = 0
  mixture : ∀ o, db.coins o = coinsOld o ∨ db.coins o = coinsNew o

section
variable {new old : Nat} {coinsOld coinsNew : CoinsMap} {db : CCoinsViewDB}

theorem MidFlush.writeBatch {batch : CDBBatch} (h : MidFlush new old coinsOld coinsNew db)
    (hb : ∀ w ∈ batch, w ∈ [DbWrite.eraseBestBlock, .writeHeadBlocks [new, old]] ∨
      ∃ o, w = .coin o (coinsNew o)) :
    MidFlush new old coinsOld coinsNew (db.writeBatch batch) := by
  induction batch generalizing db with
  | nil => exact h
  | cons w batch ih =>
    refine ih ?_ fun w' hw' => hb w' (mem_cons_of_mem w hw')
    rcases hb w (by simp) with hw | ⟨o, rfl⟩
    · rw [mem_cons, mem_singleton] at hw
      rcases hw with rfl | rfl
      · exact ⟨h.heads, rfl, h.mixture⟩
      · exact ⟨rfl, h.noBest, h.mixture⟩
    refine ⟨h.heads, h.noBest, fun o' => ?_⟩
    show update db.coins o (coinsNew o) o' = coinsOld o' ∨
      update db.coins o (coinsNew o) o' = coinsNew o'
    by_cases heq : o' = o
    · rw [heq, update_self]
      exact .inr rfl
    · rw [update_of_ne heq]
      exact h.mixture o'

variable {full : CDBBatch → Bool} {entries : List (COutPoint × CCoinsCacheEntry)}

/-- **A crash** after some of the batches leaves the database in the middle of the flush. -/
theorem MidFlush.writeBatches_take (h : MidFlush new old coinsOld coinsNew db)
    (hentries : ∀ it ∈ entries, it.2.unspent = coinsNew it.1) {k : Nat}
    (hk : k < (batchLoop full new [.eraseBestBlock, .writeHeadBlocks [new, old]] entries).length) :
    MidFlush new old coinsOld coinsNew (db.writeBatches
      ((batchLoop full new [.eraseBestBlock, .writeHeadBlocks [new, old]] entries).take k)) := by
  set batches := batchLoop full new [.eraseBestBlock, .writeHeadBlocks [new, old]] entries
    with hbatches
  have hsub : ∀ b ∈ batches.take k, ∀ w ∈ b,
      w ∈ [DbWrite.eraseBestBlock, .writeHeadBlocks [new, old]] ∨ ∃ o, w = .coin o (coinsNew o) := by
    intro b hb w hw
    have hmem : b ∈ batches.dropLast := by
      rw [dropLast_eq_take]
      exact take_subset_take_left _ (by omega) hb
    rcases mem_dropLast_batchLoop hmem hw with h | ⟨it, hit, rfl⟩
    · exact .inl h
    · exact .inr ⟨it.1, by rw [hentries it hit]⟩
  generalize batches.take k = bs at hsub
  induction bs generalizing db with
  | nil => exact h
  | cons b bs ih =>
    exact ih (h.writeBatch (hsub b (by simp))) fun b' hb' => hsub b' (mem_cons_of_mem b hb')

theorem exists_head_batchLoop (full : CDBBatch → Bool) (hashBlock : Nat) (batch : CDBBatch)
    (entries : List (COutPoint × CCoinsCacheEntry)) :
    ∃ more rest, batchLoop full hashBlock batch entries = (batch ++ more) :: rest := by
  induction entries generalizing batch with
  | nil => exact ⟨_, [], rfl⟩
  | cons it entries ih =>
    obtain ⟨more, hmore⟩ : ∃ more, addEntry batch it = batch ++ more := by
      unfold addEntry
      split
      · exact ⟨_, rfl⟩
      · exact ⟨[], (append_nil _).symm⟩
    unfold batchLoop
    split
    · exact ⟨more, _, by rw [hmore]⟩
    · obtain ⟨more', rest, h⟩ := ih (addEntry batch it)
      exact ⟨more ++ more', rest, by rw [h, hmore, append_assoc]⟩

/-- A flush of a consistent database that a crash interrupts after its first batch leaves it in
the middle of the flush. -/
theorem writeBatches_take_midFlush (hcoins : db.coins = coinsOld)
    (hentries : ∀ it ∈ entries, it.2.unspent = coinsNew it.1) {k : Nat} (hpos : 0 < k)
    (hk : k < (batchLoop full new [.eraseBestBlock, .writeHeadBlocks [new, old]] entries).length) :
    MidFlush new old coinsOld coinsNew (db.writeBatches
      ((batchLoop full new [.eraseBestBlock, .writeHeadBlocks [new, old]] entries).take k)) := by
  have hstart : MidFlush new old coinsOld coinsNew
      (db.writeBatch [.eraseBestBlock, .writeHeadBlocks [new, old]]) :=
    ⟨rfl, rfl, fun o => .inl (congrFun hcoins o)⟩
  have hmid := hstart.writeBatches_take hentries hk
  obtain ⟨more, rest, hloop⟩ := exists_head_batchLoop full new
    [.eraseBestBlock, .writeHeadBlocks [new, old]] entries
  obtain ⟨k, rfl⟩ : ∃ j, k = j + 1 := ⟨k - 1, by omega⟩
  rw [hloop] at hmid ⊢
  -- setting the heads twice is setting them once
  exact hmid

end

end CCoinsViewDB

end BitcoinPurity
