import BitcoinPurity.Lib.Runs
import BitcoinPurity.Mempool.Reorg

/-!
# Runs of the memory pool

Calls that change the pool one after the other, each one under its own conditions: a change set
removes entries with their descendants and adds others parents first, a connected block has every
transaction of the pool after its parents, and transactions of disconnected blocks have no parents
in the pool but others of them.

`bookkeeping`: after every call the pool is consistent, and no call fails an assertion.
`staleAfterBlock` shows why blocks have to come with the parents.
`removeForBlock_exact`, `expire_exact`: what a connected block and `Expire` leave in the pool.
`sortForBlock_parentsFirst`: the miner's order of a package.
-/

namespace BitcoinPurity

open Each Explore Relation Option List

namespace CTxMemPool

variable {pool : CTxMemPool} {vtx : List CTransaction}

/-! ## Calls -/

/-- The transactions of disconnected blocks, each in the pool that those before it leave. -/
def Resurrects : List Resurrection → CTxMemPool → List Nat → Prop
  | [], _, _ => True
  | r :: rs, pool, done => Resurrectable pool done r ∧ ∀ pool' done',
      resurrect r (pool, done) = some (pool', done') → Resurrects rs pool' done'

/-- **Re-adding the transactions of disconnected blocks.** -/
theorem Consistent.readdDisconnected (h : Consistent pool) (limits : MemPoolLimits)
    {rs : List Resurrection} (hrs : Resurrects rs pool []) :
    ∃ pool', pool.readdDisconnected limits rs = some pool' ∧ Consistent pool' := by
  obtain ⟨pool1, done, heq, h1⟩ : ∃ pool1 done, rs.foldlM (fun s r => resurrect r s) (pool, []) =
      some (pool1, done) ∧ Readded done pool1 := by
    suffices ∀ pool done, Readded done pool → Resurrects rs pool done → ∃ pool1 done1,
        rs.foldlM (fun s r => resurrect r s) (pool, done) = some (pool1, done1) ∧
          Readded done1 pool1 from
      this pool [] ⟨consistentBut_empty.2 h, nodup_nil, by simp, List.Pairwise.nil⟩ hrs
    clear hrs h
    induction rs with
    | nil => exact fun pool done h _ => ⟨pool, done, rfl, h⟩
    | cons r rs ih =>
      intro pool done h hrs
      obtain ⟨pool1, done1, heq1, h1⟩ := h.resurrect hrs.1
      obtain ⟨pool2, done2, heq2, h2⟩ := ih pool1 done1 h1 (hrs.2 pool1 done1 heq1)
      grind
  obtain ⟨pool2, heq2, h2⟩ := h1.updateTransactionsFromBlock limits
  refine ⟨pool2, ?_, h2⟩
  rw [CTxMemPool.readdDisconnected, heq]
  exact heq2

/-- What changes the pool. -/
inductive Call
  | apply (changeset : ChangeSet)
  | removeRecursive (origTx : CTransaction)
  | removeForBlock (vtx : List CTransaction)
  | prioritiseTransaction (hash : Nat) (nFeeDelta : Int)
  | expire (time : Int)
  | trimToSize (env : TrimEnv)
  | readdDisconnected (limits : MemPoolLimits) (rs : List Resurrection)

def Call.run : Call → CTxMemPool → Option CTxMemPool
  | .apply changeset, pool => pool.apply changeset
  | .removeRecursive origTx, pool => pool.removeRecursive origTx
  | .removeForBlock vtx, pool => pool.removeForBlock vtx
  | .prioritiseTransaction hash nFeeDelta, pool => pool.prioritiseTransaction hash nFeeDelta
  | .expire time, pool => pool.expire time
  | .trimToSize env, pool => (pool.trimToSize env).map Prod.fst
  | .readdDisconnected limits rs, pool => pool.readdDisconnected limits rs

def Call.Permitted : Call → CTxMemPool → Prop
  | .apply changeset, pool => Applicable pool changeset
  | .removeForBlock vtx, pool => ParentsFirst pool vtx
  | .readdDisconnected _ rs, pool => Resurrects rs pool []
  | _, _ => True

theorem Consistent.call (h : Consistent pool) {c : Call} (hc : c.Permitted pool) :
    ∃ pool', c.run pool = some pool' ∧ Consistent pool' := by
  have h0 := consistentBut_empty.2 h
  cases c with
  | apply changeset => exact h.apply hc
  | removeRecursive origTx =>
    obtain ⟨pool', -, heq, -, h', -⟩ := h0.removeRecursive origTx
    exact ⟨pool', heq, consistentBut_empty.1 h'⟩
  | removeForBlock vtx =>
    obtain ⟨pool', heq, h', -⟩ := h.removeForBlock hc
    exact ⟨pool', heq, h'⟩
  | prioritiseTransaction hash nFeeDelta => exact h.prioritiseTransaction hash nFeeDelta
  | expire time =>
    obtain ⟨pool', -, heq, -, h'⟩ := h0.expire time
    exact ⟨pool', heq, consistentBut_empty.1 h'⟩
  | trimToSize env =>
    obtain ⟨pool', out, -, heq, -, h'⟩ := h0.trimToSize env
    exact ⟨pool', by rw [Call.run, heq, map_some], consistentBut_empty.1 h'⟩
  | readdDisconnected limits rs => exact h.readdDisconnected limits hc

/-- Every call is made under its condition in the pool that those before it leave. -/
def Permitted : List Call → CTxMemPool → Prop
  | [], _ => True
  | c :: cs, pool => c.Permitted pool ∧ ∀ pool', c.run pool = some pool' → Permitted cs pool'

/-! ## A chain of three -/

def chainEntry (hash parent : Nat) (nTime : Int := 7) : CTxMemPoolEntry :=
  .make ⟨[⟨⟨parent, 0⟩, [], 0, []⟩], [⟨50, []⟩], 2, 0, hash, hash⟩ 10 400 100 1 nTime false {}
    (by decide) (by decide)

def chainOfThree : ChangeSet := { entryVec := [chainEntry 1 9, chainEntry 2 1, chainEntry 3 2] }

theorem chainEntry_fresh (hash parent : Nat) (nTime : Int) : (chainEntry hash parent nTime).Fresh :=
  CTxMemPoolEntry.fresh_make _ _ _ _ _ _ _ _ _ _

theorem applicable_chainOfThree : Applicable {} chainOfThree :=
  Joins.applicable ⟨by simp [chainEntry_fresh], by decide, by decide, by decide, by decide,
    by decide⟩

/-- The three transactions are added, the first is confirmed, and its block is disconnected. -/
def confirmAndDisconnect : List Call :=
  [.apply chainOfThree, .removeForBlock [(chainEntry 1 9).tx],
    .readdDisconnected .noLimits [.accepted { entryVec := [chainEntry 1 9] }]]

theorem permitted_confirmAndDisconnect : Permitted confirmAndDisconnect {} := by
  refine ⟨applicable_chainOfThree, fun pool heq => ?_⟩
  have hrun : (({} : CTxMemPool).apply chainOfThree).map (fun pool =>
      (decide (ParentsFirst pool [(chainEntry 1 9).tx]),
        (pool.removeForBlock [(chainEntry 1 9).tx]).map fun pool' =>
          decide (pool'.mapTx = {2, 3} ∧
            (∀ o ∈ (chainEntry 1 9).inputs, ∀ t ∈ pool'.mapTx, o ∉ (pool'.entry t).inputs) ∧
            pool'.findParents (chainEntry 1 9) = ∅))) = some (true, some true) := by
    decide +kernel
  rw [show ({} : CTxMemPool).apply chainOfThree = some pool from heq] at hrun
  obtain ⟨hfirst, hrun⟩ := Prod.mk.inj (some.inj hrun)
  have hfirst := of_decide_eq_true hfirst
  refine ⟨hfirst, fun pool' heq' => ⟨?_, fun _ _ => trivial⟩⟩
  rw [show pool.removeForBlock [(chainEntry 1 9).tx] = some pool' from heq'] at hrun
  obtain ⟨hmap, hconflict, hparents⟩ := of_decide_eq_true (some.inj hrun)
  refine ⟨⟨⟨Finset.empty_subset _, by simp, by simp⟩, chainEntry 1 9, rfl, chainEntry_fresh 1 9 7,
    not_mem_nil, ?_, by decide, ?_, ?_, ?_⟩, fun _ _ _ => trivial⟩
  · rw [hmap]
    decide
  · simpa using hconflict
  · simp
  · simp [hparents]

/-- **Bookkeeping.**  After every call of a run from the empty pool, links, totals, `mapNextTx`
and the sums of the pool are those recomputed from its transactions, and no call has failed an
assertion. -/
theorem bookkeeping {calls : List Call} (h : Permitted calls {}) (n : Nat) :
    ∃ pool, Runs.runAll Call.run (calls.take n) {} = some pool ∧ Consistent pool := by
  suffices ∀ pool, Consistent pool → Permitted calls pool →
      ∃ pool', Runs.runAll Call.run (calls.take n) pool = some pool' ∧ Consistent pool' from
    this {} consistent_empty h
  clear h
  induction calls generalizing n with
  | nil => exact fun pool hpool _ => ⟨pool, by rw [take_nil]; rfl, hpool⟩
  | cons c calls ih =>
    intro pool hpool hcalls
    cases n with
    | zero => exact ⟨pool, rfl, hpool⟩
    | succ n =>
      obtain ⟨pool₁, heq₁, h₁⟩ := hpool.call hcalls.1
      obtain ⟨pool₂, heq₂, h₂⟩ := ih n pool₁ h₁ (hcalls.2 pool₁ heq₁)
      refine ⟨pool₂, ?_, h₂⟩
      rw [take_succ_cons, Runs.runAll, heq₁, bind_some, heq₂]

theorem bookkeeping_confirmAndDisconnect : Permitted confirmAndDisconnect {} ∧
    ∃ pool, Runs.runAll Call.run confirmAndDisconnect {} = some pool ∧ Consistent pool :=
  ⟨permitted_confirmAndDisconnect, bookkeeping permitted_confirmAndDisconnect 3⟩

theorem Consistent.ancestorTotals_of_root (h : Consistent pool) {x : Nat} (hx : x ∈ pool.mapTx)
    (hroot : pool.findParents (pool.entry x) = ∅) :
    (pool.entry x).ancestorTotals = (pool.entry x).weight := by
  classical
  refine (h.linked.ancestors x hx).trans ?_
  refine (congrArg _ (Finset.sum_eq_zero fun a ha => ?_)).trans (add_zero _)
  obtain ⟨p, -, hp⟩ := TransGen.tail'_iff.1 (Finset.mem_filter.1 ha).2
  rw [spends_iff_findParents hx, hroot] at hp
  exact absurd hp (Finset.notMem_empty p)

/-- **A block without the parent.**  When a block confirms the second of three transactions and the
first stays in the pool, the third still counts it as an ancestor. -/
theorem staleAfterBlock :
    Applicable {} chainOfThree ∧ ∃ pool pool', ({} : CTxMemPool).apply chainOfThree = some pool ∧
      pool.removeForBlock [(chainEntry 2 1).tx] = some pool' ∧ ¬ Consistent pool' := by
  have hrun : ((({} : CTxMemPool).apply chainOfThree).bind fun pool =>
      (pool.removeForBlock [(chainEntry 2 1).tx]).map fun pool' =>
        (decide (3 ∈ pool'.mapTx ∧ pool'.findParents (pool'.entry 3) = ∅),
          (pool'.entry 3).countWithAncestors)) = some (true, 2) := by decide +kernel
  obtain ⟨pool, heq, hrun⟩ := bind_eq_some_iff.1 hrun
  obtain ⟨pool', heq', hrun⟩ := map_eq_some_iff.1 hrun
  refine ⟨applicable_chainOfThree, pool, pool', heq, heq', fun h => ?_⟩
  obtain ⟨hmem, hcount⟩ := Prod.mk.inj hrun
  obtain ⟨hin, hroot⟩ := of_decide_eq_true hmem
  have hone : (pool'.entry 3).countWithAncestors = 1 :=
    congrArg Prod.fst (h.ancestorTotals_of_root hin hroot)
  omega

/-! ## What a block leaves -/

/-- An entry that is not in a block spends an outpoint that one of its transactions spends. -/
def Conflicts (pool : CTxMemPool) (vtx : List CTransaction) (c : Nat) : Prop :=
  c ∉ vtx.map CTransaction.hash ∧
    ∃ tx ∈ vtx, ∃ o ∈ tx.vin.map CTxIn.prevout, o ∈ (pool.entry c).inputs

instance (c : Nat) : Decidable (pool.Conflicts vtx c) := inferInstanceAs (Decidable (_ ∧ _))

instance (p c : Nat) : Decidable (pool.Spends p c) := inferInstanceAs (Decidable (_ ∧ _ ∧ _))

/-- A block that can be connected: a transaction of it that is in the pool comes after its parents
there, and after none that spends an outpoint of it.  Witness hashes tell transactions apart. -/
def Connectable (pool : CTxMemPool) (vtx : List CTransaction) : Prop :=
  pool.ParentsFirst vtx ∧
    (vtx.Pairwise fun a b => b.hash ∈ pool.mapTx →
      ∀ o ∈ a.vin.map CTxIn.prevout, o ∉ (pool.entry b.hash).inputs) ∧
    ∀ tx ∈ vtx, ∀ t ∈ pool.mapTx, (pool.entry t).tx.witnessHash = tx.witnessHash → t = tx.hash

instance : Decidable (pool.Connectable vtx) := inferInstanceAs (Decidable (_ ∧ _ ∧ _))

theorem clashesIn_iff (h : (vtx.Pairwise fun a b => b.hash ∈ pool.mapTx →
      ∀ o ∈ a.vin.map CTxIn.prevout, o ∉ (pool.entry b.hash).inputs) ∧
    ∀ tx ∈ vtx, ∀ t ∈ pool.mapTx, (pool.entry t).tx.witnessHash = tx.witnessHash → t = tx.hash)
    {c : Nat} (hc : c ∈ pool.mapTx) : pool.ClashesIn c vtx ↔ pool.Conflicts vtx c := by
  induction vtx with
  | nil => simp [ClashesIn, Conflicts]
  | cons tx vtx ih =>
    obtain ⟨hapart, hhash⟩ := h
    obtain ⟨hapart, htail⟩ := pairwise_cons.1 hapart
    rw [ClashesIn, ih ⟨htail, fun tx' htx' => hhash tx' (.tail _ htx')⟩, Conflicts, Conflicts,
      map_cons, mem_cons, not_or]
    constructor
    · rintro ⟨hne, ⟨-, o, ho, hoc⟩ | ⟨hnot, tx', htx', hshare⟩⟩
      · grind
      · exact ⟨⟨hne, hnot⟩, tx', .tail _ htx', hshare⟩
    · rintro ⟨⟨hne, hnot⟩, tx', htx', hshare⟩
      refine ⟨hne, ?_⟩
      rcases mem_cons.1 htx' with rfl | htx'
      · exact .inl ⟨fun heq => hne (hhash tx' (.head _) c hc heq), hshare⟩
      · exact .inr ⟨hnot, tx', htx', hshare⟩

/-- **What a connected block leaves** are exactly the entries that are not in it and neither are in
conflict with it nor descend from an entry that is. -/
theorem removeForBlock_exact (h : Consistent pool) (hv : pool.Connectable vtx) :
    ∃ pool', pool.removeForBlock vtx = some pool' ∧ (∀ x, (pool'.entry x).tx = (pool.entry x).tx) ∧
      (∀ x, x ∈ pool'.mapTx ↔ x ∈ pool.mapTx ∧ x ∉ vtx.map CTransaction.hash ∧
        ∀ c ∈ pool.mapTx, pool.Conflicts vtx c → ¬ ReflTransGen pool.Spends c x) ∧
      ∀ x ∈ pool'.mapTx, ∀ tx ∈ vtx, ∀ o ∈ tx.vin.map CTxIn.prevout,
        o ∉ (pool'.entry x).inputs := by
  obtain ⟨pool', heq, -, hleaves⟩ := h.removeForBlock hv.1
  obtain ⟨s, hs⟩ := hleaves.loses
  have hleaves := hleaves.congr (fun _ _ => Iff.rfl) fun c hc => clashesIn_iff hv.2 hc
  refine ⟨pool', heq, (hs.field CTxMemPoolEntry.tx ·), hleaves.mem,
    fun x hx tx htx o ho hox => ?_⟩
  obtain ⟨hin, hnot, hall⟩ := (hleaves.mem x).1 hx
  exact hall x hin ⟨hnot, tx, htx, o, ho, hs.inputs x ▸ hox⟩ .refl

/-- The first of three is confirmed, with a rival of the third. -/
theorem removeForBlock_exact_chain : ∃ pool pool',
    ({} : CTxMemPool).apply chainOfThree = some pool ∧
      pool.Connectable [(chainEntry 1 9).tx, (chainEntry 4 2).tx] ∧
      pool.removeForBlock [(chainEntry 1 9).tx, (chainEntry 4 2).tx] = some pool' ∧
      3 ∈ pool.mapTx ∧ 3 ∉ pool'.mapTx := by
  have hrun : (({} : CTxMemPool).apply chainOfThree).map (fun pool =>
      decide (pool.Connectable [(chainEntry 1 9).tx, (chainEntry 4 2).tx] ∧ 3 ∈ pool.mapTx ∧
        pool.Conflicts [(chainEntry 1 9).tx, (chainEntry 4 2).tx] 3)) = some true := by
    decide +kernel
  obtain ⟨pool, heq, hcons⟩ := consistent_empty.apply applicable_chainOfThree
  rw [heq, map_some, some.injEq, decide_eq_true_eq] at hrun
  obtain ⟨hv, hin, hcon⟩ := hrun
  obtain ⟨pool', heq', -, hmem, -⟩ := removeForBlock_exact hcons hv
  exact ⟨pool, pool', heq, hv, heq', hin, fun hx => ((hmem 3).1 hx).2.2 3 hin hcon .refl⟩

/-- **Blocks that cannot be connected.**  A block has the second of three transactions without its
parent and a rival of this parent: the third stays, although it descends from an entry in conflict.
A block has a rival of the first and then the first itself: the second goes, although no entry
outside the block is in conflict. -/
theorem removeForBlock_disordered : ∃ pool pool1 pool2,
    ({} : CTxMemPool).apply chainOfThree = some pool ∧ pool.Consistent ∧
      pool.removeForBlock [(chainEntry 2 1).tx, (chainEntry 4 9).tx] = some pool1 ∧
      3 ∈ pool1.mapTx ∧ 1 ∈ pool.mapTx ∧ ReflTransGen pool.Spends 1 3 ∧
      pool.Conflicts [(chainEntry 2 1).tx, (chainEntry 4 9).tx] 1 ∧
      pool.removeForBlock [(chainEntry 4 9).tx, (chainEntry 1 9).tx] = some pool2 ∧
      2 ∈ pool.mapTx ∧ 2 ∉ pool2.mapTx ∧
      ∀ c ∈ pool.mapTx, ¬ pool.Conflicts [(chainEntry 4 9).tx, (chainEntry 1 9).tx] c := by
  have hrun : (({} : CTxMemPool).apply chainOfThree).bind (fun pool =>
      (pool.removeForBlock [(chainEntry 2 1).tx, (chainEntry 4 9).tx]).bind fun pool1 =>
      (pool.removeForBlock [(chainEntry 4 9).tx, (chainEntry 1 9).tx]).map fun pool2 =>
        decide ((3 ∈ pool1.mapTx ∧ pool.Spends 1 2 ∧ pool.Spends 2 3) ∧
          pool.Conflicts [(chainEntry 2 1).tx, (chainEntry 4 9).tx] 1 ∧ 2 ∉ pool2.mapTx ∧
          ∀ c ∈ pool.mapTx, ¬ pool.Conflicts [(chainEntry 4 9).tx, (chainEntry 1 9).tx] c)) =
      some true := by decide +kernel
  obtain ⟨pool, heq, hcons⟩ := consistent_empty.apply applicable_chainOfThree
  rw [heq, bind_some, bind_eq_some_iff] at hrun
  obtain ⟨pool1, heq1, hrun⟩ := hrun
  obtain ⟨pool2, heq2, hrun⟩ := map_eq_some_iff.1 hrun
  obtain ⟨⟨hin, h12, h23⟩, hcon, hgone, hnone⟩ := of_decide_eq_true hrun
  exact ⟨pool, pool1, pool2, heq, hcons, heq1, hin, h12.1, .tail (.single h12) h23, hcon, heq2,
    h12.2.1, hgone, hnone⟩

/-! ## The order of a package in a block -/

/-- `CompareTxIterByAncestorCount`, with `CompareIteratorByHash`. -/
def compareTxIterByAncestorCount (a b : CTxMemPoolEntry) : Bool :=
  if a.countWithAncestors ≠ b.countWithAncestors then a.countWithAncestors < b.countWithAncestors
  else a.tx.hash < b.tx.hash

/-- `BlockAssembler::SortForBlock`. -/
def sortForBlock (pool : CTxMemPool) (package : Finset Nat) : List Nat :=
  (ascending package.card package).mergeSort fun a b =>
    !compareTxIterByAncestorCount (pool.entry b) (pool.entry a)

theorem Consistent.countWithAncestors_lt (h : Consistent pool) {p c : Nat} (hpc : pool.Spends p c) :
    (pool.entry p).countWithAncestors < (pool.entry c).countWithAncestors := by
  classical
  have hcount : ∀ x ∈ pool.mapTx, (pool.entry x).countWithAncestors =
      1 + (pool.mapTx.filter fun a => TransGen pool.Spends a x).card := by
    intro x hx
    simpa [CTxMemPoolEntry.ancestorTotals, CTxMemPoolEntry.weight, Prod.fst_sum] using
      congrArg Prod.fst (h.linked.ancestors x hx)
  -- the parent's ancestors are the child's, and the parent is one of these only
  have hss : pool.mapTx.filter (TransGen pool.Spends · p) ⊂
      pool.mapTx.filter (TransGen pool.Spends · c) := by
    rw [Finset.ssubset_iff_of_subset (Finset.monotone_filter_right _ fun _ _ ha => ha.tail hpc)]
    exact ⟨p, by simp [hpc.1, TransGen.single hpc], by simp [h.acyclic p]⟩
  have hlt := Finset.card_lt_card hss
  rw [hcount p hpc.1, hcount c hpc.2.1]
  omega

/-- **`SortForBlock` puts parents first**: it only reorders the package, and no transaction comes
before one whose output it spends. -/
theorem sortForBlock_parentsFirst (h : Consistent pool) (package : Finset Nat) :
    (pool.sortForBlock package).Perm (ascending package.card package) ∧
    (pool.sortForBlock package).Pairwise fun a b => ¬ pool.Spends b a := by
  refine ⟨mergeSort_perm _ _, (pairwise_mergeSort ?_ ?_ _).imp fun {a b} hle hba => ?_⟩
  · grind [compareTxIterByAncestorCount]
  · grind [compareTxIterByAncestorCount]
  · have hlt := h.countWithAncestors_lt hba
    simp [compareTxIterByAncestorCount, hlt.ne, hlt] at hle

theorem sortForBlock_parentsFirst_chain : ∃ pool, ({} : CTxMemPool).apply chainOfThree = some pool ∧
    (pool.sortForBlock {1, 2, 3}).Pairwise fun a b => ¬ pool.Spends b a :=
  (consistent_empty.apply applicable_chainOfThree).imp fun _ h =>
    ⟨h.1, (sortForBlock_parentsFirst h.2 _).2⟩

/-- **`Expire` removes** the entries older than `time` and their descendants, and no others. -/
theorem expire_exact (h : Consistent pool) (time : Int) :
    ∃ pool', pool.expire time = some pool' ∧ Consistent pool' ∧ ∀ x, x ∈ pool'.mapTx ↔
      x ∈ pool.mapTx ∧ ∀ a ∈ pool.mapTx, ReflTransGen pool.Spends a x →
        time ≤ (pool.entry a).nTime := by
  obtain ⟨r, pool', hr, hmem, heq, hloses, h'⟩ := (consistentBut_empty.2 h).removeAll
    (Finset.filter_subset (fun x => (pool.entry x).nTime < time) pool.mapTx)
  refine ⟨pool', ?_, consistentBut_empty.1 h', fun x => ?_⟩
  · rw [CTxMemPool.expire, hr]
    exact heq
  · rw [hloses.mem, hmem, spendsBut_empty]
    simp only [Finset.mem_filter]
    grind

/-- The second of three is old. -/
def agedChain : ChangeSet := { entryVec := [chainEntry 1 9 9, chainEntry 2 1, chainEntry 3 2 9] }

/-- The old entry goes with the one that spends it, and its parent stays. -/
theorem expire_exact_chain : ∃ pool pool', ({} : CTxMemPool).apply agedChain = some pool ∧
    pool.mapTx = {1, 2, 3} ∧ pool.expire 8 = some pool' ∧ Consistent pool' ∧ pool'.mapTx = {1} := by
  have hjoins : Applicable {} agedChain :=
    Joins.applicable ⟨by simp [chainEntry_fresh], by decide, by decide, by decide,
      by decide, by decide⟩
  obtain ⟨pool, heq, hcons⟩ := consistent_empty.apply hjoins
  obtain ⟨pool', heq', hcons', -⟩ := expire_exact hcons 8
  have hrun : (({} : CTxMemPool).apply agedChain).bind (fun pool => (pool.expire 8).map
      fun pool' => (pool.mapTx, pool'.mapTx)) = some ({1, 2, 3}, {1}) := by decide +kernel
  rw [heq, bind_some, heq', map_some, some.injEq, Prod.mk.injEq] at hrun
  exact ⟨pool, pool', heq, hrun.1, heq', hcons', hrun.2⟩

end CTxMemPool

end BitcoinPurity
