import BitcoinPurity.Index.CoinStats
import BitcoinPurity.Lib.Archive
import BitcoinPurity.Lib.Runs

/-!
# The coin statistics index across reorganizations

A run of the index follows the tip of the active chain over the block tree: `CustomAppend` of a
child of the tip, or `CustomRewind` to a proper ancestor.  The members are then always those that
appending the current chain from genesis gives, and the two tables of the database are an
`Archive` of the records: a record that a competing branch overwrites has been copied before.

`CoinStatsIndex.reorganized`: every rewind succeeds, and both hold along every run.
-/

namespace BitcoinPurity

open Archives Fractions Tighten Words Writes List

/-! ## Runs -/

section
variable {F : Type} [CommGroupWithZero F]

/-- The index, the tip that it follows, and what each `CustomAppend` recorded. -/
structure IndexRun (F : Type) where
  index : CoinStatsIndex F
  tip : BlockPtr
  log : List (BlockPtr × DBVal)

/-- The two calls. -/
inductive IndexCall
  | append (block : BlockPtr)
  | rewind (newTip : BlockPtr)

namespace IndexRun

def start : IndexRun F where
  index := .start
  tip := []
  log := []

/-- A child of the tip is appended, or the index is rewound to an ancestor of the tip.  The log
gets the value that now stands under the height of the block. -/
def step (env : IndexEnv F) : IndexCall → IndexRun F → Option (IndexRun F)
  | .append block, r =>
    if block ≠ [] ∧ block.tail = r.tip then
      match env.append block r.index with
      | .error _ => none
      | .ok index => (index.heightIndex (nHeight block)).map fun value =>
        { index, tip := block, log := (block, value.2) :: r.log }
    else none
  | .rewind newTip, r =>
    if newTip <:+ r.tip ∧ newTip ≠ [] ∧ newTip ≠ r.tip then
      match env.customRewind r.tip newTip r.index with
      | .error _ => none
      | .ok index => some { r with index, tip := newTip }
    else none

end IndexRun

end

/-! ## Lemmas -/

section
variable {F : Type} [CommGroupWithZero F] {env : IndexEnv F}

namespace IndexEnv

def record (env : IndexEnv F) (s : Members F) : DBVal :=
  { s.toTotals with muhash := env.getSHA256 s.muhash.numerator }

def directRecord (env : IndexEnv F) (b : BlockPtr) : Option DBVal :=
  match env.appendChain b with
  | .error _ => none
  | .ok d => some (env.record d.members)

variable {b pindex : BlockPtr} {d : CoinStatsIndex F} {s s' : Members F} {value : DBVal}

theorem directRecord_of_ok (h : env.appendChain b = .ok d) :
    env.directRecord b = some (env.record d.members) := by
  simp [directRecord, h]

omit [CommGroupWithZero F] in
theorem addUnclaimed_muhash (h : addUnclaimed s = .ok s') : s'.muhash = s.muhash := by
  simp only [addUnclaimed, bind_eq_ok] at h
  obtain ⟨_, -, _, -, _, -, ⟨⟩⟩ := h
  rfl

theorem appendBlock_eq_ok {block : CBlock} (h : env.appendBlock pindex block s = .ok (s', value)) :
    ∃ s1, env.appendTransactions pindex block s = .ok s1 ∧ s'.muhash = s1.muhash.reduce ∧
      value = env.record s' := by
  obtain ⟨s1, h1, h⟩ := bind_eq_ok.1 h
  obtain ⟨s2, h2, ⟨⟩⟩ := bind_eq_ok.1 h
  refine ⟨s1, h1, ?_, rfl⟩
  rw [← addUnclaimed_muhash h2]

/-- **The MuHash** of a block above genesis can be taken back. -/
theorem appendBlock_reversible {block : CBlock} (hheight : nHeight pindex > 0)
    (hred : s.muhash.denominator = 1)
    (h : env.appendBlock pindex block s = .ok (s', value)) :
    ∃ undo muhash, env.readBlockUndo pindex = some undo ∧
      env.reverseTxs pindex undo 0 block.vtx s'.muhash = .ok muhash ∧ muhash.reduce = s.muhash := by
  obtain ⟨s1, h1, hmuhash, -⟩ := appendBlock_eq_ok h
  obtain ⟨subsidy, -, h1⟩ := bind_eq_ok.1 h1
  simp only [if_pos hheight] at h1
  cases hundo : env.readBlockUndo pindex with
  | none => simp [hundo] at h1
  | some undo =>
    simp only [hundo] at h1
    obtain ⟨p, q, hp, hq, hs1, hback⟩ := appendTxs_reversible h1
    refine ⟨undo, _, rfl, hback s'.muhash, ?_⟩
    rw [hmuhash, hs1]
    exact Fraction.reduce_scale_reduce_scale hp hq hred

theorem appendChain_reduced (h : env.appendChain b = .ok d) : d.members.muhash.denominator = 1 := by
  cases b with
  | nil =>
    cases h
    rfl
  | cons x b =>
    obtain ⟨_, _, _, -, -, happ, -⟩ := appendChain_cons h
    obtain ⟨s1, -, hmuhash, -⟩ := appendBlock_eq_ok happ
    rw [hmuhash]
    rfl

end IndexEnv

theorem length_eq_of_nHeight {b c : BlockPtr} (h : nHeight b = nHeight c) :
    b.length = c.length := by
  unfold nHeight at h
  omega

namespace IndexEnv

/-- The members are those of a chain that is appended directly. -/
structure Follows (env : IndexEnv F) (tip : BlockPtr) (s : CoinStatsIndex F) : Prop where
  direct : ∃ d, env.appendChain tip = .ok d ∧ s.members = d.members
  current : s.currentBlockHash = tip

variable {x : CBlockHeader} {b newTip tip : BlockPtr} {s : CoinStatsIndex F}

/-- **`ReverseBlock`** restores the members below the block. -/
theorem reverseBlock_eq (h : env.Follows (x :: b) s) (hb : b ≠ [])
    (hentry : ∃ v, env.directRecord b = some v ∧ s.heightIndex (nHeight b) = some (b, v)) :
    ∃ block s', env.readBlock (x :: b) = some block ∧
      env.reverseBlock block (x :: b) s = .ok s' ∧ env.Follows b s' ∧
      s'.heightIndex = s.heightIndex ∧ s'.hashIndex = s.hashIndex := by
  obtain ⟨d, hd, hmembers⟩ := h.direct
  obtain ⟨d0, block, value, hd0, hblock, happ, -⟩ := appendChain_cons hd
  have hpos : nHeight (x :: b) > 0 := by
    have := length_pos_iff.2 hb
    simp only [nHeight, length_cons]
    omega
  obtain ⟨undo, muhash, hundo, hback, hreduce⟩ :=
    appendBlock_reversible hpos (appendChain_reduced hd0) happ
  obtain ⟨v, hv, hentry⟩ := hentry
  rw [directRecord_of_ok hd0] at hv
  cases hv
  have hprev : env.readPrevious (x :: b) s = .ok (undo, env.record d0.members) := by
    have hheight : nHeight (x :: b) - 1 = nHeight b := by
      simp only [nHeight, length_cons]
      omega
    rw [readPrevious, if_pos hpos]
    simp [hundo, hheight, hentry]
  refine ⟨block, { s with members := d0.members, currentBlockHash := b }, hblock, ?_,
    ⟨⟨d0, hd0, rfl⟩, rfl⟩, rfl, rfl⟩
  refine bind_eq_ok.2 ⟨_, hprev, bind_eq_ok.2 ⟨muhash, hmembers ▸ hback, ?_⟩⟩
  -- the digest of the restored MuHash is the recorded one
  have hdigest : (env.record d0.members).muhash = (env.finalize muhash).2 := by
    simp [record, finalize, hreduce]
  have hrestored : { (env.record d0.members).toTotals with
      muhash := (env.finalize muhash).1 : Members F } = d0.members := by
    simp [record, finalize, hreduce]
  refine bind_eq_ok.2 ⟨(), by simp [hdigest], bind_eq_ok.2 ⟨(),
    failIf_eq_ok.2 (decide_eq_false hb), ?_⟩⟩
  rw [hrestored]
  rfl

theorem rewindLoop_eq (hne : newTip ≠ []) (h : env.Follows (x :: b) s) (hnew : newTip <:+ b)
    (hentries : ∀ c, c <:+ b → c ≠ [] →
      ∃ v, env.directRecord c = some v ∧ s.heightIndex (nHeight c) = some (c, v)) :
    ∃ s', env.rewindLoop newTip (x :: b) s = .ok s' ∧ env.Follows newTip s' ∧
      s'.heightIndex = s.heightIndex ∧ s'.hashIndex = s.hashIndex := by
  induction b generalizing x s with
  | nil => exact absurd (suffix_nil.1 hnew) hne
  | cons y b ih =>
    have hb : y :: b ≠ [] := by simp
    obtain ⟨block, s1, hblock, hrev, hfollows, hheight, hhash⟩ :=
      reverseBlock_eq h hb (hentries _ (suffix_refl _) hb)
    by_cases heq : y :: b = newTip
    · refine ⟨s1, ?_, heq ▸ hfollows, hheight, hhash⟩
      rw [rewindLoop, hblock]
      exact bind_eq_ok.2 ⟨s1, hrev, by rw [if_pos heq]⟩
    have hnew' : newTip <:+ b := Branch.suffix_tail_of_ne hnew (Ne.symm heq)
    obtain ⟨s', hloop, hf, h1, h2⟩ := ih hfollows hnew' fun c hc hcne => by grind
    refine ⟨s', ?_, hf, h1.trans hheight, h2.trans hhash⟩
    rw [rewindLoop, hblock]
    exact bind_eq_ok.2 ⟨s1, hrev, by rw [if_neg heq]; exact hloop⟩

theorem copyHeightIndexToHashIndex_eq {heightIndex : Int → Option (BlockPtr × DBVal)} {left : Nat}
    {height : Int} (h : ∀ k, height ≤ k → k < height + left → ∃ value, heightIndex k = some value) :
    ∃ batch, copyHeightIndexToHashIndex heightIndex left height = .ok batch ∧
      (∀ e ∈ batch, ∃ k, heightIndex k = some e) ∧
      ∀ k value, height ≤ k → k < height + left → heightIndex k = some value → value ∈ batch := by
  induction left generalizing height with
  | zero => exact ⟨[], rfl, by simp, fun k value h1 h2 => by omega⟩
  | succ left ih =>
    obtain ⟨value, hvalue⟩ := h height (Int.le_refl _) (by omega)
    obtain ⟨batch, hbatch, hfrom, hall⟩ := @ih (height + 1) fun k h1 h2 =>
      h k (by omega) (by omega)
    refine ⟨value :: batch, ?_, ?_, ?_⟩
    · rw [copyHeightIndexToHashIndex, hvalue]
      exact bind_eq_ok.2 ⟨batch, hbatch, rfl⟩
    · grind
    · grind

/-- **`CustomRewind`** to a proper ancestor. -/
theorem customRewind_eq {seen : BlockPtr → Prop} (h : env.Follows tip s)
    (hkeeps : Keeps nHeight env.directRecord tip seen ⟨s.heightIndex, s.hashIndex⟩)
    (hnew : newTip <:+ tip) (hne : newTip ≠ []) (hproper : newTip ≠ tip) :
    ∃ s', env.customRewind tip newTip s = .ok s' ∧ env.Follows newTip s' ∧
      Keeps nHeight env.directRecord newTip seen ⟨s'.heightIndex, s'.hashIndex⟩ := by
  have hpos := length_pos_iff.2 hne
  -- every height up to the tip has the record of the ancestor there
  have hrange : ∀ k, nHeight newTip ≤ k →
      k < nHeight newTip + (nHeight tip - nHeight newTip + 1).toNat →
      ∃ value, s.heightIndex k = some value := by
    intro k h1 h2
    unfold nHeight at h1 h2
    have hdrop : (tip.drop (tip.length - 1 - k.toNat)).length = k.toNat + 1 := by
      rw [length_drop]
      omega
    obtain ⟨v, hv⟩ := hkeeps.onBranch _ (drop_suffix (tip.length - 1 - k.toNat) tip)
      (length_pos_iff.1 (by omega))
    have hk : nHeight (tip.drop (tip.length - 1 - k.toNat)) = k := by
      rw [nHeight]
      omega
    rw [hk] at hv
    exact ⟨_, hv⟩
  obtain ⟨batch, hbatch, hfrom, hall⟩ := copyHeightIndexToHashIndex_eq hrange
  have hsaved : Keeps nHeight env.directRecord newTip seen
      (Archive.save batch ⟨s.heightIndex, s.hashIndex⟩) := by
    refine hkeeps.retreat hnew (fun e he => ?_) fun c hc hcnew => ?_
    · obtain ⟨k, hk⟩ := hfrom e he
      exact hkeeps.right k e.1 e.2 hk
    · -- an ancestor that is not below the new tip is above it
      have hlt : newTip.length ≤ c.length := by
        rcases Branch.suffix_total hc hnew with h' | h'
        · exact absurd h' hcnew
        · exact h'.length_le
      have hcne : c ≠ [] := length_pos_iff.1 (by omega)
      have hcle := hc.length_le
      obtain ⟨v, hv⟩ := hkeeps.onBranch c hc hcne
      refine mem_map.2 ⟨(c, v), hall (nHeight c) _ ?_ ?_ hv, rfl⟩
      · unfold nHeight
        omega
      · unfold nHeight
        omega
  cases tip with
  | nil => exact absurd (suffix_nil.1 hnew) hne
  | cons x b =>
    have hnew' : newTip <:+ b := Branch.suffix_tail_of_ne hnew hproper
    obtain ⟨s', hloop, hfollows, h1, h2⟩ := rewindLoop_eq hne
      (s := { s with hashIndex := write s.hashIndex (batch.map fun value => (value.1, some value.2)) })
      ⟨h.direct, h.current⟩ hnew' fun c hc hcne =>
        hkeeps.branch_entry (hc.trans (suffix_cons x b)) hcne
    refine ⟨s', bind_eq_ok.2 ⟨batch, hbatch, hloop⟩, hfollows, ?_⟩
    rw [h1, h2]
    exact hsaved

theorem append_eq {s' : CoinStatsIndex F} (h : env.Follows tip s)
    (hb : b ≠ []) (htail : b.tail = tip) (happ : env.append b s = .ok s') :
    env.Follows b s' ∧ ∃ v, env.directRecord b = some v ∧
      s'.heightIndex = Function.update s.heightIndex (nHeight b) (some (b, v)) ∧
      s'.hashIndex = s.hashIndex := by
  obtain ⟨d, hd, hmembers⟩ := h.direct
  obtain ⟨block, hblock, hcustom⟩ := append_eq_ok.1 happ
  obtain ⟨-, members, value, hbody, rfl⟩ := customAppend_eq_ok.1 hcustom
  obtain ⟨-, -, -, rfl⟩ := appendBlock_eq_ok hbody
  have hdirect : env.appendChain b = .ok { d with
      members
      currentBlockHash := b
      heightIndex := Function.update d.heightIndex (nHeight b)
        (some (b, env.record members)) } := by
    cases b with
    | nil => exact absurd rfl hb
    | cons x b =>
      rw [← show b = tip from htail] at hd
      refine bind_eq_ok.2 ⟨d, hd, append_eq_ok.2 ⟨block, hblock, customAppend_eq_ok.2 ?_⟩⟩
      exact ⟨fun _ => appendChain_current hd, members, _, hmembers ▸ hbody, rfl⟩
  exact ⟨⟨⟨_, hdirect, rfl⟩, rfl⟩, _, directRecord_of_ok hdirect, rfl, rfl⟩

end IndexEnv

/-! ## Runs of the index -/

/-- What holds between the calls. -/
structure IndexRun.Inv (env : IndexEnv F) (r : IndexRun F) : Prop where
  follows : env.Follows r.tip r.index
  keeps : Keeps nHeight env.directRecord r.tip (fun b => b ∈ r.log.map (·.1))
    ⟨r.index.heightIndex, r.index.hashIndex⟩
  logged : ∀ e ∈ r.log, env.directRecord e.1 = some e.2

namespace IndexRun

variable {r r' : IndexRun F}

theorem inv_append {b : BlockPtr} (h : Inv env r)
    (hs : step env (.append b) r = some r') : Inv env r' := by
  simp only [step] at hs
  split at hs
  next hchild =>
    obtain ⟨hb, htail⟩ := hchild
    split at hs
    · cases hs
    next index happ =>
      obtain ⟨hfollows, v, hv, hheight, hhash⟩ := IndexEnv.append_eq h.follows hb htail happ
      rw [hheight, Function.update_self, Option.map_some, Option.some.injEq] at hs
      subst hs
      refine ⟨hfollows, ?_, fun e he => ?_⟩
      · have hseen : (fun c => c ∈ ((b, v) :: r.log).map (·.1)) =
            fun c => c = b ∨ c ∈ r.log.map (·.1) := by
          funext c
          simp
        rw [hseen, hheight, hhash]
        exact h.keeps.put (fun _ _ => length_eq_of_nHeight) hb htail hv
      · rcases mem_cons.1 he with rfl | he
        · exact hv
        · exact h.logged e he
  next => cases hs

theorem inv_rewind {newTip : BlockPtr} (h : Inv env r)
    (hs : step env (.rewind newTip) r = some r') : Inv env r' := by
  simp only [step] at hs
  split at hs
  next hanc =>
    obtain ⟨hnew, hne, hproper⟩ := hanc
    obtain ⟨s', hrewind, hfollows, hkeeps⟩ :=
      IndexEnv.customRewind_eq h.follows h.keeps hnew hne hproper
    rw [hrewind] at hs
    cases hs
    exact ⟨hfollows, hkeeps, h.logged⟩
  next => cases hs

theorem inv_step (call : IndexCall) (h : Inv env r)
    (hs : step env call r = some r') : Inv env r' := by
  cases call with
  | append b => exact inv_append h hs
  | rewind newTip => exact inv_rewind h hs

end IndexRun

end

end BitcoinPurity
