import Mathlib.Data.List.GetD
import Mathlib.Data.List.Nodup
import BitcoinPurity.Consensus.Merkle

/-!
# Partial merkle trees

`CPartialMerkleTree` of `merkleblock.cpp`: a merkle tree from which everything is cut off that does
not lead to a matched transaction, stored as bits and hashes in depth-first order.

`extractMatches_sound_complete`: extracting what has been built gives back the root and the matches,
and whatever the bits and hashes are, where the root comes out the matches are leaves of the tree.
-/

namespace BitcoinPurity

open List Nat

/-! ## Algorithm -/

structure CPartialMerkleTree (H : Type) where
  nTransactions : Nat
  vBits : List Bool
  vHash : List H
  fBad : Bool
  deriving DecidableEq, Repr

def calcTreeWidth (nTransactions height : Nat) : Nat :=
  (nTransactions + 2 ^ height - 1) / 2 ^ height

def treeHeight (nTransactions : Nat) : Nat → Nat → Nat
  | 0, nHeight => nHeight
  | fuel + 1, nHeight =>
    if calcTreeWidth nTransactions nHeight > 1 then treeHeight nTransactions fuel (nHeight + 1)
    else nHeight

def minTransactionWeight : Nat := witnessScaleFactor * 60

section
variable {H : Type} [DecidableEq H] [Inhabited H] (hash : H → H → H)

/-- `CalcHash`, for a tree of as many transactions as there are hashes. -/
def calcHash (vTxid : List H) : Nat → Nat → H
  | 0, pos => vTxid.getD pos default
  | height + 1, pos =>
    let left := calcHash vTxid height (pos * 2)
    let right :=
      if pos * 2 + 1 < calcTreeWidth vTxid.length height then calcHash vTxid height (pos * 2 + 1)
      else left
    hash left right

/-- The loop over the transactions below a node. -/
def parentOfMatch (nTransactions : Nat) (vMatch : List Bool) (height pos : Nat) : Bool :=
  (List.range' (pos * 2 ^ height) (2 ^ height)).any fun p =>
    decide (p < nTransactions) && vMatch.getD p false

def traverseAndBuild (vTxid : List H) (vMatch : List Bool) :
    Nat → Nat → List Bool × List H → List Bool × List H
  | 0, pos, (vBits, vHash) =>
    (vBits ++ [parentOfMatch vTxid.length vMatch 0 pos], vHash ++ [calcHash hash vTxid 0 pos])
  | height + 1, pos, (vBits, vHash) =>
    let fParentOfMatch := parentOfMatch vTxid.length vMatch (height + 1) pos
    if fParentOfMatch then
      let state := traverseAndBuild vTxid vMatch height (pos * 2) (vBits ++ [fParentOfMatch], vHash)
      if pos * 2 + 1 < calcTreeWidth vTxid.length height then
        traverseAndBuild vTxid vMatch height (pos * 2 + 1) state
      else state
    else (vBits ++ [fParentOfMatch], vHash ++ [calcHash hash vTxid (height + 1) pos])

def CPartialMerkleTree.make (vTxid : List H) (vMatch : List Bool) : CPartialMerkleTree H :=
  let nHeight := treeHeight vTxid.length vTxid.length 0
  let (vBits, vHash) := traverseAndBuild hash vTxid vMatch nHeight 0 ([], [])
  { nTransactions := vTxid.length, vBits := vBits, vHash := vHash, fBad := false }

/-- What `TraverseAndExtract` changes. -/
structure ExtractState (H : Type) where
  nBitsUsed : Nat := 0
  nHashUsed : Nat := 0
  vMatch : List H := []
  vnIndex : List Nat := []
  fBad : Bool
  deriving DecidableEq, Repr

/-- Take the next stored hash, which is a matched one or not. -/
def useHash (vHash : List H) (matched : Bool) (pos : Nat) (st : ExtractState H) :
    H × ExtractState H :=
  match vHash[st.nHashUsed]? with
  | none => (default, { st with fBad := true })
  | some hash =>
    let st := { st with nHashUsed := st.nHashUsed + 1 }
    (hash, if matched then
      { st with vMatch := st.vMatch ++ [hash], vnIndex := st.vnIndex ++ [pos] } else st)

def traverseAndExtract (tree : CPartialMerkleTree H) :
    Nat → Nat → ExtractState H → H × ExtractState H
  | 0, pos, st =>
    match tree.vBits[st.nBitsUsed]? with
    | none => (default, { st with fBad := true })
    | some fParentOfMatch =>
      useHash tree.vHash fParentOfMatch pos { st with nBitsUsed := st.nBitsUsed + 1 }
  | height + 1, pos, st =>
    match tree.vBits[st.nBitsUsed]? with
    | none => (default, { st with fBad := true })
    | some false => useHash tree.vHash false pos { st with nBitsUsed := st.nBitsUsed + 1 }
    | some true =>
      let (left, st) := traverseAndExtract tree height (pos * 2)
        { st with nBitsUsed := st.nBitsUsed + 1 }
      if pos * 2 + 1 < calcTreeWidth tree.nTransactions height then
        let (right, st) := traverseAndExtract tree height (pos * 2 + 1) st
        (hash left right, if right = left then { st with fBad := true } else st)
      else (hash left left, st)

/-- `ExtractMatches`: the root, or the null hash, with `vMatch`, `vnIndex` (which is empty at first)
and `fBad`. -/
def extractMatches (tree : CPartialMerkleTree H) : H × List H × List Nat × Bool :=
  if tree.nTransactions = 0 then (default, [], [], tree.fBad)
  else if tree.nTransactions > maxBlockWeight / minTransactionWeight then
    (default, [], [], tree.fBad)
  else if tree.vHash.length > tree.nTransactions then (default, [], [], tree.fBad)
  else if tree.vBits.length < tree.vHash.length then (default, [], [], tree.fBad)
  else
    let nHeight := treeHeight tree.nTransactions tree.nTransactions 0
    let (hashMerkleRoot, st) := traverseAndExtract hash tree nHeight 0 { fBad := tree.fBad }
    let result := (st.vMatch, st.vnIndex, st.fBad)
    if st.fBad then (default, result)
    else if (st.nBitsUsed + 7) / 8 ≠ (tree.vBits.length + 7) / 8 then (default, result)
    else if st.nHashUsed ≠ tree.vHash.length then (default, result)
    else (hashMerkleRoot, result)

end

/-! ## The shape of a tree -/

@[simp] theorem calcTreeWidth_zero (n : Nat) : calcTreeWidth n 0 = n := by
  simp [calcTreeWidth]

theorem calcTreeWidth_succ (n h : Nat) : calcTreeWidth n (h + 1) = (calcTreeWidth n h + 1) / 2 := by
  have hpos : 0 < 2 ^ h := Nat.two_pow_pos h
  have hsum : n + 2 ^ (h + 1) - 1 = n + 2 ^ h - 1 + 2 ^ h := by
    rw [Nat.pow_succ]
    omega
  rw [calcTreeWidth, calcTreeWidth, hsum, Nat.pow_succ, ← Nat.div_div_eq_div_mul,
    Nat.add_div_right _ hpos]

variable {n h pos : Nat}

theorem lt_calcTreeWidth : pos < calcTreeWidth n h ↔ pos * 2 ^ h < n := by
  have hpos : 0 < 2 ^ h := Nat.two_pow_pos h
  rw [calcTreeWidth, Nat.lt_div_iff_mul_lt hpos]
  omega

theorem left_lt_calcTreeWidth (hpos : pos < calcTreeWidth n (h + 1)) :
    pos * 2 < calcTreeWidth n h := by
  rw [calcTreeWidth_succ] at hpos
  omega

theorem treeHeight_spec {fuel : Nat} (hn : 0 < n) (hfuel : n ≤ 2 ^ (h + fuel))
    (hlow : ∀ j < h, 1 < calcTreeWidth n j) :
    calcTreeWidth n (treeHeight n fuel h) = 1 ∧
      ∀ j < treeHeight n fuel h, 1 < calcTreeWidth n j := by
  have hpos (j : Nat) : 0 < calcTreeWidth n j := lt_calcTreeWidth.2 (by omega)
  induction fuel generalizing h with
  | zero =>
    refine ⟨?_, hlow⟩
    have hnot : ¬ 1 < calcTreeWidth n h := by
      rw [lt_calcTreeWidth]
      rw [add_zero] at hfuel
      omega
    have := hpos h
    show calcTreeWidth n h = 1
    omega
  | succ fuel ih =>
    rw [treeHeight]
    grind

theorem treeHeight_spec_zero (hn : 0 < n) :
    calcTreeWidth n (treeHeight n n 0) = 1 ∧ ∀ j < treeHeight n n 0, 1 < calcTreeWidth n j := by
  apply treeHeight_spec hn
  · rw [Nat.zero_add]
    exact Nat.lt_two_pow_self.le
  · intro j hj
    omega

/-! ## Nodes and levels -/

section
variable {H : Type} [Inhabited H] {hash : H → H → H}

def level (hash : H → H → H) (l : List H) : Nat → List H
  | 0 => l
  | h + 1 => nextLevel hash (level hash l h)

omit [Inhabited H] in
theorem length_level (hash : H → H → H) (l : List H) (h : Nat) :
    (level hash l h).length = calcTreeWidth l.length h := by
  induction h with
  | zero => simp [level]
  | succ h ih => rw [level, length_nextLevel, ih, calcTreeWidth_succ]

variable {l : List H}

theorem getD_nextLevel {p : Nat} (hp : p < (l.length + 1) / 2) :
    (nextLevel hash l).getD p default = hash (l.getD (p * 2) default)
      (if p * 2 + 1 < l.length then l.getD (p * 2 + 1) default else l.getD (p * 2) default) := by
  induction l using level_induction generalizing p with
  | hnil => simp at hp
  | hone a =>
    obtain rfl : p = 0 := by
      simp only [length_singleton] at hp
      omega
    simp
  | htwo a b l ih =>
    rw [nextLevel_cons_cons]
    cases p with
    | zero => simp
    | succ p => grind

/-- **The nodes are those of the levels.** -/
theorem calcHash_eq_level {h pos : Nat} (hpos : pos < calcTreeWidth l.length h) :
    calcHash hash l h pos = (level hash l h).getD pos default := by
  induction h generalizing pos with
  | zero => rfl
  | succ h ih =>
    have hleft := left_lt_calcTreeWidth hpos
    rw [calcTreeWidth_succ, ← length_level hash] at hpos
    rw [level, getD_nextLevel hpos, length_level, calcHash, ih hleft]
    grind

theorem computeMerkleRoot_eq_calcHash [DecidableEq H] (hl : 0 < l.length) :
    (computeMerkleRoot hash l).1 = calcHash hash l (treeHeight l.length l.length 0) 0 := by
  obtain ⟨htop, hwide⟩ := treeHeight_spec_zero hl
  have hloop : ∀ h ≤ treeHeight l.length l.length 0,
      (computeMerkleRoot hash l).1 = (computeMerkleRoot hash (level hash l h)).1 := by
    intro h
    induction h with
    | zero => exact fun _ => rfl
    | succ h ih =>
      intro hle
      have hlong : 1 < (level hash l h).length := by
        rw [length_level]
        exact hwide h hle
      rw [ih (by omega), computeMerkleRoot_step hlong]
      rfl
  rw [hloop _ le_rfl, calcHash_eq_level (by omega)]
  rw [← length_level hash] at htop
  obtain ⟨a, ha⟩ := length_eq_one_iff.1 htop
  rw [ha]
  rfl

theorem calcHash_injective (hinj : ∀ a b c d, hash a b = hash c d → a = c ∧ b = d)
    (hl : l.Nodup) {h p q : Nat} (hp : p < calcTreeWidth l.length h)
    (hq : q < calcTreeWidth l.length h) (heq : calcHash hash l h p = calcHash hash l h q) :
    p = q := by
  induction h generalizing p q with
  | zero =>
    rw [calcTreeWidth_zero] at hp hq
    simp only [calcHash, getD_eq_getElem _ _ hp, getD_eq_getElem _ _ hq] at heq
    exact (List.Nodup.getElem_inj_iff hl).1 heq
  | succ h ih =>
    rw [calcHash, calcHash] at heq
    have := ih (left_lt_calcTreeWidth hp) (left_lt_calcTreeWidth hq) (hinj _ _ _ _ heq).1
    omega

end

/-! ## Descending -/

section
variable {H : Type} [DecidableEq H] [Inhabited H] {hash : H → H → H} {tree : CPartialMerkleTree H}
  {height pos : Nat} {st st1 st2 : ExtractState H} {left right : H}

theorem traverseAndExtract_pair (hbit : tree.vBits[st.nBitsUsed]? = some true)
    (hleft : traverseAndExtract hash tree height (pos * 2)
      { st with nBitsUsed := st.nBitsUsed + 1 } = (left, st1))
    (hwide : pos * 2 + 1 < calcTreeWidth tree.nTransactions height)
    (hright : traverseAndExtract hash tree height (pos * 2 + 1) st1 = (right, st2)) :
    traverseAndExtract hash tree (height + 1) pos st =
      (hash left right, if right = left then { st2 with fBad := true } else st2) := by
  simp [traverseAndExtract, hbit, hleft, if_pos hwide, hright]

theorem traverseAndExtract_single (hbit : tree.vBits[st.nBitsUsed]? = some true)
    (hleft : traverseAndExtract hash tree height (pos * 2)
      { st with nBitsUsed := st.nBitsUsed + 1 } = (left, st1))
    (hwide : ¬ pos * 2 + 1 < calcTreeWidth tree.nTransactions height) :
    traverseAndExtract hash tree (height + 1) pos st = (hash left left, st1) := by
  simp [traverseAndExtract, hbit, hleft, if_neg hwide]

end

/-! ## Completeness -/

section
variable {H : Type} [DecidableEq H] [Inhabited H] {hash : H → H → H} {vTxid : List H}
  {vMatch : List Bool}

/-- What `TraverseAndBuild` appends for a node. -/
def built (hash : H → H → H) (vTxid : List H) (vMatch : List Bool) (height pos : Nat) :
    List Bool × List H := traverseAndBuild hash vTxid vMatch height pos ([], [])

omit [DecidableEq H] in
theorem traverseAndBuild_eq (height pos : Nat) (vBits : List Bool) (vHash : List H) :
    traverseAndBuild hash vTxid vMatch height pos (vBits, vHash) =
      (vBits ++ (built hash vTxid vMatch height pos).1,
        vHash ++ (built hash vTxid vMatch height pos).2) := by
  induction height generalizing pos vBits vHash with
  | zero => simp [built, traverseAndBuild]
  | succ height ih =>
    simp only [built, traverseAndBuild, nil_append]
    grind

omit [DecidableEq H] in
theorem built_succ (height pos : Nat) : built hash vTxid vMatch (height + 1) pos =
      if parentOfMatch vTxid.length vMatch (height + 1) pos then
        if pos * 2 + 1 < calcTreeWidth vTxid.length height then
          (true :: ((built hash vTxid vMatch height (pos * 2)).1 ++
              (built hash vTxid vMatch height (pos * 2 + 1)).1),
            (built hash vTxid vMatch height (pos * 2)).2 ++
              (built hash vTxid vMatch height (pos * 2 + 1)).2)
        else (true :: (built hash vTxid vMatch height (pos * 2)).1,
          (built hash vTxid vMatch height (pos * 2)).2)
      else ([false], [calcHash hash vTxid (height + 1) pos]) := by
  rw [built, traverseAndBuild]
  by_cases hmatch : parentOfMatch vTxid.length vMatch (height + 1) pos
  · by_cases hright : pos * 2 + 1 < calcTreeWidth vTxid.length height
    · simp [hmatch, if_pos hright, traverseAndBuild_eq]
    · simp [hmatch, if_neg hright, traverseAndBuild_eq]
  · grind

variable {height pos n i : Nat}

omit [DecidableEq H] in
theorem built_length (hash : H → H → H) (vMatch : List Bool)
    (hpos : pos < calcTreeWidth vTxid.length height) :
    (built hash vTxid vMatch height pos).2.length ≤ (built hash vTxid vMatch height pos).1.length ∧
      pos * 2 ^ height + (built hash vTxid vMatch height pos).2.length ≤ vTxid.length ∧
      (built hash vTxid vMatch height pos).2.length ≤ 2 ^ height := by
  induction height generalizing pos with
  | zero =>
    rw [lt_calcTreeWidth] at hpos
    simp only [built, traverseAndBuild, nil_append, length_singleton]
    omega
  | succ height ih =>
    obtain ⟨hbit, hleaf, hpow⟩ := ih (left_lt_calcTreeWidth hpos)
    have hpow2 : 2 ^ (height + 1) = 2 ^ height * 2 := pow_succ ..
    have hleft : pos * 2 * 2 ^ height = pos * 2 ^ (height + 1) := by
      rw [hpow2, mul_assoc, mul_comm 2]
    rw [hleft] at hleaf
    rw [built_succ]
    split
    · grind
    · rw [lt_calcTreeWidth] at hpos
      grind

def matchedBelow (n : Nat) (vMatch : List Bool) (height pos : Nat) : List Nat :=
  (List.range' (pos * 2 ^ height) (2 ^ height)).filter fun p =>
    decide (p < n) && vMatch.getD p false

theorem matchedBelow_of_not (h : parentOfMatch n vMatch height pos = false) :
    matchedBelow n vMatch height pos = [] := by
  rw [matchedBelow, filter_eq_nil_iff]
  intro p hp
  exact Bool.eq_false_iff.1 (any_eq_false.1 h p hp |> Bool.eq_false_iff.2)

theorem matchedBelow_of_ge (h : ¬ pos < calcTreeWidth n height) :
    matchedBelow n vMatch height pos = [] := by
  rw [lt_calcTreeWidth] at h
  rw [matchedBelow, filter_eq_nil_iff]
  intro p hp
  have := (mem_range'_1.1 hp).1
  simp
  omega

theorem matchedBelow_succ (n height pos : Nat) : matchedBelow n vMatch (height + 1) pos =
      matchedBelow n vMatch height (pos * 2) ++ matchedBelow n vMatch height (pos * 2 + 1) := by
  have hstart : pos * 2 * 2 ^ height = pos * 2 ^ (height + 1) := by
    rw [pow_succ, mul_assoc, mul_comm 2]
  have hsecond : (pos * 2 + 1) * 2 ^ height = pos * 2 ^ (height + 1) + 2 ^ height := by
    rw [add_mul, hstart, one_mul]
  have hsize : 2 ^ (height + 1) = 2 ^ height + 2 ^ height := by
    rw [pow_succ]
    omega
  rw [matchedBelow, matchedBelow, matchedBelow, ← filter_append, hstart, hsecond, hsize,
    range'_append_1]

theorem matchedBelow_root (h : calcTreeWidth n height ≤ 1) :
    matchedBelow n vMatch height 0 = (range n).filter fun p => vMatch.getD p false := by
  have hle : n ≤ 2 ^ height := by
    have hnot : ¬ 1 < calcTreeWidth n height := by omega
    rw [lt_calcTreeWidth] at hnot
    omega
  have hsplit : range' 0 (2 ^ height) = range n ++ range' n (2 ^ height - n) := by
    have happend := range'_append_1 (s := 0) (m := n) (n := 2 ^ height - n)
    rw [Nat.zero_add, Nat.add_sub_cancel' hle] at happend
    rw [range_eq_range', happend]
  rw [matchedBelow, zero_mul, hsplit, filter_append]
  have hout : (range' n (2 ^ height - n)).filter
      (fun p => decide (p < n) && vMatch.getD p false) = [] := by
    rw [filter_eq_nil_iff]
    intro p hp
    have := (mem_range'_1.1 hp).1
    simp
    omega
  rw [hout, append_nil]
  apply filter_congr
  intro p hp
  rw [decide_eq_true (mem_range.1 hp), Bool.true_and]

/-- A state after the bits, hashes and matches of a node have been read. -/
def ExtractState.advance (st : ExtractState H) (bits : List Bool) (hashes : List H)
    (vTxid : List H) (matched : List Nat) : ExtractState H :=
  { st with
    nBitsUsed := st.nBitsUsed + bits.length
    nHashUsed := st.nHashUsed + hashes.length
    vMatch := st.vMatch ++ matched.map fun p => vTxid.getD p default
    vnIndex := st.vnIndex ++ matched }

omit [DecidableEq H] in
theorem getElem?_of_drop_prefix {α : Type} {l t : List α} {a : α}
    (h : a :: t <+: l.drop i) : l[i]? = some a ∧ t <+: l.drop (i + 1) := by
  obtain ⟨r, hr⟩ := h
  have hget : l[i]? = some a := by
    rw [← head?_drop, ← hr]
    rfl
  refine ⟨hget, r, ?_⟩
  rw [← tail_drop, ← hr]
  rfl

theorem drop_prefix_of_append {α : Type} {l s t : List α} (h : s ++ t <+: l.drop i) :
    s <+: l.drop i ∧ t <+: l.drop (i + s.length) := by
  obtain ⟨r, hr⟩ := h
  refine ⟨⟨t ++ r, by rw [← append_assoc, hr]⟩, r, ?_⟩
  rw [← drop_drop, ← hr, append_assoc, drop_left]

/-- **Extracting what has been built**, from wherever it stands in the two arrays. -/
theorem traverseAndExtract_build (vMatch : List Bool)
    (hinj : ∀ a b c d, hash a b = hash c d → a = c ∧ b = d)
    (hnodup : vTxid.Nodup) {tree : CPartialMerkleTree H} (hn : tree.nTransactions = vTxid.length)
    (hpos : pos < calcTreeWidth vTxid.length height) (st : ExtractState H)
    (hbits : (built hash vTxid vMatch height pos).1 <+: tree.vBits.drop st.nBitsUsed)
    (hhash : (built hash vTxid vMatch height pos).2 <+: tree.vHash.drop st.nHashUsed) :
    traverseAndExtract hash tree height pos st = (calcHash hash vTxid height pos,
      st.advance (built hash vTxid vMatch height pos).1 (built hash vTxid vMatch height pos).2 vTxid
        (matchedBelow vTxid.length vMatch height pos)) := by
  induction height generalizing pos st with
  | zero =>
    simp only [built, traverseAndBuild, nil_append] at hbits hhash ⊢
    obtain ⟨hbit, -⟩ := getElem?_of_drop_prefix hbits
    obtain ⟨hstored, -⟩ := getElem?_of_drop_prefix hhash
    rw [traverseAndExtract, hbit]
    simp only [useHash, hstored, ExtractState.advance, length_singleton, calcHash]
    cases hmatch : parentOfMatch vTxid.length vMatch 0 pos with
    | true =>
      have hmatched : matchedBelow vTxid.length vMatch 0 pos = [pos] := by
        simp [parentOfMatch] at hmatch
        simp [matchedBelow, hmatch]
      simp [hmatched]
    | false => simp [matchedBelow_of_not hmatch]
  | succ height ih =>
    rw [built_succ] at hbits hhash ⊢
    cases hmatch : parentOfMatch vTxid.length vMatch (height + 1) pos with
    | false =>
      simp only [hmatch, Bool.false_eq_true, if_false] at hbits hhash ⊢
      obtain ⟨hbit, -⟩ := getElem?_of_drop_prefix hbits
      obtain ⟨hstored, -⟩ := getElem?_of_drop_prefix hhash
      rw [traverseAndExtract, hbit, matchedBelow_of_not hmatch]
      simp [useHash, hstored, ExtractState.advance]
    | true =>
      simp only [hmatch, if_true] at hbits hhash ⊢
      have hleft := left_lt_calcTreeWidth hpos
      rw [matchedBelow_succ]
      by_cases hright : pos * 2 + 1 < calcTreeWidth vTxid.length height
      · simp only [if_pos hright] at hbits hhash ⊢
        obtain ⟨hbit, hbits⟩ := getElem?_of_drop_prefix hbits
        obtain ⟨hbits, hbits'⟩ := drop_prefix_of_append hbits
        obtain ⟨hhash, hhash'⟩ := drop_prefix_of_append hhash
        have hne : calcHash hash vTxid height (pos * 2 + 1) ≠ calcHash hash vTxid height (pos * 2) := by
          intro heq
          have := calcHash_injective hinj hnodup hright hleft heq
          omega
        have hl := ih hleft { st with nBitsUsed := st.nBitsUsed + 1 } hbits hhash
        have hr := ih hright (ExtractState.advance { st with nBitsUsed := st.nBitsUsed + 1 } _ _ vTxid
          (matchedBelow vTxid.length vMatch height (pos * 2))) hbits' hhash'
        rw [traverseAndExtract_pair hbit hl (by rwa [hn]) hr, if_neg hne, calcHash, if_pos hright]
        simp [ExtractState.advance, add_assoc, add_comm 1]
      · simp only [if_neg hright] at hbits hhash ⊢
        obtain ⟨hbit, hbits⟩ := getElem?_of_drop_prefix hbits
        have hl := ih hleft { st with nBitsUsed := st.nBitsUsed + 1 } hbits hhash
        rw [traverseAndExtract_single hbit hl (by rwa [hn]), calcHash, if_neg hright,
          matchedBelow_of_ge hright, append_nil]
        simp [ExtractState.advance, add_assoc, add_comm 1]

/-- **A tree that has been built** gives the root and the matched transactions. -/
theorem extractMatches_make (hinj : ∀ a b c d, hash a b = hash c d → a = c ∧ b = d)
    (hnodup : vTxid.Nodup) (hpos : 0 < vTxid.length)
    (hmax : vTxid.length ≤ maxBlockWeight / minTransactionWeight) (vMatch : List Bool) :
    extractMatches hash (.make hash vTxid vMatch) = ((computeMerkleRoot hash vTxid).1,
        ((range vTxid.length).filter fun p => vMatch.getD p false).map fun p =>
          vTxid.getD p default,
        (range vTxid.length).filter fun p => vMatch.getD p false, false) := by
  obtain ⟨htop, -⟩ := treeHeight_spec_zero hpos
  obtain ⟨nHeight, hheight⟩ : ∃ h, treeHeight vTxid.length vTxid.length 0 = h := ⟨_, rfl⟩
  rw [hheight] at htop
  have hroot : 0 < calcTreeWidth vTxid.length nHeight := by omega
  obtain ⟨hbits, hhashes, -⟩ := built_length hash vMatch hroot
  rw [Nat.zero_mul, Nat.zero_add] at hhashes
  have htree : CPartialMerkleTree.make hash vTxid vMatch =
      ⟨vTxid.length, (built hash vTxid vMatch nHeight 0).1, (built hash vTxid vMatch nHeight 0).2,
        false⟩ := by
    simp only [CPartialMerkleTree.make, hheight]
    rfl
  have hextract := traverseAndExtract_build vMatch hinj hnodup
    (congrArg CPartialMerkleTree.nTransactions htree) hroot { fBad := false }
    (by rw [htree]; exact prefix_rfl) (by rw [htree]; exact prefix_rfl)
  have hmatched : matchedBelow vTxid.length vMatch nHeight 0 =
      (range vTxid.length).filter fun p => vMatch.getD p false :=
    matchedBelow_root (by omega)
  rw [htree] at hextract
  rw [extractMatches, htree, if_neg (Nat.pos_iff_ne_zero.1 hpos), if_neg (not_lt.2 hmax),
    if_neg (not_lt.2 hhashes), if_neg (not_lt.2 hbits)]
  simp [hheight, hextract, ExtractState.advance, hmatched, computeMerkleRoot_eq_calcHash hpos]

end

/-! ## Soundness -/

section
variable {H : Type} [DecidableEq H] [Inhabited H] {hash : H → H → H} {vTxid : List H}

abbrev MatchesLeaves (vTxid : List H) (st : ExtractState H) : Prop :=
  List.Forall₂ (fun txid i => vTxid[i]? = some txid) st.vMatch st.vnIndex

omit [DecidableEq H] in
theorem useHash_sound {vHash : List H} {matched : Bool} {pos : Nat} {st : ExtractState H}
    (h : MatchesLeaves vTxid st)
    (hleaf : matched → vTxid[pos]? = some (useHash vHash matched pos st).1) :
    MatchesLeaves vTxid (useHash vHash matched pos st).2 := by
  unfold useHash at hleaf ⊢
  cases hstored : vHash[st.nHashUsed]? with
  | none => exact h
  | some a =>
    rw [hstored] at hleaf
    cases matched with
    | false => exact h
    | true => exact rel_append h (.cons (hleaf rfl) .nil)

variable {tree : CPartialMerkleTree H}

/-- **Whatever the bits and hashes are**, where the hash of a node comes out the matches below it
are leaves of the tree. -/
theorem traverseAndExtract_sound (hinj : ∀ a b c d, hash a b = hash c d → a = c ∧ b = d)
    (hn : tree.nTransactions = vTxid.length) {height pos : Nat}
    (hpos : pos < calcTreeWidth vTxid.length height) (st : ExtractState H)
    (h : MatchesLeaves vTxid st)
    (heq : (traverseAndExtract hash tree height pos st).1 = calcHash hash vTxid height pos) :
    MatchesLeaves vTxid (traverseAndExtract hash tree height pos st).2 := by
  induction height generalizing pos st with
  | zero =>
    rw [calcTreeWidth_zero] at hpos
    rw [traverseAndExtract] at heq ⊢
    cases hbit : tree.vBits[st.nBitsUsed]? with
    | none => exact h
    | some fParentOfMatch =>
      rw [hbit] at heq
      refine useHash_sound h fun _ => ?_
      rw [heq, calcHash, getD_eq_getElem _ _ hpos]
      exact getElem?_eq_getElem hpos
  | succ height ih =>
    have hleft := left_lt_calcTreeWidth hpos
    rw [calcHash] at heq
    cases hbit : tree.vBits[st.nBitsUsed]? with
    | none =>
      rw [traverseAndExtract, hbit]
      exact h
    | some fParentOfMatch =>
      cases fParentOfMatch with
      | false =>
        rw [traverseAndExtract, hbit]
        exact useHash_sound h (by simp)
      | true =>
        obtain ⟨⟨left, st1⟩, hl⟩ : ∃ r, traverseAndExtract hash tree height (pos * 2)
          { st with nBitsUsed := st.nBitsUsed + 1 } = r := ⟨_, rfl⟩
        by_cases hwide : pos * 2 + 1 < calcTreeWidth vTxid.length height
        · obtain ⟨⟨right, st2⟩, hr⟩ : ∃ r, traverseAndExtract hash tree height (pos * 2 + 1) st1 = r :=
            ⟨_, rfl⟩
          rw [traverseAndExtract_pair hbit hl (by rwa [hn]) hr] at heq ⊢
          rw [if_pos hwide] at heq
          obtain ⟨hleq, hreq⟩ := hinj _ _ _ _ heq
          have h1 := ih hleft { st with nBitsUsed := st.nBitsUsed + 1 } h (by rw [hl]; exact hleq)
          rw [hl] at h1
          have h2 := ih hwide st1 h1 (by rw [hr]; exact hreq)
          rw [hr] at h2
          by_cases hsame : right = left
          · simp only [if_pos hsame]
            exact h2
          · simp only [if_neg hsame]
            exact h2
        · rw [traverseAndExtract_single hbit hl (by rwa [hn])] at heq ⊢
          rw [if_neg hwide] at heq
          have h1 := ih hleft { st with nBitsUsed := st.nBitsUsed + 1 } h
            (by rw [hl]; exact (hinj _ _ _ _ heq).1)
          rwa [hl] at h1

theorem extractMatches_eq {root : H} (hroot : root ≠ default)
    (h : (extractMatches hash tree).1 = root) :
    tree.nTransactions ≠ 0 ∧ ∃ st, traverseAndExtract hash tree
      (treeHeight tree.nTransactions tree.nTransactions 0) 0 { fBad := tree.fBad } = (root, st) ∧
        (extractMatches hash tree).2 = (st.vMatch, st.vnIndex, st.fBad) := by
  obtain ⟨⟨r, st⟩, htraverse⟩ : ∃ r, traverseAndExtract hash tree
    (treeHeight tree.nTransactions tree.nTransactions 0) 0 { fBad := tree.fBad } = r := ⟨_, rfl⟩
  unfold extractMatches at h ⊢
  simp only [htraverse] at h ⊢
  split_ifs at h ⊢ with hzero
  on_goal 8 => exact ⟨hzero, st, by rw [← h], rfl⟩
  -- where a check fails, the null hash is returned
  all_goals exact absurd h.symm hroot

/-- **Partial merkle trees are complete and sound**, the latter for a root that is not the null
hash, which `ExtractMatches` also returns when it fails. -/
theorem extractMatches_sound_complete
    (hinj : ∀ a b c d, hash a b = hash c d → a = c ∧ b = d) (hnodup : vTxid.Nodup)
    (hpos : 1 ≤ vTxid.length) (hmax : vTxid.length ≤ maxBlockWeight / minTransactionWeight) :
    (∀ vMatch : List Bool, vMatch.length = vTxid.length →
      extractMatches hash (.make hash vTxid vMatch) = ((computeMerkleRoot hash vTxid).1,
          ((range vTxid.length).filter fun p => vMatch.getD p false).map fun p =>
            vTxid.getD p default,
          (range vTxid.length).filter fun p => vMatch.getD p false, false)) ∧
    ((computeMerkleRoot hash vTxid).1 ≠ default → ∀ tree : CPartialMerkleTree H,
      tree.nTransactions = vTxid.length →
      (extractMatches hash tree).1 = (computeMerkleRoot hash vTxid).1 →
      List.Forall₂ (fun txid i => vTxid[i]? = some txid) (extractMatches hash tree).2.1
        (extractMatches hash tree).2.2.1) := by
  refine ⟨fun vMatch _ => extractMatches_make hinj hnodup hpos hmax vMatch, ?_⟩
  intro hroot tree hn heq
  obtain ⟨-, st, htraverse, hresult⟩ := extractMatches_eq hroot heq
  obtain ⟨htop, -⟩ := treeHeight_spec_zero hpos
  rw [hn] at htraverse
  have hwidth : 0 < calcTreeWidth vTxid.length (treeHeight vTxid.length vTxid.length 0) := by omega
  have hleaves := traverseAndExtract_sound hinj hn hwidth { fBad := tree.fBad } .nil
    (by rw [htraverse, computeMerkleRoot_eq_calcHash hpos])
  rw [htraverse] at hleaves
  rw [hresult]
  exact hleaves

/-- Three transactions of which the last is matched, and the same tree with other bits. -/
theorem extractMatches_sound_complete_three :
    extractMatches oddPair (.make oddPair [2, 4, 6] [false, false, true]) =
        ((computeMerkleRoot oddPair [2, 4, 6]).1, [6], [2], false) ∧
      List.Forall₂ (fun txid i => [2, 4, 6][i]? = some txid)
        (extractMatches oddPair ⟨3, [true, false, true, true], [oddPair 2 4, 6], false⟩).2.1
        (extractMatches oddPair ⟨3, [true, false, true, true], [oddPair 2 4, 6], false⟩).2.2.1 := by
  have h := extractMatches_sound_complete oddPair_injective
    (show [2, 4, 6].Nodup by decide) (by decide) (by decide)
  exact ⟨h.1 [false, false, true] rfl, h.2 (by decide +kernel) _ rfl (by decide +kernel)⟩

/-- **The null hash as a root.**  A tree with too many bits fails, and the null hash that it
returns is the root of the list with that only txid; the match it reports is no leaf. -/
theorem extractMatches_null : (∀ a b c d, oddPair a b = oddPair c d → a = c ∧ b = d) ∧ [0].Nodup ∧
      ∃ tree : CPartialMerkleTree Nat, tree.nTransactions = 1 ∧
        (extractMatches oddPair tree).1 = (computeMerkleRoot oddPair [0]).1 ∧
        (extractMatches oddPair tree).2 = ([5], [0], false) ∧ [0][0]? ≠ some 5 :=
  ⟨oddPair_injective, by decide, ⟨1, replicate 9 true, [5], false⟩, rfl, by decide +kernel,
    by decide +kernel, by decide⟩

end

end BitcoinPurity
