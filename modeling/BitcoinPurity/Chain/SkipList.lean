import BitcoinPurity.Chain.Index
import BitcoinPurity.Lib.Runs

/-!
# Skip pointers and the active chain

`GetAncestor` walks by skip pointers and parents, and `CChain` keeps the blocks of a branch by
height.  Both say what the header chain of a block says:

* `getAncestorSkip_eq`: in every tree built by adding blocks, the walk ends at the ancestor.
* `setTip_path`: after any calls of `SetTip` the vector holds the ancestors of the last tip.
-/

namespace BitcoinPurity

open List Branch Runs

/-! ## Algorithm -/

def invertLowestOne (n : Nat) : Nat := n &&& (n - 1)

def getSkipHeight (height : Nat) : Nat :=
  if height < 2 then 0
  else if height &&& 1 ≠ 0 then invertLowestOne (invertLowestOne (height - 1)) + 1
  else invertLowestOne height

/-- The loop of `GetAncestor`; `none` when `assert(pindexWalk->pprev)` fails. -/
def getAncestorWalk (pskip : BlockPtr → BlockPtr) (height : Nat) :
    Nat → BlockPtr → Nat → Option BlockPtr
  | 0, _, _ => none
  | fuel + 1, pindexWalk, heightWalk =>
    if heightWalk > height then
      let heightSkip := getSkipHeight heightWalk
      let heightSkipPrev := getSkipHeight (heightWalk - 1)
      if pskip pindexWalk ≠ [] ∧ (heightSkip = height ∨ (heightSkip > height ∧
          ¬ (heightSkipPrev + 2 < heightSkip ∧ heightSkipPrev ≥ height))) then
        getAncestorWalk pskip height fuel (pskip pindexWalk) heightSkip
      else if pindexWalk.tail = [] then none
      else getAncestorWalk pskip height fuel pindexWalk.tail (heightWalk - 1)
    else some pindexWalk

variable (pskip : BlockPtr → BlockPtr)

/-- `CBlockIndex::GetAncestor`, over the `pskip` of every block. -/
def getAncestorSkip (b : BlockPtr) (height : Int) : Option BlockPtr :=
  if height > nHeight b ∨ height < 0 then some []
  else getAncestorWalk pskip height.toNat b.length b (nHeight b).toNat

/-- The blocks added so far, with their skip pointers. -/
structure SkipTree where
  known : List BlockPtr := []
  pskip : BlockPtr → BlockPtr := fun _ => []

/-- A header is added to a known parent, or as a root, and `BuildSkip` is called. -/
def SkipTree.add (h : CBlockHeader × BlockPtr) (t : SkipTree) : Option SkipTree :=
  let b := h.1 :: h.2
  if h.2 ≠ [] ∧ h.2 ∉ t.known then none
  else
    (if h.2 = [] then some []
      else getAncestorSkip t.pskip h.2 (getSkipHeight (nHeight b).toNat)).map fun p =>
        { known := b :: t.known, pskip := fun x => if x = b then p else t.pskip x }

/-- `CChain`: the size of `vChain` and its entries. -/
structure CChain where
  size : Nat := 0
  vChain : Nat → BlockPtr := fun _ => []

namespace CChain

/-- The loop of `SetTip`; `pindex->nHeight` of `x :: b` is `b.length`. -/
def setTipLoop : BlockPtr → (Nat → BlockPtr) → Nat → BlockPtr
  | [], vChain => vChain
  | x :: b, vChain =>
    if vChain b.length ≠ x :: b then setTipLoop b (Function.update vChain b.length (x :: b))
    else vChain

variable (c : CChain)

def setTip (block : BlockPtr) : CChain where
  size := block.length
  vChain := setTipLoop block fun i => if i < c.size ∧ i < block.length then c.vChain i else []

/-- `operator[]` -/
def index (height : Int) : BlockPtr :=
  if height < 0 ∨ height ≥ c.size then [] else c.vChain height.toNat

def contains (b : BlockPtr) : Bool := c.index (nHeight b) = b

def findForkLoop (c : CChain) : BlockPtr → BlockPtr
  | [] => []
  | x :: b => if c.contains (x :: b) then x :: b else c.findForkLoop b

def findFork (b : BlockPtr) : BlockPtr :=
  let height : Int := c.size - 1
  c.findForkLoop (if nHeight b > height then getAncestor b height else b)

end CChain

/-! ## The skip list -/

theorem getSkipHeight_lt {height : Nat} (h : 0 < height) : getSkipHeight height < height := by
  have hle n : invertLowestOne n ≤ n - 1 := Nat.and_le_right
  unfold getSkipHeight
  grind

/-- The block and its ancestors have the skip pointers that their heights ask for. -/
def SkipsOk (b : BlockPtr) : Prop :=
  ∀ a n, a <:+ b → a.length = n + 1 →
    pskip a = if a.tail = [] then [] else a.drop (n - getSkipHeight n)

section
variable {pskip : BlockPtr → BlockPtr} {b : BlockPtr}

theorem SkipsOk.suffix {a : BlockPtr} (hok : SkipsOk pskip b) (h : a <:+ b) : SkipsOk pskip a :=
  fun c n hc => hok c n (hc.trans h)

theorem getAncestorWalk_eq {height fuel n : Nat} (hok : SkipsOk pskip b) (hn : b.length = n + 1)
    (hle : height ≤ n) (hfuel : n < fuel + height) :
    getAncestorWalk pskip height fuel b n = some (b.drop (n - height)) := by
  induction fuel generalizing b n with
  | zero => omega
  | succ fuel ih =>
    unfold getAncestorWalk
    split
    next hgt =>
      have hskip := getSkipHeight_lt (Nat.zero_lt_of_lt hgt)
      have htail : b.tail ≠ [] := by
        rw [← length_pos_iff, length_tail]
        omega
      simp only
      split
      next hc =>
        rw [hok b n (suffix_refl b) hn, if_neg htail,
          ih (hok.suffix (drop_suffix _ b)) (by rw [length_drop]; omega) (by omega) (by omega),
          drop_drop, show n - getSkipHeight n + (getSkipHeight n - height) = n - height by omega]
      next hc =>
        rw [ih (hok.suffix (tail_suffix b)) (by rw [length_tail]; omega) (by omega) (by omega),
          ← drop_one, drop_drop, show 1 + (n - 1 - height) = n - height by omega]
    next hgt =>
      rw [show n - height = 0 by omega, drop_zero]

/-- **The walk ends at the ancestor**, and meets no missing parent. -/
theorem SkipsOk.walk_eq (hok : SkipsOk pskip b) (height : Int) :
    getAncestorSkip pskip b height = some (getAncestor b height) := by
  have hb := nHeight_eq b
  unfold getAncestorSkip getAncestor
  split
  · rfl
  · rw [getAncestorWalk_eq hok (by omega) (by omega) (by omega)]
    rw [show (nHeight b - height).toNat = (nHeight b).toNat - height.toNat by omega]

theorem SkipTree.add_ok {h : CBlockHeader × BlockPtr} {t t' : SkipTree}
    (hok : ∀ b ∈ t.known, SkipsOk t.pskip b) (hs : t.add h = some t') :
    ∀ b ∈ t'.known, SkipsOk t'.pskip b := by
  obtain ⟨x, p⟩ := h
  have hheight : (nHeight (x :: p)).toNat = p.length := by simp [nHeight]
  simp only [add, hheight] at hs
  split at hs
  · cases hs
  next hknown =>
  have hp : SkipsOk t.pskip p := by
    by_cases hnil : p = []
    · intro a n ha hn
      rw [hnil, suffix_nil] at ha
      rw [ha] at hn
      cases hn
    · exact hok p (by_contra fun hmem => hknown ⟨hnil, hmem⟩)
  have hbuild : (if p = [] then some [] else getAncestorSkip t.pskip p (getSkipHeight p.length)) =
      some (if p = [] then [] else (x :: p).drop (p.length - getSkipHeight p.length)) := by
    rw [hp.walk_eq]
    split
    · rfl
    next hnil =>
      have hlt := getSkipHeight_lt (length_pos_iff.2 hnil)
      have hb := nHeight_eq p
      obtain ⟨k, hk⟩ := Nat.exists_eq_add_one.2 (Nat.sub_pos_of_lt hlt)
      rw [getAncestor, if_neg (by omega), hk, drop_succ_cons,
        show (nHeight p - getSkipHeight p.length).toNat = k by omega]
  rw [hbuild] at hs
  cases hs
  intro c hc a n ha hn
  by_cases hab : a = x :: p
  · grind
  · show (if a = x :: p then _ else t.pskip a) = _
    rw [if_neg hab]
    rcases mem_cons.1 hc with rfl | hc
    · exact hp a n (suffix_tail_of_ne ha hab) hn
    · exact hok c hc a n ha hn

/-- **`GetAncestor` follows `pprev`.** -/
theorem getAncestorSkip_eq {t : SkipTree} (ht : Reach SkipTree.add {} t) (hb : b ∈ t.known)
    (height : Int) : getAncestorSkip t.pskip b height = some (getAncestor b height) ∧
      (0 ≤ height → height ≤ nHeight b → getAncestor b height = tail^[(nHeight b - height).toNat] b) ∧
      (height < 0 ∨ nHeight b < height → getAncestor b height = []) := by
  have hok := ht.invariant (by simp)
    (fun t h t' hok hs => SkipTree.add_ok hok hs) b hb
  refine ⟨hok.walk_eq height, fun h0 hle => ?_, fun hout => ?_⟩
  · rw [getAncestor, if_neg (by omega)]
    exact (tail_iterate b _).symm
  · rw [getAncestor, if_pos (by omega)]

theorem getAncestorSkip_eq_three : ∃ (h : CBlockHeader) (t : SkipTree),
    runAll SkipTree.add [(h, []), (h, [h]), (h, [h, h])] {} = some t ∧
      getAncestorSkip t.pskip [h, h, h] 0 = some [h] := by
  refine ⟨⟨0, 0, 0, 0, 0⟩, Exists.imp (fun t ht => ⟨ht, ?_⟩) ⟨_, rfl⟩⟩
  exact (getAncestorSkip_eq (reach_of_runAll ht) (Option.some.inj ht ▸ .head _) 0).1

end

/-! ## The active chain -/

namespace CChain

variable {c : CChain} {tip b : BlockPtr}

theorem getAncestor_append (l : BlockPtr) {height : Int} (h : height ≤ nHeight b) :
    getAncestor (l ++ b) height = getAncestor b height := by
  have hl : nHeight (l ++ b) = l.length + nHeight b := by
    rw [nHeight, nHeight, length_append]
    omega
  unfold getAncestor
  split
  next h0 => rw [if_pos (by omega)]
  next h0 =>
    rw [if_neg (by omega), hl, show (l.length + nHeight b - height).toNat =
      l.length + (nHeight b - height).toNat by omega, drop_length_add_append]

/-- The loop may stop at an entry that is right: the entries below it are ancestors of the old
tip, and its block is one. -/
theorem setTipLoop_eq {vChain : Nat → BlockPtr}
    (hold : ∀ i < b.length, vChain i = getAncestor tip i) (i : Nat) :
    setTipLoop b vChain i = if i < b.length then getAncestor b i else vChain i := by
  induction b generalizing vChain with
  | nil => rfl
  | cons x b ih =>
    have hb := nHeight_eq b
    rw [length_cons] at hold ⊢
    unfold setTipLoop
    split
    next =>
      have hnext j (hj : j < b.length) :
          Function.update vChain b.length (x :: b) j = getAncestor tip j := by grind
      rw [ih hnext]
      rcases Nat.lt_trichotomy i b.length with hi | rfl | hi
      · rw [if_pos hi, if_pos (by omega)]
        exact (getAncestor_append [x] (by omega)).symm
      · simp [getAncestor, nHeight]
      · rw [if_neg (by omega), if_neg (by omega), Function.update_of_ne (by omega)]
    next hstop =>
      have hx := hold b.length (by omega)
      obtain ⟨l, hl⟩ : x :: b <:+ tip := by
        rw [← not_not.1 hstop, hx]
        exact getAncestor_suffix _ _
      split
      next hi =>
        rw [hold i hi, ← hl]
        exact getAncestor_append l (by rw [nHeight, length_cons]; omega)
      next => rfl

/-- The vector has the ancestors of `tip`. -/
def Path (c : CChain) (tip : BlockPtr) : Prop :=
  c.size = tip.length ∧ ∀ height, c.index height = getAncestor tip height

theorem Path.setTip (h : Path c tip) (b : BlockPtr) : Path (c.setTip b) b := by
  have hold i (hi : i < b.length) :
      (if i < c.size ∧ i < b.length then c.vChain i else []) = getAncestor tip i := by
    rw [← h.2, CChain.index]
    grind
  have hb := nHeight_eq b
  refine ⟨rfl, fun height => ?_⟩
  show (if height < 0 ∨ height ≥ b.length then [] else setTipLoop b _ height.toNat) = _
  split
  next hout => rw [getAncestor, if_pos (by omega)]
  next hin => rw [setTipLoop_eq hold, if_pos (by omega), Int.toNat_of_nonneg (by omega)]

theorem Path.contains (h : Path c tip) (b : BlockPtr) : c.contains b ↔ b <:+ tip := by
  rw [CChain.contains, decide_eq_true_eq, h.2]
  constructor
  · intro he
    exact he ▸ getAncestor_suffix _ _
  · intro hb
    by_cases hnil : b = []
    · simp [hnil, getAncestor, nHeight]
    · exact getAncestor_of_suffix hb hnil

theorem Path.findFork (h : Path c tip) (b : BlockPtr) : c.findFork b = meet b tip := by
  have hloop b : c.findForkLoop b = findForkWalk tip b := by
    induction b with
    | nil => rfl
    | cons x b ih =>
      rw [findForkLoop, findForkWalk, ih]
      simp only [h.contains, chainContains_iff, ne_eq, reduceCtorEq, not_false_eq_true, true_and]
  rw [← findFork_eq_meet, CChain.findFork, hloop, h.1]
  rfl

/-- **The active chain is the path to its tip.** -/
theorem setTip_path (blocks : List BlockPtr) (tip p : BlockPtr) :
    let c := (blocks ++ [tip]).foldl setTip {}
    (∀ height, c.index height = getAncestor tip height) ∧
      c.findFork p = lastCommonAncestor p tip ∧
      (∀ b, b <:+ c.findFork p ↔ b <:+ p ∧ b <:+ tip) ∧ (c.contains p ↔ p <:+ tip) := by
  have hrun : ∃ t, Path (blocks.foldl setTip {}) t := by
    induction blocks using reverseRecOn with
    | nil => exact ⟨[], rfl, by simp [index, getAncestor]⟩
    | append_singleton l b ih =>
      rw [foldl_concat]
      exact ih.elim fun t ht => ⟨b, ht.setTip b⟩
  obtain ⟨t, ht⟩ := hrun
  have h := ht.setTip tip
  rw [foldl_concat]
  refine ⟨h.2, ?_, fun b => ?_, h.contains p⟩
  · rw [h.findFork, lastCommonAncestor_eq_meet]
  · rw [h.findFork]
    constructor
    · intro hb
      exact ⟨hb.trans (meet_suffix_left p tip), hb.trans (meet_suffix_right p tip)⟩
    · exact fun hb => suffix_meet hb.1 hb.2

end CChain

end BitcoinPurity
