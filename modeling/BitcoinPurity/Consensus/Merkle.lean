import Mathlib.Data.Nat.Pairing
import BitcoinPurity.Validation.ConnectBlock

/-!
# Merkle roots

`ComputeMerkleRoot` and `CheckMerkleRoot`.  A level of odd length repeats its last node, so that
different lists of leaves can have one root (CVE-2012-2459); `mutated` is set where two equal nodes
stand side by side before a level is padded.

* `eq_of_root_eq`: two unmutated lists with one root are the same list, or the first leaf of one of
  them is an inner node of the other.
* `checkMerkleRoot_binding`: where no leaf is an inner node, the flag detects every collision, and
  a header that passes `CheckMerkleRoot` fixes the list of transaction hashes.
-/

namespace BitcoinPurity

open Tighten List

/-! ## Algorithm -/

section
variable {H : Type} [DecidableEq H]

def hasEqualPair : List H → Bool
  | a :: b :: hashes => a == b || hasEqualPair hashes
  | _ => false

/-- A level of odd length gets its last node twice. -/
def padLevel (hashes : List H) : List H :=
  if hashes.length % 2 = 1 then hashes ++ hashes.getLast?.toList else hashes

/-- `SHA256D64` on the pairs of a level. -/
def hashPairs (hash : H → H → H) : List H → List H
  | a :: b :: hashes => hash a b :: hashPairs hash hashes
  | _ => []

def nextLevel (hash : H → H → H) (hashes : List H) : List H := hashPairs hash (padLevel hashes)

/-- The loop of `ComputeMerkleRoot`, for at most `fuel` levels. -/
def merkleLoop (hash : H → H → H) : Nat → List H → Bool → List H × Bool
  | 0, hashes, mutation => (hashes, mutation)
  | fuel + 1, hashes, mutation =>
    if hashes.length > 1 then
      merkleLoop hash fuel (nextLevel hash hashes) (mutation || hasEqualPair hashes)
    else (hashes, mutation)

/-- `ComputeMerkleRoot`: the root and `mutated`. -/
def computeMerkleRoot [Inhabited H] (hash : H → H → H) (hashes : List H) : H × Bool :=
  let (hashes, mutation) := merkleLoop hash hashes.length hashes false
  (hashes.head?.getD default, mutation)

end

def blockMerkleRoot (hash : Nat → Nat → Nat) (block : CBlock) : Nat × Bool :=
  computeMerkleRoot hash (block.vtx.map (·.hash))

/-- The reasons of `CheckMerkleRoot`. -/
inductive MerkleError
  | badTxnmrklroot
  | badTxnsDuplicate
  deriving DecidableEq, Repr

def checkMerkleRoot (hash : Nat → Nat → Nat) (hashMerkleRoot : Nat) (block : CBlock) :
    Except MerkleError Unit := do
  let (merkleRoot, mutated) := blockMerkleRoot hash block
  failIf (decide (hashMerkleRoot ≠ merkleRoot)) .badTxnmrklroot
  failIf mutated .badTxnsDuplicate

/-! ## One level -/

section
variable {H : Type} {hash : H → H → H} {l l' : List H}

theorem padLevel_cons_cons (a b : H) (l : List H) :
    padLevel (a :: b :: l) = a :: b :: padLevel l := by
  unfold padLevel
  grind

@[simp] theorem nextLevel_nil : nextLevel hash ([] : List H) = [] := rfl

@[simp] theorem nextLevel_singleton (a : H) : nextLevel hash [a] = [hash a a] := rfl

@[simp] theorem nextLevel_cons_cons (a b : H) (l : List H) :
    nextLevel hash (a :: b :: l) = hash a b :: nextLevel hash l := by
  rw [nextLevel, padLevel_cons_cons, hashPairs, nextLevel]

theorem level_induction {P : List H → Prop} (hnil : P []) (hone : ∀ a, P [a])
    (htwo : ∀ a b l, P l → P (a :: b :: l)) (l : List H) : P l := by
  induction h : l.length using Nat.strongRecOn generalizing l with
  | _ n ih =>
    rcases l with _ | ⟨a, _ | ⟨b, l⟩⟩
    · exact hnil
    · exact hone a
    · grind

theorem length_nextLevel (l : List H) : (nextLevel hash l).length = (l.length + 1) / 2 := by
  induction l using level_induction with
  | hnil => simp
  | hone a => simp
  | htwo a b l ih =>
    simp only [nextLevel_cons_cons, length_cons]
    omega

theorem mem_nextLevel {x : H} (h : x ∈ nextLevel hash l) : ∃ a ∈ l, ∃ b ∈ l, x = hash a b := by
  induction l using level_induction with
  | hnil => simp at h
  | hone a =>
    rw [nextLevel_singleton, mem_singleton] at h
    exact ⟨a, by simp, a, by simp, h⟩
  | htwo a b l ih =>
    rw [nextLevel_cons_cons, mem_cons] at h
    grind

/-- **One level back**: levels without equal neighbours that hash to the same level are the
same. -/
theorem eq_of_nextLevel_eq [DecidableEq H] (hinj : ∀ a b c d, hash a b = hash c d → a = c ∧ b = d)
    (h : nextLevel hash l = nextLevel hash l') (hl : hasEqualPair l = false)
    (hl' : hasEqualPair l' = false) : l = l' := by
  induction l using level_induction generalizing l' with
  | hnil =>
    have hlen := congrArg length h
    rw [length_nextLevel, length_nextLevel, length_nil] at hlen
    exact (length_eq_zero_iff.1 (by omega)).symm
  | hone a =>
    rcases l' with _ | ⟨c, _ | ⟨d, l'⟩⟩
    · simp at h
    · simp only [nextLevel_singleton, cons.injEq, and_true] at h
      rw [(hinj _ _ _ _ h).1]
    · -- the second list ends in the pair that the first one gets by padding
      simp only [nextLevel_singleton, nextLevel_cons_cons, cons.injEq] at h
      obtain ⟨hc, hd⟩ := hinj _ _ _ _ h.1
      simp [hasEqualPair, ← hc, ← hd] at hl'
  | htwo a b l ih =>
    rcases l' with _ | ⟨c, _ | ⟨d, l'⟩⟩
    · simp at h
    · simp only [nextLevel_singleton, nextLevel_cons_cons, cons.injEq] at h
      obtain ⟨ha, hb⟩ := hinj _ _ _ _ h.1
      simp [hasEqualPair, ha, hb] at hl
    · simp only [nextLevel_cons_cons, cons.injEq] at h
      obtain ⟨ha, hb⟩ := hinj _ _ _ _ h.1
      simp only [hasEqualPair, Bool.or_eq_false_iff] at hl hl'
      rw [ha, hb, ih h.2 hl.2 hl'.2]

end

/-! ## The loop -/

section
variable {H : Type} [DecidableEq H] {hash : H → H → H}

variable {l : List H}

theorem merkleLoop_of_le_one {fuel : Nat} {mutation : Bool} (h : l.length ≤ 1) :
    merkleLoop hash fuel l mutation = (l, mutation) := by
  cases fuel with
  | zero => rfl
  | succ fuel => rw [merkleLoop, if_neg (by omega)]

theorem merkleLoop_fuel {fuel fuel' : Nat} {mutation : Bool} (h : l.length ≤ fuel)
    (h' : l.length ≤ fuel') :
    merkleLoop hash fuel l mutation = merkleLoop hash fuel' l mutation := by
  induction fuel generalizing fuel' l mutation with
  | zero => rw [merkleLoop_of_le_one (by omega), merkleLoop_of_le_one (by omega)]
  | succ fuel ih =>
    by_cases hl : l.length > 1
    · cases fuel' with
      | zero => omega
      | succ fuel' =>
        rw [merkleLoop, merkleLoop, if_pos hl, if_pos hl]
        apply ih
        · rw [length_nextLevel]
          omega
        · rw [length_nextLevel]
          omega
    · rw [merkleLoop_of_le_one (by omega), merkleLoop_of_le_one (by omega)]

theorem merkleLoop_mutation (fuel : Nat) (l : List H) (mutation : Bool) :
    merkleLoop hash fuel l mutation =
      ((merkleLoop hash fuel l false).1, mutation || (merkleLoop hash fuel l false).2) := by
  induction fuel generalizing l mutation with
  | zero => simp [merkleLoop]
  | succ fuel ih =>
    simp only [merkleLoop]
    grind

variable [Inhabited H]

/-- **One round** of the loop. -/
theorem computeMerkleRoot_step (h : 1 < l.length) :
    computeMerkleRoot hash l = ((computeMerkleRoot hash (nextLevel hash l)).1,
      hasEqualPair l || (computeMerkleRoot hash (nextLevel hash l)).2) := by
  have hround : merkleLoop hash l.length l false =
      merkleLoop hash (nextLevel hash l).length (nextLevel hash l) (hasEqualPair l) := by
    have hmore : merkleLoop hash l.length l false = merkleLoop hash (l.length + 1) l false :=
      merkleLoop_fuel (Nat.le_refl _) (Nat.le_succ _)
    rw [hmore, merkleLoop, if_pos h]
    apply merkleLoop_fuel
    · rw [length_nextLevel]
      omega
    · exact Nat.le_refl _
  simp only [computeMerkleRoot]
  rw [hround, merkleLoop_mutation]

end

/-! ## Collisions -/

section
variable {H : Type} [DecidableEq H] [Inhabited H] {hash : H → H → H}

/-- A node that the loop computes from a list of leaves. -/
inductive InnerNode (hash : H → H → H) : List H → H → Prop
  | parent {l : List H} {x : H} (hl : 1 < l.length) (hx : x ∈ nextLevel hash l) :
      InnerNode hash l x
  | above {l : List H} {x : H} (hl : 1 < l.length) (h : InnerNode hash (nextLevel hash l) x) :
      InnerNode hash l x

variable {l l' : List H}

omit [DecidableEq H] [Inhabited H] in
theorem InnerNode.eq_hash {x : H} (h : InnerNode hash l x) :
    ∃ a b, (a ∈ l ∨ InnerNode hash l a) ∧ x = hash a b := by
  induction h with
  | parent hl hx =>
    obtain ⟨a, ha, b, -, hx⟩ := mem_nextLevel hx
    exact ⟨a, b, .inl ha, hx⟩
  | above hl _ ih =>
    obtain ⟨a, b, ha, hx⟩ := ih
    refine ⟨a, b, .inr ?_, hx⟩
    rcases ha with ha | ha
    · exact .parent hl ha
    · exact .above hl ha

theorem innerNode_root (h : 1 < l.length) : InnerNode hash l (computeMerkleRoot hash l).1 := by
  induction hn : l.length using Nat.strongRecOn generalizing l with
  | _ n ih =>
    rw [computeMerkleRoot_step h]
    have hlen := @length_nextLevel H hash l
    by_cases hone : (nextLevel hash l).length = 1
    · obtain ⟨x, hx⟩ := length_eq_one_iff.1 hone
      refine .parent h ?_
      rw [hx]
      exact mem_singleton.2 rfl
    · exact .above h (ih _ (by omega) (by omega) rfl)

section
variable (hinj : ∀ a b c d, hash a b = hash c d → a = c ∧ b = d)
include hinj

omit [DecidableEq H] [Inhabited H] in
theorem innerNode_head (hl' : 1 < l'.length)
    (h : ∃ x ∈ (nextLevel hash l).head?, InnerNode hash (nextLevel hash l') x) :
    ∃ x ∈ l.head?, InnerNode hash l' x := by
  obtain ⟨x, hx, hinner⟩ := h
  obtain ⟨c, d, hc, hxc⟩ := hinner.eq_hash
  have hc' : InnerNode hash l' c := by
    rcases hc with hc | hc
    · exact .parent hl' hc
    · exact .above hl' hc
  rcases l with _ | ⟨a, _ | ⟨b, l⟩⟩
  · simp at hx
  · simp only [nextLevel_singleton, head?_cons, Option.mem_some_iff] at hx
    exact ⟨a, by simp, (hinj _ _ _ _ (hx.trans hxc)).1 ▸ hc'⟩
  · simp only [nextLevel_cons_cons, head?_cons, Option.mem_some_iff] at hx
    exact ⟨a, by simp, (hinj _ _ _ _ (hx.trans hxc)).1 ▸ hc'⟩

/-- **Collisions**: unmutated lists with one root are the same, or their trees have different
heights and the first leaf of the lower one is an inner node of the other. -/
theorem eq_of_root_eq
    (hl : l ≠ []) (hl' : l' ≠ [])
    (hroot : (computeMerkleRoot hash l).1 = (computeMerkleRoot hash l').1)
    (hmut : (computeMerkleRoot hash l).2 = false) (hmut' : (computeMerkleRoot hash l').2 = false) :
    l = l' ∨ (∃ x ∈ l.head?, InnerNode hash l' x) ∨ ∃ x ∈ l'.head?, InnerNode hash l x := by
  -- induction on the length of the first list, one level of both at a time
  induction hn : l.length using Nat.strongRecOn generalizing l l' with
  | _ n ih =>
    have hpos := length_pos_iff.2 hl
    have hpos' := length_pos_iff.2 hl'
    by_cases h1 : l.length = 1
    · obtain ⟨a, rfl⟩ := length_eq_one_iff.1 h1
      by_cases h1' : l'.length = 1
      · obtain ⟨b, rfl⟩ := length_eq_one_iff.1 h1'
        exact .inl (congrArg (fun x => [x]) hroot)
      refine .inr (.inl ⟨a, by simp, ?_⟩)
      rw [show a = (computeMerkleRoot hash l').1 from hroot]
      exact innerNode_root (by omega)
    · by_cases h1' : l'.length = 1
      · obtain ⟨b, rfl⟩ := length_eq_one_iff.1 h1'
        refine .inr (.inr ⟨b, by simp, ?_⟩)
        rw [show b = (computeMerkleRoot hash l).1 from hroot.symm]
        exact innerNode_root (by omega)
      have hlong : 1 < l.length := by omega
      have hlong' : 1 < l'.length := by omega
      rw [computeMerkleRoot_step hlong, computeMerkleRoot_step hlong'] at hroot
      rw [computeMerkleRoot_step hlong, Bool.or_eq_false_iff] at hmut
      rw [computeMerkleRoot_step hlong', Bool.or_eq_false_iff] at hmut'
      have hlen := @length_nextLevel H hash l
      have hlen' := @length_nextLevel H hash l'
      have hnext := ih (nextLevel hash l).length (by omega)
        (length_pos_iff.1 (by omega)) (length_pos_iff.1 (by omega)) hroot hmut.2
        hmut'.2 rfl
      rcases hnext with heq | hleft | hright
      · exact .inl (eq_of_nextLevel_eq hinj heq hmut.1 hmut'.1)
      · exact .inr (.inl (innerNode_head hinj hlong' hleft))
      · exact .inr (.inr (innerNode_head hinj hlong hright))

end

end

/-- No leaf of the two lists is an inner node of one of their trees. -/
def LeavesApart (hash : Nat → Nat → Nat) (l l' : List Nat) : Prop :=
  ∀ x ∈ l ++ l', ¬ InnerNode hash l x ∧ ¬ InnerNode hash l' x

variable {hash : Nat → Nat → Nat}

theorem mutated_of_root_eq
    (hinj : ∀ a b c d, hash a b = hash c d → a = c ∧ b = d) {l l' : List Nat} (hl : l ≠ [])
    (hl' : l' ≠ []) (hne : l ≠ l') (hapart : LeavesApart hash l l')
    (hroot : (computeMerkleRoot hash l).1 = (computeMerkleRoot hash l').1) :
    (computeMerkleRoot hash l).2 ∨ (computeMerkleRoot hash l').2 := by
  cases hmut : (computeMerkleRoot hash l).2 with
  | true => exact .inl rfl
  | false =>
    cases hmut' : (computeMerkleRoot hash l').2 with
    | true => exact .inr rfl
    | false =>
      rcases eq_of_root_eq hinj hl hl' hroot hmut hmut' with heq | ⟨x, hx, hinner⟩ | ⟨x, hx, hinner⟩
      · exact absurd heq hne
      · have hmem : x ∈ l := mem_of_mem_head? hx
        exact absurd hinner (hapart x (mem_append_left l' hmem)).2
      · have hmem : x ∈ l' := mem_of_mem_head? hx
        exact absurd hinner (hapart x (mem_append_right l hmem)).1

theorem checkMerkleRoot_eq_ok {hashMerkleRoot : Nat} {block : CBlock} :
    checkMerkleRoot hash hashMerkleRoot block = .ok () ↔
      (computeMerkleRoot hash (block.vtx.map (·.hash))).1 = hashMerkleRoot ∧
        (computeMerkleRoot hash (block.vtx.map (·.hash))).2 = false := by
  simp only [checkMerkleRoot, bind_eq_ok, failIf_eq_ok]
  constructor
  · rintro ⟨-, hroot, hmut⟩
    exact ⟨(not_not.1 (of_decide_eq_false hroot)).symm, hmut⟩
  · rintro ⟨hroot, hmut⟩
    exact ⟨(), decide_eq_false (not_not.2 hroot.symm), hmut⟩

/-- **Binding**: two different lists of leaves with one root are not both unmutated, and two blocks
that pass `CheckMerkleRoot` under one header have the same transaction hashes. -/
theorem checkMerkleRoot_binding (hash : Nat → Nat → Nat)
    (hinj : ∀ a b c d, hash a b = hash c d → a = c ∧ b = d) :
    (∀ l l' : List Nat, l ≠ [] → l' ≠ [] → l ≠ l' → LeavesApart hash l l' →
      (computeMerkleRoot hash l).1 = (computeMerkleRoot hash l').1 →
      (computeMerkleRoot hash l).2 ∨ (computeMerkleRoot hash l').2) ∧
    ∀ (hashMerkleRoot : Nat) (block block' : CBlock), block.vtx ≠ [] → block'.vtx ≠ [] →
      LeavesApart hash (block.vtx.map (·.hash)) (block'.vtx.map (·.hash)) →
      checkMerkleRoot hash hashMerkleRoot block = .ok () →
      checkMerkleRoot hash hashMerkleRoot block' = .ok () →
      block.vtx.map (·.hash) = block'.vtx.map (·.hash) := by
  refine ⟨fun l l' hl hl' hne hapart hroot => mutated_of_root_eq hinj hl hl' hne hapart hroot, ?_⟩
  intro root block block' hv hv' hapart hok hok'
  obtain ⟨hroot, hmut⟩ := checkMerkleRoot_eq_ok.1 hok
  obtain ⟨hroot', hmut'⟩ := checkMerkleRoot_eq_ok.1 hok'
  by_contra hne
  have hflag := mutated_of_root_eq hinj (by simpa using hv) (by simpa using hv') hne hapart
    (hroot.trans hroot'.symm)
  rw [hmut, hmut'] at hflag
  simp at hflag

/-- An injective hash onto the odd numbers. -/
def oddPair (a b : Nat) : Nat := 2 * Nat.pair a b + 1

theorem oddPair_injective (a b c d : Nat) (h : oddPair a b = oddPair c d) : a = c ∧ b = d :=
  Nat.pair_eq_pair.1 (by unfold oddPair at h; omega)

theorem checkMerkleRoot_binding_repeated :
    (computeMerkleRoot oddPair [2, 4, 6]).1 = (computeMerkleRoot oddPair [2, 4, 6, 6]).1 ∧
      ((computeMerkleRoot oddPair [2, 4, 6]).2 ∨ (computeMerkleRoot oddPair [2, 4, 6, 6]).2) := by
  have hroot : (computeMerkleRoot oddPair [2, 4, 6]).1 =
      (computeMerkleRoot oddPair [2, 4, 6, 6]).1 := by decide +kernel
  have hapart : LeavesApart oddPair [2, 4, 6] [2, 4, 6, 6] := by
    -- the leaves are even and the inner nodes are odd
    have heven : ∀ x ∈ [2, 4, 6] ++ [2, 4, 6, 6], x % 2 = 0 := by decide
    have hodd : ∀ (l : List Nat) x, InnerNode oddPair l x → x % 2 = 1 := by
      intro l x h
      obtain ⟨a, b, -, rfl⟩ := h.eq_hash
      unfold oddPair
      omega
    intro x hx
    grind
  exact ⟨hroot, (checkMerkleRoot_binding oddPair oddPair_injective).1 _ _ (by decide) (by decide)
    (by decide) hapart hroot⟩

end BitcoinPurity
