import Mathlib.Data.List.MinMax
import Mathlib.Data.List.Perm.Subperm

/-!
A finite set that is kept in the order of a key, seen through its iterators: the element at the
beginning and at the end, the neighbours of an element and the lower bound of a key.  The set is a
list in any order; the key, with values in a linear order, says where an element stands.

`walk_spec` is the rule for a loop that erases a run of elements from an iterator on.
-/

namespace Sorted

open List

variable {α κ : Type*} [LinearOrder κ] {key : α → κ} {l : List α} {x y : α} {k : κ}

section

variable (key : α → κ) (l : List α)

def first : Option α := l.argmin key

def last : Option α := l.argmax key

def next (x : α) : Option α :=
  first key (l.filter fun y => decide (key x < key y))

/-- `std::prev`; `none` for the element at the beginning. -/
def prev (x : α) : Option α :=
  last key (l.filter fun y => decide (key y < key x))

/-- The first element that does not stand before the key. -/
def lowerBound (k : κ) : Option α :=
  first key (l.filter fun y => decide (k ≤ key y))

end

theorem mem_of_next (h : next key l x = some y) : y ∈ l ∧ key x < key y := by
  simpa using argmin_mem h

theorem next_le {z : α} (h : next key l x = some y) (hz : z ∈ l) (hlt : key x < key z) :
    key y ≤ key z :=
  le_of_mem_argmin (by simpa using ⟨hz, hlt⟩) h

theorem le_of_next_eq_none {z : α} (h : next key l x = none) (hz : z ∈ l) : key z ≤ key x := by
  have hnil := argmin_eq_none.1 h
  rw [filter_eq_nil_iff] at hnil
  simpa using hnil z hz

theorem mem_of_prev (h : prev key l x = some y) : y ∈ l ∧ key y < key x := by
  simpa using argmax_mem h

theorem le_prev {z : α} (h : prev key l x = some y) (hz : z ∈ l) (hlt : key z < key x) :
    key z ≤ key y :=
  le_of_mem_argmax (by simpa using ⟨hz, hlt⟩) h

theorem le_of_prev_eq_none {z : α} (h : prev key l x = none) (hz : z ∈ l) : key x ≤ key z := by
  have hnil := argmax_eq_none.1 h
  rw [filter_eq_nil_iff] at hnil
  simpa using hnil z hz

theorem mem_of_lowerBound (h : lowerBound key l k = some x) : x ∈ l ∧ k ≤ key x := by
  simpa using argmin_mem h

theorem lowerBound_le (h : lowerBound key l k = some x) (hy : y ∈ l) (hk : k ≤ key y) :
    key x ≤ key y :=
  le_of_mem_argmin (by simpa using ⟨hy, hk⟩) h

theorem lt_of_lowerBound_eq_none (h : lowerBound key l k = none) (hy : y ∈ l) : key y < k := by
  have hnil := argmin_eq_none.1 h
  rw [filter_eq_nil_iff] at hnil
  simpa using hnil y hy

/-! ## Walks -/

/-- The iterator is at the first element with the mark, if there is one. -/
structure Leads (key : α → κ) (l : List α) (p : α → Bool) (start : Option α) : Prop where
  mem : ∀ x ∈ start, x ∈ l
  first : ∀ y ∈ l, p y → ∃ x ∈ start, p x ∧ key x ≤ key y

variable {p : α → Bool}

/-- Marked elements that stand at or after the key, with no other between. -/
theorem Leads.lowerBound (hk : ∀ y ∈ l, p y → k ≤ key y)
    (hp : ∀ x y, k ≤ key x → key x ≤ key y → p y → p x) : Leads key l p (lowerBound key l k) := by
  refine ⟨fun x hx => (mem_of_lowerBound hx).1, fun y hy hpy => ?_⟩
  cases hlow : Sorted.lowerBound key l k with
  | none => exact absurd (lt_of_lowerBound_eq_none hlow hy) (not_lt.2 (hk y hy hpy))
  | some x =>
    have hle := lowerBound_le hlow hy (hk y hy hpy)
    exact ⟨x, rfl, hp x y (mem_of_lowerBound hlow).2 hle hpy, hle⟩

theorem countP_lt {l l' : List α} [DecidableEq α] (hnodup : l'.Nodup) (hx : x ∈ l) (hp : p x)
    (h : ∀ y ∈ l', p y → y ∈ l ∧ y ≠ x) : l'.countP p < l.countP p := by
  have hsub : l'.filter p ⊆ (l.filter p).erase x := by grind
  have hmem : x ∈ l.filter p := mem_filter.2 ⟨hx, hp⟩
  have hlen := (subperm_of_subset (hnodup.filter p) hsub).length_le
  rw [length_erase_of_mem hmem] at hlen
  have := length_pos_of_mem hmem
  rw [countP_eq_length_filter, countP_eq_length_filter]
  omega

/-- **The rule for a walk**: a round erases the element at the iterator and no other marked one, and
goes on with the next one if it is marked.  The walk ends, and no marked element is left. -/
theorem walk_spec [DecidableEq α] {σ : Type*} {members : σ → List α} {inv : σ → Prop}
    {loop : Nat → Option α → σ → Option σ} {fuel : Nat} {start : Option α} {s : σ}
    (hrun : ∀ x y z, key x ≤ key y → key y ≤ key z → p x → p z → p y)
    (hend : ∀ fuel start s, (∀ x ∈ start, ¬ p x) → loop fuel start s = some s)
    (hround : ∀ fuel s x, inv s → x ∈ members s → p x → ∃ start s',
      loop (fuel + 1) (some x) s = loop fuel start s' ∧ inv s' ∧
      (∀ y, next key (members s) x = some y → p y → start = some y) ∧
      (∀ y ∈ start, y ∈ members s') ∧ ∀ y ∈ members s', p y → y ∈ members s ∧ y ≠ x)
    (hinv : ∀ s, inv s → (members s).Nodup ∧
      ∀ x ∈ members s, ∀ y ∈ members s, key x = key y → x = y)
    (hs : inv s) (hstart : Leads key (members s) p start) (hfuel : (members s).countP p ≤ fuel) :
    ∃ s', loop fuel start s = some s' ∧ inv s' ∧ ∀ y ∈ members s', ¬ p y := by
  induction fuel generalizing s start with
  | zero =>
    have hnone : ∀ y ∈ members s, ¬ p y := countP_eq_zero.1 (Nat.le_zero.1 hfuel)
    exact ⟨s, hend 0 start s fun x hx => hnone x (hstart.mem x hx), hs, hnone⟩
  | succ fuel ih =>
    by_cases hx : ∃ x ∈ start, p x
    · obtain ⟨x, rfl, hpx⟩ := hx
      have hmem := hstart.mem x rfl
      obtain ⟨start', s', hloop, hs', hstart', hmem', hleft⟩ := hround fuel s x hs hmem hpx
      rw [hloop]
      refine ih hs' ⟨hmem', fun y hy hpy => ?_⟩ (Nat.lt_succ_iff.1 (Nat.lt_of_lt_of_le
        (countP_lt (hinv s' hs').1 hmem hpx hleft) hfuel))
      -- what is left stands after `x`, so the next one is marked
      obtain ⟨hys, hne⟩ := hleft y hy hpy
      obtain ⟨z, hz, -, hle⟩ := hstart.first y hys hpy
      cases hz
      have hlt : key x < key y := lt_of_le_of_ne hle fun he => hne ((hinv s hs).2 x hmem y hys he).symm
      cases hn : next key (members s) x with
      | none => exact absurd (le_of_next_eq_none hn hys) (not_le.2 hlt)
      | some n =>
        have hnle := next_le hn hys hlt
        have hpn := hrun x n y (mem_of_next hn).2.le hnle hpx hpy
        exact ⟨n, hstart' n hn hpn, hpn, hnle⟩
    · refine ⟨s, hend _ start s fun x hx' hpx => hx ⟨x, hx', hpx⟩, hs, fun y hy hpy => hx ?_⟩
      obtain ⟨x, hx', hpx, -⟩ := hstart.first y hy hpy
      exact ⟨x, hx', hpx⟩

end Sorted
