import BitcoinPurity.Lib.Each

/-!
Walks through a finite graph with a set of elements to visit: the least one is taken, and those of
its neighbours that have not been visited are added.

`explore_spec`: with as much fuel as there are elements left to visit the walk ends, and what it has
visited is what it started with and all that can be reached from the elements to visit.

`exploreCached` is the walk that does not go below an element for which the elements below are
known.  What is known may leave out some elements, as long as nothing that is left out lies below
something that is not; `exploreCached_spec` says that the walk finds the others.
-/

namespace Explore

open Each List Finset

variable {α : Type*} [LinearOrder α]

/-- The loop: `stage` is to be visited, `seen` has been. -/
def explore (next : α → Finset α) : Nat → Finset α → Finset α → Option (Finset α)
  | 0, stage, seen => if stage = ∅ then some seen else none
  | fuel + 1, stage, seen =>
    if h : stage.Nonempty then
      let x := stage.min' h
      explore next fuel (stage.erase x ∪ (next x \ insert x seen)) (insert x seen)
    else some seen

/-- What can be reached, in any number of steps. -/
abbrev Reaches (next : α → Finset α) : α → α → Prop :=
  Relation.ReflTransGen fun x y => y ∈ next x

variable {next : α → Finset α} {domain stage seen : Finset α}

/-- What the loop keeps: the elements to visit are new, and the neighbours of those that have been
visited are among the two sets. -/
structure Frontier (next : α → Finset α) (domain stage seen : Finset α) : Prop where
  inside : stage ⊆ domain
  closed : ∀ x ∈ domain, next x ⊆ domain
  fresh : Disjoint stage seen
  covered : ∀ x ∈ seen, next x ⊆ seen ∪ stage

omit [LinearOrder α] in
/-- A relation that the neighbours are, within a set that it does not leave. -/
theorem reaches_iff {E : α → α → Prop} {s : Finset α} (hnext : ∀ x ∈ s, ∀ y, y ∈ next x ↔ E x y)
    (hE : ∀ x y, E x y → y ∈ s) {x y : α} (hx : x ∈ s) :
    Reaches next x y ↔ Relation.ReflTransGen E x y := by
  constructor
  · intro h
    suffices Relation.ReflTransGen E x y ∧ y ∈ s from this.1
    induction h with
    | refl => exact ⟨.refl, hx⟩
    | tail _ hstep ih => grind
  · intro h
    suffices Reaches next x y ∧ y ∈ s from this.1
    induction h with
    | refl => exact ⟨.refl, hx⟩
    | tail _ hyz ih => exact ⟨ih.1.tail ((hnext _ ih.2 _).2 hyz), hE _ _ hyz⟩

/-! ## With known descendants -/

/-- A neighbour of a visited element: what is known to lie below it is added to the visited
elements, or else it is to be visited. -/
def stageCached (cached : α → Option (Finset α)) (s : Finset α × Finset α) (child : α) :
    Finset α × Finset α :=
  match cached child with
  | some entries => (s.1, s.2 ∪ entries)
  | none => if child ∈ s.2 then s else (insert child s.1, s.2)

def exploreCached (next : α → Finset α) (cached : α → Option (Finset α)) :
    Nat → Finset α → Finset α → Option (Finset α)
  | 0, stage, seen => if stage = ∅ then some seen else none
  | fuel + 1, stage, seen =>
    if h : stage.Nonempty then
      let x := stage.min' h
      let s := (ascending (next x).card (next x)).foldl (stageCached cached)
        (stage.erase x, insert x seen)
      exploreCached next cached fuel s.1 s.2
    else some seen

/-- Everything of interest that can be reached from an element is in a set. -/
def Settled (next : α → Finset α) (keep : α → Prop) (seen : Finset α) (x : α) : Prop :=
  ∀ d, keep d → Reaches next x d → d ∈ seen

/-- What the loop keeps, with the elements that it has visited (`done`); others are in `seen`
because they were known. -/
structure Progress (next : α → Finset α) (keep : α → Prop) (start : α → Prop)
    (domain done stage seen : Finset α) : Prop where
  inside : stage ⊆ domain
  sound : ∀ y, y ∈ stage ∨ y ∈ seen → start y
  fresh : ∀ y ∈ stage, y ∉ done
  visited : done ⊆ seen
  covered : ∀ y ∈ done, ∀ z ∈ next y, z ∈ stage ∨ z ∈ done ∨ Settled next keep seen z
  known : ∀ y ∈ seen, y ∈ done ∨ Settled next keep seen y

variable {cached : α → Option (Finset α)} {keep start : α → Prop} {done : Finset α}

omit [LinearOrder α] in
theorem Settled.mono {seen seen' : Finset α} {x : α} (h : Settled next keep seen x)
    (hsub : seen ⊆ seen') : Settled next keep seen' x := fun d hd hxd => hsub (h d hd hxd)

/-- What the inner loop does. -/
structure Staged (cached : α → Option (Finset α)) (children : List α)
    (stage seen stage' seen' : Finset α) : Prop where
  stage_subset : stage ⊆ stage'
  seen_subset : seen ⊆ seen'
  stage_mem : ∀ y ∈ stage', y ∈ stage ∨ (y ∈ children ∧ y ∉ seen)
  seen_mem : ∀ y ∈ seen', y ∈ seen ∨
    ∃ c ∈ children, ∃ entries, cached c = some entries ∧ y ∈ entries ∧ entries ⊆ seen'
  children_mem : ∀ c ∈ children,
    (∃ entries, cached c = some entries ∧ entries ⊆ seen') ∨ c ∈ stage' ∨ c ∈ seen'

omit [LinearOrder α] in
theorem Staged.cons {c : α} {children : List α} {stage seen stage₁ seen₁ stage' seen' : Finset α}
    (h : Staged cached [c] stage seen stage₁ seen₁)
    (h' : Staged cached children stage₁ seen₁ stage' seen') :
    Staged cached (c :: children) stage seen stage' seen' where
  stage_subset := h.stage_subset.trans h'.stage_subset
  seen_subset := h.seen_subset.trans h'.seen_subset
  stage_mem y hy := by
    rcases h'.stage_mem y hy with hy | ⟨hy, hseen⟩
    · exact (h.stage_mem y hy).imp_right fun ⟨hc, hseen⟩ => ⟨List.mem_singleton.1 hc ▸ .head _, hseen⟩
    · exact .inr ⟨.tail _ hy, fun hs => hseen (h.seen_subset hs)⟩
  seen_mem y hy := by
    rcases h'.seen_mem y hy with hy | ⟨d, hd, rest⟩
    · refine (h.seen_mem y hy).imp_right ?_
      rintro ⟨d, hd, entries, hcd, hye, hsub⟩
      exact ⟨d, List.mem_singleton.1 hd ▸ .head _, entries, hcd, hye, hsub.trans h'.seen_subset⟩
    · exact .inr ⟨d, .tail _ hd, rest⟩
  children_mem d hd := by
    rcases mem_cons.1 hd with rfl | hd
    · rcases h.children_mem d (.head _) with ⟨entries, hcd, hsub⟩ | hs | hs
      · exact .inl ⟨entries, hcd, hsub.trans h'.seen_subset⟩
      · exact .inr (.inl (h'.stage_subset hs))
      · exact .inr (.inr (h'.seen_subset hs))
    · exact h'.children_mem d hd

theorem stageCached_spec (cached : α → Option (Finset α)) (children : List α)
    (stage seen : Finset α) :
    Staged cached children stage seen (children.foldl (stageCached cached) (stage, seen)).1
      (children.foldl (stageCached cached) (stage, seen)).2 := by
  induction children generalizing stage seen with
  | nil => exact ⟨subset_rfl, subset_rfl, fun _ h => .inl h, fun _ h => .inl h, by simp⟩
  | cons c children ih =>
    refine .cons ?_ (ih _ _)
    cases hc : cached c with
    | some entries =>
      refine ⟨subset_rfl, subset_union_left, fun _ h => .inl h, fun y hy => ?_, fun d hd => ?_⟩
      · exact (mem_union.1 hy).imp_right fun hy =>
          ⟨c, .head _, entries, hc, hy, subset_union_right⟩
      · exact .inl ⟨entries, List.mem_singleton.1 hd ▸ hc, subset_union_right⟩
    | none =>
      simp only
      split
      next hseen =>
        refine ⟨subset_rfl, subset_rfl, fun _ h => .inl h, fun _ h => .inl h, fun d hd => ?_⟩
        exact .inr (.inr (List.mem_singleton.1 hd ▸ hseen))
      next hseen =>
        refine ⟨Finset.subset_insert _ _, subset_rfl, fun y hy => ?_, fun _ h => .inl h,
          fun d hd => .inr (.inl (List.mem_singleton.1 hd ▸ mem_insert_self _ _))⟩
        grind

section

variable (hstart : ∀ y z, start y → z ∈ next y → start z)
  (hdomain : ∀ y, start y → y ∈ domain)
  (hcached : ∀ c entries, start c → cached c = some entries →
    ¬ keep c ∧ ∀ d, d ∈ entries ↔ keep d ∧ Relation.TransGen (fun x y => y ∈ next x) c d)

omit [LinearOrder α] in
include hcached in
/-- What is known to lie below an element settles it and what lies below. -/
theorem settled_of_cached {c : α} {entries : Finset α} (hc : start c)
    (h : cached c = some entries) (hsub : entries ⊆ seen) :
    Settled next keep seen c ∧ ∀ y ∈ entries, Settled next keep seen y := by
  obtain ⟨hkeep, hentries⟩ := hcached c entries hc h
  refine ⟨fun d hd hcd => hsub ((hentries d).2 ⟨hd, ?_⟩), fun y hy d hd hyd => ?_⟩
  · grind
  · exact hsub ((hentries d).2 ⟨hd, ((hentries y).1 hy).2.trans_left hyd⟩)

include hstart hdomain hcached in
theorem Progress.visit (h : Progress next keep start domain done stage seen) {x : α}
    (hx : x ∈ stage) {stage' seen' : Finset α} {children : List α}
    (hchildren : ∀ c, c ∈ children ↔ c ∈ next x)
    (hs : Staged cached children (stage.erase x) (insert x seen) stage' seen') :
    Progress next keep start domain (insert x done) stage' seen' := by
  have hxs : start x := h.sound x (.inl hx)
  have hchild {c : α} (hc : c ∈ children) : start c := hstart x c hxs ((hchildren c).1 hc)
  have hseen : seen ⊆ seen' := (Finset.subset_insert _ _).trans hs.seen_subset
  have hxseen : x ∈ seen' := hs.seen_subset (Finset.mem_insert_self _ _)
  have hstage {y : α} (hy : y ∈ stage') : y ∈ stage ∧ y ≠ x ∨ y ∈ children ∧ y ∉ insert x seen := by
    rcases hs.stage_mem y hy with hy | hy
    · exact .inl ⟨mem_of_mem_erase hy, ne_of_mem_erase hy⟩
    · exact .inr hy
  have hknown : ∀ y ∈ seen', y ∈ insert x done ∨ Settled next keep seen' y := by
    intro y hy
    rcases hs.seen_mem y hy with hy | ⟨c, hc, entries, hcc, hye, hsub⟩
    · rcases mem_insert.1 hy with rfl | hy
      · exact .inl (mem_insert_self _ _)
      rcases h.known y hy with hd | hset
      · exact .inl (mem_insert_of_mem hd)
      · exact .inr (hset.mono hseen)
    · exact .inr ((settled_of_cached hcached (hchild hc) hcc hsub).2 y hye)
  have hsound : ∀ y, y ∈ stage' ∨ y ∈ seen' → start y := by
    rintro y (hy | hy)
    · rcases hstage hy with ⟨hy, -⟩ | ⟨hy, -⟩
      · exact h.sound y (.inl hy)
      · exact hchild hy
    · rcases hs.seen_mem y hy with hy | ⟨c, hc, entries, hcc, hye, -⟩
      · rcases mem_insert.1 hy with rfl | hy
        · exact hxs
        · exact h.sound y (.inr hy)
      have hcy := (((hcached c entries (hchild hc) hcc).2 y).1 hye).2
      have hcs := hchild hc
      clear hy hye hcc hc
      induction hcy with
      | single hcz => exact hstart _ _ hcs hcz
      | tail _ hyz ih => exact hstart _ _ ih hyz
  refine ⟨fun y hy => hdomain y (hsound y (.inl hy)), hsound, fun y hy hd => ?_, ?_, ?_, hknown⟩
  · rcases hstage hy with ⟨hy, hne⟩ | ⟨-, hns⟩
    · rcases mem_insert.1 hd with rfl | hd
      · exact hne rfl
      · exact h.fresh y hy hd
    rcases mem_insert.1 hd with rfl | hd
    · exact hns (mem_insert_self _ _)
    · exact hns (mem_insert_of_mem (h.visited hd))
  · exact insert_subset hxseen (h.visited.trans hseen)
  · intro y hy z hz
    rcases mem_insert.1 hy with rfl | hy
    · rcases hs.children_mem z ((hchildren z).2 hz) with ⟨entries, hcz, hsub⟩ | hzs | hzs
      · exact .inr (.inr (settled_of_cached hcached (hstart _ z hxs hz) hcz hsub).1)
      · exact .inl hzs
      · exact .inr (hknown z hzs)
    rcases h.covered y hy z hz with hzs | hzd | hset
    · by_cases hzx : z = x
      · exact .inr (.inl (hzx ▸ mem_insert_self _ _))
      · exact .inl (hs.stage_subset (mem_erase.2 ⟨hzx, hzs⟩))
    · exact .inr (.inl (mem_insert_of_mem hzd))
    · exact .inr (.inr (hset.mono hseen))

omit [LinearOrder α] in
theorem Progress.settled (h : Progress next keep start domain done ∅ seen) {y : α}
    (hy : y ∈ seen) : Settled next keep seen y := by
  intro d hd hyd
  have hend : d ∈ done ∨ Settled next keep seen d := by
    clear hd
    induction hyd with
    | refl => exact h.known y hy
    | tail _ hbc ih =>
      rcases ih with hdone | hset
      · exact (h.covered _ hdone _ hbc).resolve_left (notMem_empty _)
      · exact .inr fun e he hce => hset e he (.head hbc hce)
  rcases hend with hdone | hset
  · exact h.visited hdone
  · exact hset d hd .refl

include hstart hdomain hcached in
/-- **The walk with known descendants** finds everything of interest that can be reached. -/
theorem exploreCached_spec {fuel : Nat} (h : Progress next keep start domain done stage seen)
    (hfuel : (domain \ done).card ≤ fuel) :
    ∃ result, exploreCached next cached fuel stage seen = some result ∧ (∀ y ∈ result, start y) ∧
      ∀ y, y ∈ stage ∨ y ∈ seen → Settled next keep result y := by
  induction fuel generalizing done stage seen with
  | zero =>
    have hsub : domain ⊆ done :=
      sdiff_eq_empty_iff_subset.1 (card_eq_zero.1 (Nat.le_zero.1 hfuel))
    have hempty : stage = ∅ :=
      eq_empty_of_forall_notMem fun x hx => h.fresh x hx (hsub (h.inside hx))
    subst hempty
    refine ⟨seen, if_pos rfl, fun y hy => h.sound y (.inr hy), fun y hy => ?_⟩
    exact h.settled (hy.resolve_left (notMem_empty y))
  | succ fuel ih =>
    rw [exploreCached]
    by_cases hs : stage.Nonempty
    · rw [dif_pos hs]
      have hx := stage.min'_mem hs
      generalize stage.min' hs = x at hx
      have hstep := h.visit hstart hdomain hcached hx
        (fun c => mem_ascending le_rfl)
        (stageCached_spec cached _ (stage.erase x) (insert x seen))
      have hlt : (domain \ insert x done).card < (domain \ done).card := by
        rw [sdiff_insert]
        exact card_erase_lt_of_mem (mem_sdiff.2 ⟨h.inside hx, h.fresh x hx⟩)
      obtain ⟨result, heq, hsound, hset⟩ := ih hstep (by omega)
      refine ⟨result, heq, hsound, fun y hy => hset y ?_⟩
      have hstaged := stageCached_spec cached (ascending (next x).card (next x))
        (stage.erase x) (insert x seen)
      by_cases hyx : y = x
      · exact .inr (hstaged.seen_subset (hyx ▸ mem_insert_self _ _))
      rcases hy with hy | hy
      · exact .inl (hstaged.stage_subset (mem_erase.2 ⟨hyx, hy⟩))
      · exact .inr (hstaged.seen_subset (mem_insert_of_mem hy))
    · rw [dif_neg hs]
      rw [not_nonempty_iff_eq_empty.1 hs] at h
      refine ⟨seen, rfl, fun y hy => h.sound y (.inr hy), fun y hy => ?_⟩
      rw [not_nonempty_iff_eq_empty.1 hs] at hy
      exact h.settled (hy.resolve_left (notMem_empty y))

end

/-! ## With nothing known -/

theorem foldl_stageCached_none (children : List α) (stage seen : Finset α) :
    children.foldl (stageCached fun _ => none) (stage, seen) =
      (stage ∪ (children.toFinset \ seen), seen) := by
  induction children generalizing stage with
  | nil => simp
  | cons c children ih =>
    rw [foldl_cons, stageCached, toFinset_cons]
    by_cases hc : c ∈ seen
    · rw [if_pos hc, ih, insert_sdiff_of_mem _ hc]
    · rw [if_neg hc, ih, insert_sdiff_of_notMem _ hc, union_insert, insert_union]

theorem explore_eq (next : α → Finset α) (fuel : Nat) (stage seen : Finset α) :
    explore next fuel stage seen = exploreCached next (fun _ => none) fuel stage seen := by
  induction fuel generalizing stage seen with
  | zero => rfl
  | succ fuel ih =>
    have hall (s : Finset α) : (ascending s.card s).toFinset = s := by
      ext x
      rw [mem_toFinset, mem_ascending le_rfl]
    simp only [explore, exploreCached, foldl_stageCached_none, hall, ih]

/-- **The walk ends with what can be reached.** -/
theorem explore_spec {fuel : Nat} (h : Frontier next domain stage seen)
    (hfuel : (domain \ seen).card ≤ fuel) :
    ∃ result, explore next fuel stage seen = some result ∧
      ∀ y, y ∈ result ↔ y ∈ seen ∨ ∃ x ∈ stage, Reaches next x y := by
  let start (y : α) : Prop := y ∈ seen ∨ ∃ x ∈ stage, Reaches next x y
  have hstart : ∀ y z, start y → z ∈ next y → start z := by
    rintro y z (hy | ⟨x, hx, hxy⟩) hz
    · exact (mem_union.1 (h.covered y hy hz)).imp_right fun hz => ⟨z, hz, .refl⟩
    · exact .inr ⟨x, hx, hxy.tail hz⟩
  have hdomain : ∀ y, start y → y ∈ domain ∪ seen := by
    rintro y (hy | ⟨x, hx, hxy⟩)
    · exact mem_union_right _ hy
    refine mem_union_left _ ?_
    induction hxy with
    | refl => exact h.inside hx
    | tail _ hstep ih => exact h.closed _ ih hstep
  have hprogress : Progress next (fun _ => True) start (domain ∪ seen) seen stage seen := by
    refine ⟨h.inside.trans subset_union_left, ?_, fun y hy => disjoint_left.1 h.fresh hy, subset_rfl,
      fun y hy z hz => ?_, fun y hy => .inl hy⟩
    · grind
    · exact (mem_union.1 (h.covered y hy hz)).elim (fun hz => .inr (.inl hz)) .inl
  rw [explore_eq]
  refine (exploreCached_spec hstart hdomain ?_ hprogress ?_).imp fun result hr =>
    ⟨hr.1, fun y => ⟨hr.2.1 y, ?_⟩⟩
  · simp
  · rwa [union_sdiff_right]
  rintro (hy | ⟨x, hx, hxy⟩)
  · exact hr.2.2 y (.inr hy) y trivial .refl
  · exact hr.2.2 x (.inl hx) y trivial hxy

end Explore
