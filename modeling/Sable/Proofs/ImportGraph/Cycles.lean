import Sable.Proofs.ImportGraph.Acyclic

/-!
# The cycle that an edge would close

The modules in front of the goal on a way that the search yields are those that are being searched when
the goal is found. Each of them was new when its search began, and was seen from then on, so the way
visits no module twice; and the search ends at the goal, so the goal stands on the way only once. A
refused edge is therefore answered by a cycle of different modules.
-/

namespace Sable.ImportGraph

variable {g : ImportGraph} {goal : String}

/-! ### Ways without repetition -/

private theorem subset_searchAll {fuel : Nat}
    (hone : ∀ (t : String) (seen : List String), seen ⊆ (g.search goal fuel t seen).2)
    (ts seen : List String) : seen ⊆ (g.searchAll goal fuel ts seen).2 := by
  induction ts generalizing seen with
  | nil => exact List.Subset.refl seen
  | cons t ts ih =>
    have ht := hone t seen
    rw [searchAll]
    generalize g.search goal fuel t seen = r at ht
    obtain ⟨_ | way, seen'⟩ := r
    · exact List.Subset.trans ht (ih seen')
    · exact ht

/-- What has been seen stays seen, whether a way is found or not. -/
theorem subset_search (g : ImportGraph) (goal : String) (fuel : Nat) (current : String)
    (seen : List String) : seen ⊆ (g.search goal fuel current seen).2 := by
  induction fuel generalizing current seen with
  | zero => exact List.Subset.refl seen
  | succ fuel ih =>
    rw [search_succ]
    split
    · exact List.Subset.refl seen
    · split
      · exact List.Subset.refl seen
      · exact List.Subset.trans (List.subset_cons_self ..) (subset_searchAll ih _ _)

/-- A way of different modules, none of them the goal or among those seen before. -/
structure IsSimple (goal : String) (seen way : List String) : Prop where
  /-- No module stands on the way twice. -/
  nodup : way.Nodup
  /-- The way ends in front of the goal. -/
  ne_goal : goal ∉ way
  /-- All modules on the way are new. -/
  new : ∀ u ∈ way, u ∉ seen

namespace IsSimple

variable {seen seen' way : List String} {current : String}

/-- What is new to those who have seen more is new. -/
theorem mono (h : IsSimple goal seen' way) (hseen : seen ⊆ seen') : IsSimple goal seen way :=
  ⟨h.nodup, h.ne_goal, fun u hu hin => h.new u hu (hseen hin)⟩

/-- A module that is new itself may be put in front. -/
theorem cons (h : IsSimple goal (current :: seen) way) (hgoal : current ≠ goal)
    (hnew : current ∉ seen) : IsSimple goal seen (current :: way) where
  nodup := List.nodup_cons.mpr ⟨fun hin => h.new current hin (List.mem_cons_self ..), h.nodup⟩
  ne_goal := List.not_mem_cons_of_ne_of_not_mem hgoal.symm h.ne_goal
  new := List.forall_mem_cons.mpr
    ⟨hnew, fun u hu hin => h.new u hu (List.mem_cons_of_mem current hin)⟩

end IsSimple

private theorem searchAll_simple {fuel : Nat}
    (hone : ∀ {t : String} {seen way : List String},
      (g.search goal fuel t seen).1 = some way → IsSimple goal seen way)
    {ts seen way : List String} (h : (g.searchAll goal fuel ts seen).1 = some way) :
    IsSimple goal seen way := by
  induction ts generalizing seen with
  | nil => cases h
  | cons t ts ih =>
    have hsubset := subset_search g goal fuel t seen
    have hway := @hone t seen
    rw [searchAll] at h
    generalize g.search goal fuel t seen = r at h hsubset hway
    obtain ⟨_ | found, seen'⟩ := r
    · exact (ih h).mono hsubset
    · exact hway h

/-- The way that a search yields has no repetition, and avoids all that was seen before. -/
theorem search_simple {fuel : Nat} {current : String} {seen way : List String}
    (h : (g.search goal fuel current seen).1 = some way) : IsSimple goal seen way := by
  induction fuel generalizing current seen way with
  | zero => cases h
  | succ fuel ih =>
    rw [search_succ] at h
    split at h
    · obtain rfl : [] = way := Option.some.inj h
      exact ⟨List.nodup_nil, List.not_mem_nil, nofun⟩
    next hgoal =>
    split at h
    · cases h
    next hseen =>
    obtain ⟨rest, hrest, rfl⟩ := Option.map_eq_some_iff.mp h
    exact (searchAll_simple ih hrest).cons hgoal fun hin => hseen (List.contains_iff_mem.mpr hin)

/-! ### The cycle -/

/--
A list of modules that an edge closes to a cycle: it leads from the source of the edge over the edge,
and from there along recorded edges back to the source, and passes no module twice on the way.
-/
structure IsCycle (g : ImportGraph) (source target : String) (cycle : List String) : Prop where
  /-- The cycle starts at the source. -/
  head : cycle.head? = some source
  /-- The cycle goes on to the target. -/
  second : cycle[1]? = some target
  /-- The cycle comes back to the source. -/
  last : cycle.getLast? = some source
  /-- The cycle of a module that imports itself still lists it twice. -/
  length : 2 ≤ cycle.length
  /-- Behind the edge the cycle follows recorded edges. -/
  chain : List.IsChain g.Edge cycle.tail
  /-- No module is passed twice. -/
  nodup : cycle.dropLast.Nodup

/-- An edge that is refused would close the cycle that it is answered by. -/
theorem isCycle_of_insert {source target : String} {cycle : List String}
    (h : g.insert source target = .error cycle) :
    g.IsCycle (slashed source) (slashed target) cycle := by
  simp only [insert] at h
  cases hpath : g.path? (slashed target) (slashed source) with
  | none => simp [hpath] at h
  | some way =>
    simp only [hpath, Except.error.injEq] at h
    have hway := search_some (Prod.ext hpath rfl)
    have hsimple := search_simple hpath
    rw [← h]
    exact {
      head := rfl
      second := List.head?_eq_getElem?.symm.trans hway.head
      last := List.getLast?_concat
      length := by simp
      chain := hway.chain
      nodup := by
        rw [List.dropLast_concat]
        exact List.nodup_cons.mpr ⟨hsimple.ne_goal, hsimple.nodup⟩ }

/--
Whatever has been recorded and dropped: an edge that is refused is answered by a cycle that starts
and ends with its source, goes on to its target, follows recorded edges from there, and passes no
module twice.
-/
theorem ofChanges_tryInsert_isCycle (changes : List Change) {source target : String}
    {cycle : List String} (h : ((ofChanges changes).tryInsert source target).1 = some cycle) :
    (ofChanges changes).IsCycle (slashed source) (slashed target) cycle := by
  refine isCycle_of_insert ?_
  unfold tryInsert at h
  split at h
  · cases h
  · next hinsert => rw [hinsert, Option.some.inj h]

/-- The edge from `lib/c` to `lib/a` would close a cycle of three modules. -/
theorem isCycle_threeModules :
    ((ofChanges [.insert "lib/a" "lib\\b", .insert "lib/a" "d", .insert "lib/b" "lib/c"]).tryInsert
        "lib\\c" "lib/a").1 = some ["lib/c", "lib/a", "lib/b", "lib/c"] ∧
      (ofChanges [.insert "lib/a" "lib\\b", .insert "lib/a" "d", .insert "lib/b" "lib/c"]).IsCycle
        (slashed "lib\\c") (slashed "lib/a") ["lib/c", "lib/a", "lib/b", "lib/c"] := by
  have hrefused : ((ofChanges
      [.insert "lib/a" "lib\\b", .insert "lib/a" "d", .insert "lib/b" "lib/c"]).tryInsert
        "lib\\c" "lib/a").1 = some ["lib/c", "lib/a", "lib/b", "lib/c"] := by decide +kernel
  exact ⟨hrefused, ofChanges_tryInsert_isCycle _ hrefused⟩

end Sable.ImportGraph
