import Sable.ImportGraph
import Mathlib.Data.Finset.Card
import Mathlib.Data.List.Chain
import Mathlib.Logic.Relation

/-!
# Ways through the graph of imports

The search keeps one list of seen modules for all of its branches and never takes a module
off it. So a search that finds nothing leaves a list that no edge leads out of, and that does
not hold the goal: this closure is what makes the search complete, whatever was seen before a
branch was entered. The modules with edges that are not seen yet bound the depth.
-/

namespace Sable.ImportGraph

/-- An edge is recorded between two keys as the graph holds them, which is normalized. -/
def Edge (g : ImportGraph) (u v : String) : Prop := v ∈ g.targets u

/-- A way along recorded edges, which may be empty. -/
def Reaches (g : ImportGraph) : String → String → Prop := Relation.ReflTransGen g.Edge

/-- No way along recorded edges leads from a module back to itself. -/
def Acyclic (g : ImportGraph) : Prop := ∀ u, ¬ Relation.TransGen g.Edge u u

@[simp] theorem not_edge_empty (u v : String) : ¬ empty.Edge u v := by
  simp [Edge, targets, empty]

/-- Only a module with an entry of its own has edges. -/
theorem Edge.mem_keys {g : ImportGraph} {u v : String} (h : g.Edge u v) :
    u ∈ g.entries.map Prod.fst := by
  cases he : g.entries.lookup u with
  | none => simp [Edge, targets, he] at h
  | some ts =>
    obtain ⟨before, after, heq, _⟩ := List.lookup_eq_some_iff.mp he
    simp [heq]

/-! ### One search after another -/

section Search

variable (g : ImportGraph) (goal : String)

/-- Searches from several modules in turn, up to the first way that is found. -/
def searchAll (fuel : Nat) : List String → List String → Option (List String) × List String
  | [], seen => (none, seen)
  | next :: rest, seen =>
    match g.search goal fuel next seen with
    | (some way, seen) => (some way, seen)
    | (none, seen) => searchAll fuel rest seen

private theorem foldl_search_some (fuel : Nat) (way ts seen : List String) :
    ts.foldl
      (fun (found, seen) next =>
        match found with
        | some way => (some way, seen)
        | none => g.search goal fuel next seen)
      (some way, seen) = (some way, seen) := by
  induction ts with
  | nil => rfl
  | cons t ts ih => exact ih

private theorem foldl_search (fuel : Nat) (ts seen : List String) :
    ts.foldl
      (fun (found, seen) next =>
        match found with
        | some way => (some way, seen)
        | none => g.search goal fuel next seen)
      (none, seen) = g.searchAll goal fuel ts seen := by
  induction ts generalizing seen with
  | nil => rfl
  | cons t ts ih =>
    rw [List.foldl_cons, searchAll]
    dsimp only
    rcases g.search goal fuel t seen with ⟨_ | way, seen'⟩
    · exact ih seen'
    · exact g.foldl_search_some goal fuel way ts seen'

/-- A module that is neither the goal nor seen is searched through its edges in turn. -/
theorem search_succ (fuel : Nat) (current : String) (seen : List String) :
    g.search goal (fuel + 1) current seen =
      if current = goal then (some [], seen)
      else if seen.contains current then (none, seen)
      else
        ((g.searchAll goal fuel (g.targets current) (current :: seen)).1.map (current :: ·),
          (g.searchAll goal fuel (g.targets current) (current :: seen)).2) := by
  rw [← foldl_search]
  rfl

end Search

/-! ### What is found -/

/-- Modules that, followed by the goal, form a way along recorded edges from a source. -/
structure IsWay (g : ImportGraph) (source goal : String) (way : List String) : Prop where
  /-- The way starts at the source. -/
  head : (way ++ [goal]).head? = some source
  /-- Each module on the way imports the next one. -/
  chain : List.IsChain g.Edge (way ++ [goal])

/-- A way from a module behind an edge is one step shorter than the way over that edge. -/
theorem IsWay.cons {g : ImportGraph} {u v goal : String} {way : List String}
    (h : g.IsWay v goal way) (he : g.Edge u v) : g.IsWay u goal (u :: way) where
  head := rfl
  chain := by
    rw [List.cons_append, List.isChain_cons]
    refine ⟨fun w hw => ?_, h.chain⟩
    obtain rfl : v = w := Option.some.inj (h.head.symm.trans hw)
    exact he

theorem IsWay.reaches {g : ImportGraph} {source goal : String} {way : List String}
    (h : g.IsWay source goal way) : g.Reaches source goal := by
  cases way with
  | nil =>
    obtain rfl : goal = source := by simpa using h.head
    exact Relation.ReflTransGen.refl
  | cons u way =>
    obtain rfl : u = source := by simpa using h.head
    exact List.relationReflTransGen_of_exists_isChain_cons (way ++ [goal]) h.chain (by simp)

private theorem searchAll_some {g : ImportGraph} {goal : String} {fuel : Nat}
    (hone : ∀ {t : String} {seen seen' way : List String},
      g.search goal fuel t seen = (some way, seen') → g.IsWay t goal way)
    {ts seen seen' way : List String}
    (h : g.searchAll goal fuel ts seen = (some way, seen')) : ∃ t ∈ ts, g.IsWay t goal way := by
  induction ts generalizing seen with
  | nil => simp [searchAll] at h
  | cons t ts ih =>
    rw [searchAll] at h
    rcases hs : g.search goal fuel t seen with ⟨_ | found, seen''⟩
    · rw [hs] at h
      obtain ⟨t', ht', hway⟩ := ih h
      exact ⟨t', List.mem_cons_of_mem _ ht', hway⟩
    · simp only [hs, Prod.mk.injEq, Option.some.injEq] at h
      exact ⟨t, List.mem_cons_self .., h.1 ▸ hone hs⟩

/-- What a search yields is a way from where it started. -/
theorem search_some {g : ImportGraph} {goal : String} {fuel : Nat} {current : String}
    {seen seen' way : List String} (h : g.search goal fuel current seen = (some way, seen')) :
    g.IsWay current goal way := by
  induction fuel generalizing current seen seen' way with
  | zero => simp [search] at h
  | succ fuel ih =>
    rw [search_succ] at h
    split at h
    · next hc =>
      simp only [Prod.mk.injEq, Option.some.injEq] at h
      rw [← h.1, hc]
      exact ⟨rfl, List.isChain_singleton goal⟩
    split at h
    · simp at h
    · simp only [Prod.mk.injEq, Option.map_eq_some_iff] at h
      obtain ⟨⟨rest, hrest, rfl⟩, _⟩ := h
      obtain ⟨t, ht, hway⟩ := searchAll_some ih (Prod.ext hrest rfl)
      exact hway.cons ht

/-! ### What is seen -/

/-- What a search without result adds to the seen modules: no goal, and every edge from there. -/
structure Explored (g : ImportGraph) (goal : String) (seen seen' : List String) : Prop where
  /-- What was seen stays seen. -/
  subset : seen ⊆ seen'
  /-- What is new is not the goal. -/
  ne_goal : ∀ u ∈ seen', u ∉ seen → u ≠ goal
  /-- What is new has all its edges inside. -/
  closed : ∀ u ∈ seen', u ∉ seen → ∀ v, g.Edge u v → v ∈ seen'

namespace Explored

variable {g : ImportGraph} {goal : String} {seen seen' seen'' : List String}

theorem refl (g : ImportGraph) (goal : String) (seen : List String) :
    Explored g goal seen seen :=
  ⟨fun _ h => h, fun _ h hn => absurd h hn, fun _ h hn => absurd h hn⟩

theorem trans (h : Explored g goal seen seen') (h' : Explored g goal seen' seen'') :
    Explored g goal seen seen'' where
  subset := fun _ hu => h'.subset (h.subset hu)
  ne_goal u hu hn := by
    by_cases hu' : u ∈ seen'
    · exact h.ne_goal u hu' hn
    · exact h'.ne_goal u hu hu'
  closed u hu hn v hv := by
    by_cases hu' : u ∈ seen'
    · exact h'.subset (h.closed u hu' hn v hv)
    · exact h'.closed u hu hu' v hv

/-- A module is explored with what its edges lead to. -/
theorem cons {current : String} (hc : current ≠ goal)
    (h : Explored g goal (current :: seen) seen') (hv : ∀ v, g.Edge current v → v ∈ seen') :
    Explored g goal seen seen' where
  subset := fun _ hu => h.subset (List.mem_cons_of_mem _ hu)
  ne_goal u hu hn := by
    by_cases he : u = current
    · exact he ▸ hc
    · exact h.ne_goal u hu (by simp [he, hn])
  closed u hu hn v huv := by
    by_cases he : u = current
    · exact hv v (he ▸ huv)
    · exact h.closed u hu (by simp [he, hn]) v huv

end Explored

/-- The modules with an entry of their own that are not seen. -/
def unseen (g : ImportGraph) (seen : List String) : Finset String :=
  (g.entries.map Prod.fst).toFinset \ seen.toFinset

theorem card_unseen_nil_le (g : ImportGraph) : (g.unseen []).card ≤ g.entries.length := by
  have h := List.toFinset_card_le (g.entries.map Prod.fst)
  rw [List.length_map] at h
  exact (Finset.card_le_card Finset.sdiff_subset).trans h

theorem card_unseen_le {g : ImportGraph} {seen seen' : List String} (h : seen ⊆ seen') :
    (g.unseen seen').card ≤ (g.unseen seen).card := by
  refine Finset.card_le_card (Finset.sdiff_subset_sdiff (Finset.Subset.refl _) ?_)
  intro u hu
  exact List.mem_toFinset.mpr (h (List.mem_toFinset.mp hu))

/-- Seeing one more module with edges leaves fewer of them. -/
theorem card_unseen_cons_lt {g : ImportGraph} {u v : String} {seen : List String}
    (he : g.Edge u v) (hu : u ∉ seen) : (g.unseen (u :: seen)).card < (g.unseen seen).card := by
  refine Finset.card_lt_card (Finset.ssubset_iff_subset_ne.mpr ⟨?_, fun heq => ?_⟩)
  · refine Finset.sdiff_subset_sdiff (Finset.Subset.refl _) ?_
    exact fun w hw => List.mem_toFinset.mpr (List.mem_cons_of_mem _ (List.mem_toFinset.mp hw))
  · have hmem : u ∈ g.unseen seen := by
      rw [unseen, Finset.mem_sdiff, List.mem_toFinset, List.mem_toFinset]
      exact ⟨he.mem_keys, hu⟩
    rw [← heq] at hmem
    simp [unseen] at hmem

private theorem searchAll_none {g : ImportGraph} {goal : String} {fuel : Nat}
    (hone : ∀ {t : String} {seen seen' : List String}, (g.unseen seen).card < fuel →
      g.search goal fuel t seen = (none, seen') → t ∈ seen' ∧ Explored g goal seen seen')
    {ts seen seen' : List String} (hf : (g.unseen seen).card < fuel)
    (h : g.searchAll goal fuel ts seen = (none, seen')) :
    (∀ t ∈ ts, t ∈ seen') ∧ Explored g goal seen seen' := by
  induction ts generalizing seen with
  | nil =>
    simp only [searchAll, Prod.mk.injEq, true_and] at h
    exact ⟨by simp, h ▸ Explored.refl g goal seen⟩
  | cons t ts ih =>
    rw [searchAll] at h
    rcases hs : g.search goal fuel t seen with ⟨_ | way, seen''⟩
    · rw [hs] at h
      obtain ⟨ht, hseen⟩ := hone hf hs
      obtain ⟨hts, hseen'⟩ := ih ((card_unseen_le hseen.subset).trans_lt hf) h
      refine ⟨fun t' ht' => ?_, hseen.trans hseen'⟩
      rcases List.mem_cons.mp ht' with rfl | ht'
      · exact hseen'.subset ht
      · exact hts t' ht'
    · simp [hs] at h

/--
A search that is allowed to go deeper than there are unseen modules and that finds nothing
has seen the module it started from, and explored all that is new.
-/
theorem search_none {g : ImportGraph} {goal : String} {fuel : Nat} {current : String}
    {seen seen' : List String} (hf : (g.unseen seen).card < fuel)
    (h : g.search goal fuel current seen = (none, seen')) :
    current ∈ seen' ∧ Explored g goal seen seen' := by
  induction fuel generalizing current seen seen' with
  | zero => omega
  | succ fuel ih =>
    rw [search_succ] at h
    split at h
    · simp at h
    next hc =>
    split at h
    · next hmem =>
      simp only [Prod.mk.injEq, true_and] at h
      subst h
      exact ⟨List.contains_iff_mem.mp hmem, Explored.refl g goal seen⟩
    next hmem =>
    have hnew : current ∉ seen := fun hin => hmem (List.contains_iff_mem.mpr hin)
    simp only [Prod.mk.injEq, Option.map_eq_none_iff] at h
    have hsearch : g.searchAll goal fuel (g.targets current) (current :: seen) = (none, seen') :=
      Prod.ext h.1 h.2
    cases ht : g.targets current with
    | nil =>
      -- a module without edges need not have an entry, so it may leave no less unseen
      have hno : ∀ v, ¬ g.Edge current v := fun v hv => by simp [Edge, ht] at hv
      rw [ht] at hsearch
      simp only [searchAll, Prod.mk.injEq, true_and] at hsearch
      subst hsearch
      exact ⟨List.mem_cons_self ..,
        (Explored.refl g goal _).cons hc fun v hv => absurd hv (hno v)⟩
    | cons v vs =>
      have he : g.Edge current v := by simp [Edge, ht]
      have hlt := card_unseen_cons_lt he hnew
      obtain ⟨hts, hseen⟩ := searchAll_none ih (by omega) hsearch
      exact ⟨hseen.subset (List.mem_cons_self ..), hseen.cons hc hts⟩

/-! ### The search is exact -/

/-- A way is found exactly if there is one. -/
theorem isSome_path?_iff (g : ImportGraph) (source goal : String) :
    (g.path? source goal).isSome ↔ g.Reaches source goal := by
  rcases hs : g.search goal (g.entries.length + 1) source [] with ⟨_ | way, seen⟩
  · have hf : (g.unseen []).card < g.entries.length + 1 :=
      Nat.lt_succ_of_le g.card_unseen_nil_le
    obtain ⟨hsource, hseen⟩ := search_none hf hs
    have hclosed : ∀ v, g.Reaches source v → v ∈ seen := by
      intro v hv
      induction hv with
      | refl => exact hsource
      | tail _ hedge ih => exact hseen.closed _ ih (by simp) _ hedge
    simp only [path?, hs, Option.isSome_none, Bool.false_eq_true, false_iff]
    intro hreach
    exact hseen.ne_goal goal (hclosed goal hreach) (by simp) rfl
  · simp only [path?, hs, Option.isSome_some, true_iff]
    exact (search_some hs).reaches

end Sable.ImportGraph
