import Sable.Proofs.ImportGraph.Cycles
import Mathlib.Data.List.Sort
import Mathlib.Data.String.Basic

/-!
# Dropping an edge again

A new edge that is dropped again leaves the targets of every module as they were, in the same order.
What a graph answers depends on targets only: a search that may go deep enough is not changed by
further entries, which only let it go deeper. So the graph goes on to answer as it would have without
the edge. What stays behind is the source of the edge, which is listed among the nodes from then on.
-/

namespace Sable.ImportGraph

variable {g h : ImportGraph} {source target : String}

/-! ### Searches in graphs with the same targets -/

/-- A search looks at nothing but targets. -/
theorem search_congr (hsame : ∀ key, h.targets key = g.targets key) (goal : String) (fuel : Nat)
    (current : String) (seen : List String) :
    h.search goal fuel current seen = g.search goal fuel current seen := by
  induction fuel generalizing current seen with
  | zero => rfl
  | succ fuel ih =>
    have hall : ∀ ts seen, h.searchAll goal fuel ts seen = g.searchAll goal fuel ts seen := by
      intro ts
      induction ts with
      | nil => exact fun _ => rfl
      | cons t ts iht =>
        intro seen
        rw [searchAll, searchAll, ih]
        rcases g.search goal fuel t seen with ⟨_ | way, seen'⟩
        · exact iht seen'
        · rfl
    rw [search_succ, search_succ, hsame, hall]

/-- A search that may go deep enough finds the same if it may go deeper. -/
theorem search_fuel (g : ImportGraph) (goal : String) {fuel fuel' : Nat} (hle : fuel ≤ fuel')
    (current : String) {seen : List String} (hf : (g.unseen seen).card < fuel) :
    g.search goal fuel' current seen = g.search goal fuel current seen := by
  induction fuel generalizing fuel' current seen with
  | zero => omega
  | succ fuel ih =>
    obtain ⟨fuel', rfl⟩ : ∃ n, fuel' = n + 1 := ⟨fuel' - 1, by omega⟩
    have hall : ∀ ts seen, (g.unseen seen).card < fuel →
        g.searchAll goal fuel' ts seen = g.searchAll goal fuel ts seen := by
      intro ts
      induction ts with
      | nil => exact fun _ _ => rfl
      | cons t ts iht =>
        intro seen hseen
        have hsubset := subset_search g goal fuel t seen
        rw [searchAll, searchAll, ih (by omega) t hseen]
        generalize g.search goal fuel t seen = r at hsubset
        obtain ⟨_ | way, seen'⟩ := r
        · exact iht seen' ((card_unseen_le hsubset).trans_lt hseen)
        · rfl
    rw [search_succ, search_succ]
    split
    · rfl
    split
    · rfl
    next hseen =>
    have hnew : current ∉ seen := fun hin => hseen (List.contains_iff_mem.mpr hin)
    cases htargets : g.targets current with
    | nil => rfl
    | cons t ts =>
      have hlt := card_unseen_cons_lt (show g.Edge current t by simp [Edge, htargets]) hnew
      rw [hall (t :: ts) (current :: seen) (by omega)]

/-- The way that is found depends on targets only, and not on how many entries there are. -/
theorem path?_congr (hsame : ∀ key, h.targets key = g.targets key) (source goal : String) :
    h.path? source goal = g.path? source goal := by
  have hg := g.card_unseen_nil_le
  have hh := h.card_unseen_nil_le
  have hdeep := fun n => search_congr hsame goal n source []
  rw [path?, path?, ← h.search_fuel goal (Nat.le_max_right (g.entries.length + 1) _) source (by omega),
    ← g.search_fuel goal (Nat.le_max_left _ (h.entries.length + 1)) source (by omega), hdeep]

/-! ### Nodes -/

/-- The nodes are the modules with entries and their targets. -/
theorem mem_nodes {u : String} :
    u ∈ g.nodes ↔ ∃ entry ∈ g.entries, u = entry.1 ∨ u ∈ entry.2 := by
  rw [nodes, List.mem_eraseDups, List.mem_mergeSort, List.mem_flatMap]
  simp only [List.mem_cons]

/-- Of a list in ascending order, the first of several equal items is kept. -/
private theorem pairwise_lt_eraseDups (l : List String) (hl : l.Pairwise (· ≤ ·)) :
    l.eraseDups.Pairwise (· < ·) := by
  induction hn : l.length using Nat.strong_induction_on generalizing l with
  | _ n ih =>
    cases l with
    | nil => exact List.Pairwise.nil
    | cons a as =>
      obtain ⟨ha, has⟩ := List.pairwise_cons.mp hl
      rw [List.eraseDups_cons, List.pairwise_cons]
      have hlen := List.length_filter_le (fun b => !b == a) as
      refine ⟨fun b hb => ?_, ih _ (by simp only [List.length_cons] at hn; omega) _ (has.filter _) rfl⟩
      rw [List.mem_eraseDups, List.mem_filter, Bool.not_eq_true', beq_eq_false_iff_ne] at hb
      exact lt_of_le_of_ne (ha b hb.1) hb.2.symm

/-- The nodes are listed in ascending order, each of them once. -/
theorem pairwise_lt_nodes (g : ImportGraph) : g.nodes.Pairwise (· < ·) := by
  refine pairwise_lt_eraseDups _ ((List.pairwise_mergeSort ?_ ?_ _).imp of_decide_eq_true)
  · intro a b c hab hbc
    exact decide_eq_true ((of_decide_eq_true hab).trans (of_decide_eq_true hbc))
  · intro a b
    rw [Bool.or_eq_true, decide_eq_true_iff, decide_eq_true_iff]
    exact le_total a b

/-- The list of nodes is known from the nodes that are in it. -/
theorem nodes_eq_of_mem_iff (hmem : ∀ u, u ∈ h.nodes ↔ u ∈ g.nodes ∨ u = source) :
    h.nodes = if source ∈ g.nodes then g.nodes else g.nodes.orderedInsert (· ≤ ·) source := by
  have heq : ∀ l : List String, l.Pairwise (· < ·) → (∀ u, u ∈ h.nodes ↔ u ∈ l) → h.nodes = l := by
    intro l hl hiff
    have hnodup : ∀ {l : List String}, l.Pairwise (· < ·) → l.Nodup := fun hl => hl.imp ne_of_lt
    exact ((List.perm_ext_iff_of_nodup (hnodup h.pairwise_lt_nodes) (hnodup hl)).mpr hiff).eq_of_pairwise
      (fun a b _ _ hab hba => absurd hba hab.asymm) h.pairwise_lt_nodes hl
  split
  · next hin => exact heq _ g.pairwise_lt_nodes fun u => (hmem u).trans (or_iff_left_of_imp fun hu => hu ▸ hin)
  · next hout =>
    refine heq _ ?_ fun u => (hmem u).trans (by rw [List.mem_orderedInsert]; exact or_comm)
    have hle : (g.nodes.orderedInsert (· ≤ ·) source).Pairwise (· ≤ ·) :=
      (g.pairwise_lt_nodes.imp le_of_lt).orderedInsert source g.nodes
    have hnodup : (g.nodes.orderedInsert (· ≤ ·) source).Nodup :=
      (List.perm_orderedInsert (· ≤ ·) source g.nodes).nodup_iff.mpr
        (List.nodup_cons.mpr ⟨hout, g.pairwise_lt_nodes.imp ne_of_lt⟩)
    exact hle.imp₂ (fun _ _ => lt_of_le_of_ne) hnodup

/-- In a graph with one entry for each key, the nodes are the keys and the targets of all edges. -/
theorem Sound.mem_nodes_iff (hg : g.Sound) {u : String} :
    u ∈ g.nodes ↔ u ∈ g.entries.map Prod.fst ∨ ∃ v, g.Edge v u := by
  rw [mem_nodes]
  constructor
  · rintro ⟨⟨key, ts⟩, hentry, rfl | hu⟩
    · exact Or.inl (List.mem_map_of_mem hentry)
    · refine Or.inr ⟨key, ?_⟩
      obtain ⟨before, after, hsplit⟩ := List.append_of_mem hentry
      have hfirst : key ∉ before.map Prod.fst := by
        have hnodup := hg.keys_nodup
        rw [hsplit, List.map_append, List.map_cons] at hnodup
        exact fun hin => (List.nodup_append'.mp hnodup).2.2 hin (List.mem_cons_self ..)
      have hlookup : g.entries.lookup key = some ts :=
        List.lookup_eq_some_iff.mpr ⟨before, after, hsplit, fun entry hbefore => by
          rw [bne_iff_ne]
          exact fun heq => hfirst (heq ▸ List.mem_map_of_mem hbefore)⟩
      rwa [Edge, targets, hlookup]
  · rintro (hu | ⟨v, hv⟩)
    · obtain ⟨entry, hentry, rfl⟩ := List.mem_map.mp hu
      exact ⟨entry, hentry, Or.inl rfl⟩
    · cases hlookup : g.entries.lookup v with
      | none => simp [Edge, targets, hlookup] at hv
      | some ts =>
        obtain ⟨before, after, hsplit, -⟩ := List.lookup_eq_some_iff.mp hlookup
        refine ⟨(v, ts), hsplit ▸ List.mem_append_right _ (List.mem_cons_self ..), Or.inr ?_⟩
        simpa [Edge, targets, hlookup] using hv

/-- A new edge adds its source to the keys. -/
theorem mem_keys_addEdge {u : String} : u ∈ (g.addEdge source target).entries.map Prod.fst ↔
    u ∈ g.entries.map Prod.fst ∨ u = source := by
  unfold addEdge
  split
  · next ts hlookup =>
    obtain ⟨before, after, hsplit, -⟩ := List.lookup_eq_some_iff.mp hlookup
    rw [keys_modifyEntry]
    refine (or_iff_left_of_imp ?_).symm
    rintro rfl
    exact List.mem_map.mpr ⟨_, hsplit ▸ List.mem_append_right _ (List.mem_cons_self ..), rfl⟩
  · rw [List.map_append, List.mem_append, List.map_singleton, List.mem_singleton]

/-- A recorded edge adds its ends to the nodes. -/
theorem Sound.mem_nodes_addEdge (hg : g.Sound) (hk : (g.addEdge source target).Sound) {u : String} :
    u ∈ (g.addEdge source target).nodes ↔ u ∈ g.nodes ∨ u = source ∨ u = target := by
  rw [hk.mem_nodes_iff, hg.mem_nodes_iff, mem_keys_addEdge]
  simp only [edge_addEdge, exists_or, exists_and_right, exists_eq, true_and]
  exact or_or_or_comm

/-! ### Graphs that answer alike -/

/-- A graph that answers as another one, but lists one more node, unless it is there already. -/
structure AlikeBut (node : String) (g h : ImportGraph) : Prop where
  /-- Every module imports the same modules, in the same order. -/
  imports : ∀ key, h.importsOf key = g.importsOf key
  /-- The same edges are recorded. -/
  edges : ∀ source target, h.hasEdge source target = g.hasEdge source target
  /-- The nodes are the same, but for the one. -/
  nodes : h.nodes = if node ∈ g.nodes then g.nodes else g.nodes.orderedInsert (· ≤ ·) node

/-- The answers to edges that are tried one after the other, and the graph behind them. -/
def tryAll (g : ImportGraph) : List (String × String) → List (Option (List String)) × ImportGraph
  | [] => ([], g)
  | (source, target) :: calls =>
    let (answer, h) := g.tryInsert source target
    let (answers, k) := h.tryAll calls
    (answer :: answers, k)

/-- Two graphs with the same targets, of which the second one lists one more node. -/
private structure Shadows (node : String) (g h : ImportGraph) : Prop where
  sound : g.Sound
  sound' : h.Sound
  targets : ∀ key, h.targets key = g.targets key
  nodes : ∀ u, u ∈ h.nodes ↔ u ∈ g.nodes ∨ u = node

namespace Shadows

variable {node : String}

private theorem alikeBut (hs : Shadows node g h) : g.AlikeBut node h where
  imports key := hs.targets (slashed key)
  edges source target := congrArg (List.contains · (slashed target)) (hs.targets (slashed source))
  nodes := nodes_eq_of_mem_iff hs.nodes

/-- Both graphs answer a new edge alike, and go on to. -/
private theorem tryInsert (hs : Shadows node g h) (source target : String) :
    (h.tryInsert source target).1 = (g.tryInsert source target).1 ∧
      Shadows node (g.tryInsert source target).2 (h.tryInsert source target).2 := by
  have hpath := path?_congr hs.targets (slashed target) (slashed source)
  have hsound := hs.sound.apply (.insert source target)
  have hsound' := hs.sound'.apply (.insert source target)
  simp only [Change.apply, ImportGraph.tryInsert, ImportGraph.insert, hpath] at hsound hsound' ⊢
  generalize g.path? (slashed target) (slashed source) = way? at hsound hsound'
  cases way? with
  | some way => exact ⟨rfl, hs⟩
  | none =>
    refine ⟨rfl, hsound, hsound', fun key => ?_, fun u => ?_⟩
    · rw [targets_addEdge, targets_addEdge, hs.targets]
    · rw [hs.sound'.mem_nodes_addEdge hsound', hs.sound.mem_nodes_addEdge hsound, hs.nodes]
      exact or_right_comm

private theorem tryAll (hs : Shadows node g h) (calls : List (String × String)) :
    (h.tryAll calls).1 = (g.tryAll calls).1 ∧
      Shadows node (g.tryAll calls).2 (h.tryAll calls).2 := by
  induction calls generalizing g h with
  | nil => exact ⟨rfl, hs⟩
  | cons call calls ih =>
    obtain ⟨hanswer, hnext⟩ := hs.tryInsert call.1 call.2
    obtain ⟨hanswers, hlast⟩ := ih hnext
    simp only [ImportGraph.tryAll]
    exact ⟨congrArg₂ List.cons hanswer hanswers, hlast⟩

end Shadows

/-- A new edge that is recorded and dropped again leaves no more behind than its source. -/
private theorem Sound.shadows_undo (hg : g.Sound) (hfresh : g.hasEdge source target = false)
    {k : ImportGraph} (hk : g.insert source target = .ok k) :
    Shadows (slashed source) g (k.erase source target) := by
  have hsound := hg.insert hk
  obtain ⟨-, rfl⟩ := insert_eq_ok_iff.mp hk
  have hedge : ∀ u v, ((g.addEdge (slashed source) (slashed target)).erase source target).Edge u v ↔
      g.Edge u v := by simpa only [hfresh, Bool.not_false, if_true] using edge_undo hk
  have hnew : ¬ g.Edge (slashed source) (slashed target) := by
    rw [← hasEdge_iff, hfresh]
    exact Bool.false_ne_true
  have hkeys : ((g.addEdge (slashed source) (slashed target)).erase source target).entries.map
      Prod.fst = (g.addEdge (slashed source) (slashed target)).entries.map Prod.fst :=
    keys_modifyEntry ..
  refine ⟨hg, hsound.erase source target, fun key => ?_, fun u => ?_⟩
  · rw [targets_erase, targets_addEdge]
    split
    · next hkey =>
      have hnot : slashed target ∉ g.targets key := hkey ▸ hnew
      have hcontains : (g.targets key).contains (slashed target) = false := by simpa using hnot
      rw [addTarget, hcontains]
      simp only [Bool.false_eq_true, if_false, List.filter_append]
      have hkeep : (g.targets key).filter (· != slashed target) = g.targets key :=
        List.filter_eq_self.mpr fun v hv => bne_iff_ne.mpr fun heq => hnot (heq ▸ hv)
      rw [hkeep]
      simp
    · rfl
  · rw [(hsound.erase source target).mem_nodes_iff, hg.mem_nodes_iff, hkeys, mem_keys_addEdge]
    simp only [hedge]
    exact or_right_comm

/--
Whatever has been recorded and dropped: a new edge that is recorded and dropped again changes no
answer about imports or edges and no answer to any edges that are tried later. The nodes are the same
as well, but for the source of the edge, which is listed from then on.
-/
theorem ofChanges_undo (changes : List Change) {source target : String}
    (hfresh : (ofChanges changes).hasEdge source target = false)
    (hok : ((ofChanges changes).tryInsert source target).1 = none) (calls : List (String × String)) :
    ((((ofChanges changes).tryInsert source target).2.erase source target).tryAll calls).1 =
        ((ofChanges changes).tryAll calls).1 ∧
      ((ofChanges changes).tryAll calls).2.AlikeBut (slashed source)
        ((((ofChanges changes).tryInsert source target).2.erase source target).tryAll calls).2 := by
  unfold tryInsert at hok ⊢
  cases hinsert : (ofChanges changes).insert source target with
  | error cycle => simp [hinsert] at hok
  | ok k =>
    obtain ⟨hanswers, hlast⟩ :=
      ((sound_ofChanges changes).shadows_undo hfresh hinsert).tryAll calls
    exact ⟨hanswers, hlast.alikeBut⟩

/-- The edge from `c` to `a` is dropped again, and is refused later, when it would close a cycle. -/
theorem alikeBut_threeModules :
    (ofChanges [.insert "a" "b"]).hasEdge "c" "a" = false ∧
      ((ofChanges [.insert "a" "b"]).tryInsert "c" "a").1 = none ∧
      ((((ofChanges [.insert "a" "b"]).tryInsert "c" "a").2.erase "c" "a").tryAll
          [("b", "c"), ("c", "a")]).1 = ((ofChanges [.insert "a" "b"]).tryAll [("b", "c"), ("c", "a")]).1 ∧
      ((ofChanges [.insert "a" "b"]).tryAll [("b", "c"), ("c", "a")]).2.AlikeBut (slashed "c")
        ((((ofChanges [.insert "a" "b"]).tryInsert "c" "a").2.erase "c" "a").tryAll
          [("b", "c"), ("c", "a")]).2 := by
  have hfresh : (ofChanges [.insert "a" "b"]).hasEdge "c" "a" = false := by decide +kernel
  have hok : ((ofChanges [.insert "a" "b"]).tryInsert "c" "a").1 = none := by decide +kernel
  exact ⟨hfresh, hok, ofChanges_undo _ hfresh hok _⟩

/-- The nodes are not always the same: a module that never had an edge is listed behind one. -/
theorem nodes_undo_ne :
    (ofChanges []).hasEdge "a" "b" = false ∧ ((ofChanges []).tryInsert "a" "b").1 = none ∧
      (ofChanges []).nodes = [] ∧
      (((ofChanges []).tryInsert "a" "b").2.erase "a" "b").nodes = ["a"] := by
  decide +kernel

end Sable.ImportGraph
