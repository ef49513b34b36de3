import Sable.Proofs.ImportGraph.Search

/-!
# The recorded imports form no cycle

An edge is recorded only if no way leads back along it, and dropping edges opens no way. So
whatever is recorded and dropped, in any order, no cycle arises, no target is listed twice,
and the answer to a new edge depends on nothing but the ways between its two ends.
-/

namespace Sable

/-- Normalizing a key twice changes no more than doing so once. -/
@[simp] theorem slashed_slashed (key : String) : slashed (slashed key) = slashed key := by
  simp only [slashed, String.toList_ofList, List.map_map]
  congr 2
  funext c
  by_cases h : c = '\\' <;> simp [h]

namespace ImportGraph

/-! ### Entries after a change -/

/-- Changing targets changes no key. -/
theorem keys_modifyEntry (key : String) (f : List String → List String)
    (entries : List (String × List String)) :
    (modifyEntry key f entries).map Prod.fst = entries.map Prod.fst := by
  induction entries with
  | nil => rfl
  | cons entry rest ih =>
    obtain ⟨k, ts⟩ := entry
    by_cases h : k = key <;> simp [modifyEntry, h, ih]

/-- Targets after a change are targets from before, or the changed ones. -/
theorem mem_modifyEntry {key : String} {f : List String → List String}
    {entries : List (String × List String)} {entry : String × List String}
    (h : entry ∈ modifyEntry key f entries) :
    entry ∈ entries ∨ ∃ ts, (key, ts) ∈ entries ∧ entry = (key, f ts) := by
  induction entries with
  | nil => simp [modifyEntry] at h
  | cons first rest ih =>
    obtain ⟨k, ts⟩ := first
    by_cases hk : k = key
    · simp only [modifyEntry, hk, ↓reduceIte, List.mem_cons] at h
      rcases h with rfl | h
      · exact Or.inr ⟨ts, by simp [hk], rfl⟩
      · exact Or.inl (List.mem_cons_of_mem _ h)
    · simp only [modifyEntry, hk, ↓reduceIte, List.mem_cons] at h
      rcases h with rfl | h
      · exact Or.inl (List.mem_cons_self ..)
      · rcases ih h with h | ⟨ts', hts', rfl⟩
        · exact Or.inl (List.mem_cons_of_mem _ h)
        · exact Or.inr ⟨ts', List.mem_cons_of_mem _ hts', rfl⟩

theorem nodup_addTarget {target : String} {ts : List String} (h : ts.Nodup) :
    (addTarget target ts).Nodup := by
  unfold addTarget
  split
  · exact h
  · next hc =>
    have hnot : target ∉ ts := fun hin => hc (List.contains_iff_mem.mpr hin)
    exact List.nodup_append'.mpr ⟨h, List.nodup_singleton _, by simpa using hnot⟩

theorem mem_addTarget {target v : String} {ts : List String} :
    v ∈ addTarget target ts ↔ v ∈ ts ∨ v = target := by
  unfold addTarget
  split
  · next hc =>
    have hin : target ∈ ts := List.contains_iff_mem.mp hc
    exact ⟨Or.inl, fun h => h.elim id fun he => he ▸ hin⟩
  · simp

/-! ### Edges after a change -/

/-- Recording an edge adds just that edge. -/
theorem edge_addEdge (g : ImportGraph) (source target u v : String) :
    (g.addEdge source target).Edge u v ↔ g.Edge u v ∨ (u = source ∧ v = target) := by
  rw [Edge, targets_addEdge]
  split
  · next h => simp [mem_addTarget, Edge, h]
  · next h => simp [Edge, h]

/-- Dropping an edge drops just that edge. -/
theorem edge_erase (g : ImportGraph) (source target u v : String) :
    (g.erase source target).Edge u v ↔
      g.Edge u v ∧ ¬ (u = slashed source ∧ v = slashed target) := by
  rw [Edge, targets_erase]
  split
  · next h => simp [Edge, h]
  · next h => simp [Edge, h]

/-- Whether an edge is recorded does not depend on how its ends are written. -/
theorem hasEdge_iff (g : ImportGraph) (source target : String) :
    g.hasEdge source target = true ↔ g.Edge (slashed source) (slashed target) := by
  simp [hasEdge, importsOf, Edge]

/-- A way over one more edge uses only the old ones, or splits at the new one. -/
theorem transGen_addEdge {g : ImportGraph} {source target u v : String}
    (h : Relation.TransGen (g.addEdge source target).Edge u v) :
    Relation.TransGen g.Edge u v ∨ (g.Reaches u source ∧ g.Reaches target v) := by
  induction h with
  | single he =>
    rcases (edge_addEdge ..).mp he with he | ⟨rfl, rfl⟩
    · exact Or.inl (Relation.TransGen.single he)
    · exact Or.inr ⟨Relation.ReflTransGen.refl, Relation.ReflTransGen.refl⟩
  | tail _ he ih =>
    rcases (edge_addEdge ..).mp he with he | ⟨rfl, rfl⟩
    · exact ih.imp (fun h => h.tail he) fun ⟨hu, hv⟩ => ⟨hu, hv.tail he⟩
    · exact Or.inr ⟨ih.elim (fun h => h.to_reflTransGen) And.left, Relation.ReflTransGen.refl⟩

/-! ### What every change keeps -/

/-- A graph that an empty one can turn into. -/
structure Sound (g : ImportGraph) : Prop where
  /-- A key has one entry. -/
  keys_nodup : (g.entries.map Prod.fst).Nodup
  /-- No target is listed twice. -/
  targets_nodup : ∀ entry ∈ g.entries, entry.2.Nodup
  /-- Edges lead between normalized keys. -/
  normal : ∀ u v, g.Edge u v → slashed u = u ∧ slashed v = v
  /-- No edges form a cycle. -/
  acyclic : g.Acyclic

theorem sound_empty : empty.Sound where
  keys_nodup := List.nodup_nil
  targets_nodup := by simp [empty]
  normal u v h := absurd h (not_edge_empty u v)
  acyclic u h := by
    obtain ⟨v, he, _⟩ := Relation.TransGen.head'_iff.mp h
    exact not_edge_empty u v he

theorem Sound.addEdge {g : ImportGraph} (h : g.Sound) {source target : String}
    (hs : slashed source = source) (ht : slashed target = target)
    (hway : ¬ g.Reaches target source) : (g.addEdge source target).Sound where
  keys_nodup := by
    unfold ImportGraph.addEdge
    split
    · simpa only [keys_modifyEntry] using h.keys_nodup
    · next hnone =>
      rw [List.map_append, List.nodup_append']
      refine ⟨h.keys_nodup, List.nodup_singleton _, ?_⟩
      intro key hkey
      simp only [List.lookup_eq_none_iff, bne_iff_ne, ne_eq] at hnone
      obtain ⟨entry, hentry, rfl⟩ := List.mem_map.mp hkey
      simpa [eq_comm] using hnone entry hentry
  targets_nodup := by
    unfold ImportGraph.addEdge
    split
    · intro entry hentry
      rcases mem_modifyEntry hentry with hentry | ⟨ts, hts, rfl⟩
      · exact h.targets_nodup entry hentry
      · exact nodup_addTarget (h.targets_nodup _ hts)
    · intro entry hentry
      rcases List.mem_append.mp hentry with hentry | hentry
      · exact h.targets_nodup entry hentry
      · rw [List.mem_singleton.mp hentry]
        exact List.nodup_singleton _
  normal u v he := by
    rcases (edge_addEdge ..).mp he with he | ⟨rfl, rfl⟩
    · exact h.normal u v he
    · exact ⟨hs, ht⟩
  acyclic u hu := by
    rcases transGen_addEdge hu with hu | ⟨hus, htu⟩
    · exact h.acyclic u hu
    · exact hway (htu.trans hus)

theorem Sound.erase {g : ImportGraph} (h : g.Sound) (source target : String) :
    (g.erase source target).Sound where
  keys_nodup := by simpa only [ImportGraph.erase, keys_modifyEntry] using h.keys_nodup
  targets_nodup entry hentry := by
    rcases mem_modifyEntry hentry with hentry | ⟨ts, hts, rfl⟩
    · exact h.targets_nodup entry hentry
    · exact (h.targets_nodup _ hts).filter _
  normal u v he := h.normal u v ((edge_erase ..).mp he).1
  acyclic u hu := by
    have hold : ∀ v w, (g.erase source target).Edge v w → g.Edge v w :=
      fun v w he => ((edge_erase ..).mp he).1
    exact h.acyclic u (Relation.TransGen.mono hold _ _ hu)

/-- An edge is refused exactly if some way leads back along it. -/
theorem insert_eq_error_iff {g : ImportGraph} {source target : String} :
    (∃ cycle, g.insert source target = .error cycle) ↔
      g.Reaches (slashed target) (slashed source) := by
  rw [← isSome_path?_iff]
  simp only [insert]
  cases g.path? (slashed target) (slashed source) <;> simp

/-- Recording an edge that is not refused keeps a graph sound. -/
theorem Sound.insert {g h : ImportGraph} (hg : g.Sound) {source target : String}
    (hins : g.insert source target = .ok h) : h.Sound := by
  have hway : ¬ g.Reaches (slashed target) (slashed source) := by
    intro hway
    obtain ⟨cycle, hcycle⟩ := insert_eq_error_iff.mpr hway
    simp [hcycle] at hins
  obtain ⟨_, rfl⟩ := insert_eq_ok_iff.mp hins
  exact hg.addEdge (slashed_slashed _) (slashed_slashed _) hway

/-- The edges behind an edge that was recorded. -/
theorem edge_of_insert {g h : ImportGraph} {source target : String}
    (hins : g.insert source target = .ok h) (u v : String) :
    h.Edge u v ↔ g.Edge u v ∨ (u = slashed source ∧ v = slashed target) := by
  obtain ⟨_, rfl⟩ := insert_eq_ok_iff.mp hins
  exact edge_addEdge ..

/--
An edge that is recorded, and dropped again unless it was recorded before, leaves the edges as
they were.
-/
theorem edge_undo {g h : ImportGraph} {source target : String}
    (hins : g.insert source target = .ok h) (u v : String) :
    (if !g.hasEdge source target then h.erase source target else h).Edge u v ↔ g.Edge u v := by
  have hedge := edge_of_insert hins u v
  have hold := g.hasEdge_iff source target
  cases hhas : g.hasEdge source target with
  | true =>
    refine hedge.trans ⟨?_, Or.inl⟩
    rintro (he | ⟨rfl, rfl⟩)
    · exact he
    · exact hold.mp hhas
  | false =>
    simp only [Bool.not_false, ↓reduceIte]
    rw [edge_erase, hedge]
    constructor
    · rintro ⟨he | he, hne⟩
      · exact he
      · exact absurd he hne
    · intro he
      refine ⟨Or.inl he, ?_⟩
      rintro ⟨rfl, rfl⟩
      rw [hold.mpr he] at hhas
      cases hhas

theorem Sound.undo {g h : ImportGraph} (hg : g.Sound) {source target : String}
    (hins : g.insert source target = .ok h) :
    (if !g.hasEdge source target then h.erase source target else h).Sound := by
  split
  · exact (hg.insert hins).erase source target
  · exact hg.insert hins

/-! ### Any sequence of changes -/

/-- A change of a graph of imports. -/
inductive Change
  /-- An edge is recorded unless it closes a cycle. -/
  | insert (source target : String)
  /-- An edge is dropped if it is recorded. -/
  | erase (source target : String)
  /-- All edges are dropped. -/
  | clear
  deriving DecidableEq, Repr

/-- The cycle that an edge would close, if any, and the graph behind the attempt to record it. -/
def tryInsert (g : ImportGraph) (source target : String) : Option (List String) × ImportGraph :=
  match g.insert source target with
  | .ok h => (none, h)
  | .error cycle => (some cycle, g)

/-- The graph behind a change. -/
def Change.apply (g : ImportGraph) : Change → ImportGraph
  | .insert source target => (g.tryInsert source target).2
  | .erase source target => g.erase source target
  | .clear => empty

/-- The graph that changes of an empty one lead to. -/
def ofChanges (changes : List Change) : ImportGraph := changes.foldl Change.apply empty

theorem Sound.apply {g : ImportGraph} (h : g.Sound) (change : Change) :
    (change.apply g).Sound := by
  cases change with
  | insert source target =>
    simp only [Change.apply, tryInsert]
    cases hins : g.insert source target with
    | ok g' => exact h.insert hins
    | error cycle => exact h
  | erase source target => exact h.erase source target
  | clear => exact sound_empty

theorem sound_ofChanges (changes : List Change) : (ofChanges changes).Sound := by
  have hfold : ∀ g : ImportGraph, g.Sound → (changes.foldl Change.apply g).Sound := by
    induction changes with
    | nil => exact fun g h => h
    | cons change changes ih => exact fun g h => ih _ (h.apply change)
  exact hfold empty sound_empty

/--
Whatever was recorded and dropped, there is no cycle and no target is listed twice. A new
edge is answered by a cycle, and changes nothing, if its target reaches its source; else it is
recorded, and it alone is new.
-/
theorem ofChanges_acyclic_and_insert_exact (changes : List Change) :
    (∀ u, ¬ Relation.TransGen (ofChanges changes).Edge u u) ∧
      (∀ entry ∈ (ofChanges changes).entries, entry.2.Nodup) ∧
      ∀ source target,
        ((ofChanges changes).Reaches (slashed target) (slashed source) ∧
            ∃ cycle, (ofChanges changes).tryInsert source target =
              (some cycle, ofChanges changes)) ∨
          (¬ (ofChanges changes).Reaches (slashed target) (slashed source) ∧
            ∃ g, (ofChanges changes).tryInsert source target = (none, g) ∧
              ∀ u v, g.Edge u v ↔
                (ofChanges changes).Edge u v ∨ (u = slashed source ∧ v = slashed target)) := by
  have hsound := sound_ofChanges changes
  refine ⟨hsound.acyclic, hsound.targets_nodup, fun source target => ?_⟩
  cases hins : (ofChanges changes).insert source target with
  | error cycle =>
    exact Or.inl ⟨insert_eq_error_iff.mp ⟨cycle, hins⟩, cycle, by simp [tryInsert, hins]⟩
  | ok g =>
    refine Or.inr ⟨fun hway => ?_, g, by simp [tryInsert, hins], edge_of_insert hins⟩
    obtain ⟨cycle, hcycle⟩ := insert_eq_error_iff.mpr hway
    simp [hcycle] at hins

end ImportGraph

end Sable
