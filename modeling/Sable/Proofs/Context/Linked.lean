import Sable.Proofs.Context.Registry
import Sable.Proofs.ImportGraph.Acyclic
import Sable.Proofs.Scope.Growth
import Sable.Proofs.Syntax.Receivers

/-!
# Imports in three places

An import is recorded as an edge of the graph, as a binding of an alias in a scope, and by the
registered module that the alias stands for. A context is linked if these agree: the edges
from a module are the bindings in its tree of scopes, and a binding leads to the root of the
module registered under its key. The three places are changed at different times; what is
proved here is that each complete change keeps them in agreement.
-/

namespace Sable.Context

/-- The graph, the bindings and the registered modules of a context agree. -/
structure Linked (ctx : Context) : Prop where
  /-- The scopes form a forest below the builtin types. -/
  scopes : ctx.scopes.Sound
  /-- The edges form no cycle. -/
  graph : ctx.graph.Sound
  /-- A key is registered once. -/
  keys_nodup : (ctx.modules.map Module.key).Nodup
  /-- A key is normalized. -/
  normal : ∀ m ∈ ctx.modules, slashed m.key = m.key
  /-- A registered module has been parsed. -/
  parsed : ∀ m ∈ ctx.modules, Phase.parsed ≤ m.phase
  /-- A registered program is as the grammar yields it. -/
  places : ∀ m ∈ ctx.modules, ∀ p ∈ m.program.places, p.Parsed
  /-- A module has its root right below the builtin types. -/
  root : ∀ m ∈ ctx.modules, ctx.scopes.parent? m.root = some 0
  /-- A module has its root for itself. -/
  roots_nodup : (ctx.modules.map Module.root).Nodup
  /-- The edges from a module are the bindings in its tree. -/
  edge_iff : ∀ m ∈ ctx.modules, ∀ k, ctx.graph.Edge m.key k ↔
    ∃ s b, m.root ∈ ctx.scopes.chain s ∧ b ∈ ctx.scopes.imports s ∧ b.key = k
  /-- An edge leads from a registered module. -/
  source : ∀ {u v}, ctx.graph.Edge u v → ∃ m ∈ ctx.modules, m.key = u
  /-- A binding lies in the tree of a module and leads to the root of a module. -/
  bound : ∀ {s b}, b ∈ ctx.scopes.imports s →
    (∃ m ∈ ctx.modules, m.root ∈ ctx.scopes.chain s) ∧
      ∃ m ∈ ctx.modules, m.key = b.key ∧ m.root = b.root

namespace Linked

variable {ctx d : Context} {m m' : Module}

theorem eq_of_key (h : ctx.Linked) (hm : m ∈ ctx.modules) (hm' : m' ∈ ctx.modules)
    (he : m.key = m'.key) : m = m' := List.inj_on_of_nodup_map h.keys_nodup hm hm' he

/-- A scope lies in the tree of only one module. -/
theorem eq_of_mem_chain (h : ctx.Linked) {s : ScopeId} (hm : m ∈ ctx.modules)
    (hm' : m' ∈ ctx.modules) (hs : m.root ∈ ctx.scopes.chain s)
    (hs' : m'.root ∈ ctx.scopes.chain s) : m = m' :=
  List.inj_on_of_nodup_map h.roots_nodup hm hm'
    (ScopeForest.root_unique h.scopes (h.root m hm) (h.root m' hm') hs hs')

theorem module?_of_mem (h : ctx.Linked) (hm : m ∈ ctx.modules) : ctx.module? m.key = some m :=
  Context.module?_of_mem h.keys_nodup hm

/-- An edge leads to a registered module. -/
theorem hasModule_of_edge (h : ctx.Linked) {u v : String} (he : ctx.graph.Edge u v) :
    ctx.hasModule v = true := by
  obtain ⟨m, hm, rfl⟩ := h.source he
  obtain ⟨s, b, -, hb, rfl⟩ := (h.edge_iff m hm v).mp he
  obtain ⟨-, target, htarget, hkey, -⟩ := h.bound hb
  exact hkey ▸ hasModule_of_mem htarget

/-- An alias in the tree of a module stands for a module that it has an edge to. -/
theorem edge_of_importedKey? (h : ctx.Linked) (hm : m ∈ ctx.modules) {s : ScopeId}
    (hs : m.root ∈ ctx.scopes.chain s) {aliasName key : String}
    (hkey : ctx.scopes.importedKey? s aliasName = some key) : ctx.graph.Edge m.key key := by
  obtain ⟨b, hb, rfl⟩ := Option.map_eq_some_iff.mp hkey
  obtain ⟨t, ht, hmem⟩ := ScopeForest.exists_of_visibleImport? hb
  -- A binding does not lie in the scope of the builtin types, so it lies in the tree.
  rcases ScopeForest.mem_chain_or_eq_zero h.scopes (h.root m hm) hs ht with hroot | rfl
  · exact (h.edge_iff m hm b.key).mpr ⟨t, b, hroot, hmem, rfl⟩
  · obtain ⟨⟨m', hm', hzero⟩, -⟩ := h.bound hmem
    exact absurd rfl (ScopeForest.ne_zero_of_mem_chain h.scopes (h.root m' hm') hzero)

/-! ### Changes that leave the imports alone -/

/-- Scopes, graph and modules are all that counts. -/
theorem of_same (h : ctx.Linked) (hscopes : d.scopes = ctx.scopes) (hgraph : d.graph = ctx.graph)
    (hmodules : d.modules = ctx.modules) : d.Linked := by
  obtain ⟨scopes, graph, diagnostics, entry?, modules⟩ := d
  subst hscopes hgraph hmodules
  exact ⟨h.scopes, h.graph, h.keys_nodup, h.normal, h.parsed, h.places, h.root, h.roots_nodup,
    h.edge_iff, h.source, h.bound⟩

theorem report (h : ctx.Linked) (e : Diagnostic) : (ctx.report e).Linked := h.of_same rfl rfl rfl

/-- The forest may grow. -/
theorem grow (h : ctx.Linked) {F : ScopeForest} (hF : ctx.scopes.Grows F) :
    ({ ctx with scopes := F } : Context).Linked where
  scopes := hF.sound h.scopes
  graph := h.graph
  keys_nodup := h.keys_nodup
  normal := h.normal
  parsed := h.parsed
  places := h.places
  root m hm :=
    (hF.parent _ (ScopeForest.lt_size_of_parent? (h.root m hm))).trans (h.root m hm)
  roots_nodup := h.roots_nodup
  edge_iff m hm k := by
    rw [h.edge_iff m hm k]
    -- Whatever is imported anywhere is imported in a scope that was there before.
    have hchain : ∀ {s b}, b ∈ ctx.scopes.imports s → F.chain s = ctx.scopes.chain s :=
      fun hb => hF.chain_eq h.scopes (ScopeForest.lt_size_of_mem_imports hb)
    constructor
    · rintro ⟨s, b, hs, hb, hk⟩
      exact ⟨s, b, hchain hb ▸ hs, (hF.imports s).symm ▸ hb, hk⟩
    · rintro ⟨s, b, hs, hb, hk⟩
      rw [hF.imports s] at hb
      exact ⟨s, b, hchain hb ▸ hs, hb, hk⟩
  source := h.source
  bound {s b} hb := by
    rw [hF.imports s] at hb
    obtain ⟨⟨m, hm, hs⟩, htarget⟩ := h.bound hb
    exact ⟨⟨m, hm, hF.mem_chain h.scopes hs⟩, htarget⟩

/-- The graph may be exchanged for one with the same edges. -/
theorem regraph (h : ctx.Linked) {g : ImportGraph} (hg : g.Sound)
    (he : ∀ u v, g.Edge u v ↔ ctx.graph.Edge u v) :
    ({ ctx with graph := g } : Context).Linked :=
  ⟨h.scopes, hg, h.keys_nodup, h.normal, h.parsed, h.places, h.root, h.roots_nodup,
    fun m hm k => (he m.key k).trans (h.edge_iff m hm k), fun hedge => h.source ((he _ _).mp hedge),
    h.bound⟩

/-- The modules may be exchanged, but for their keys and their roots. -/
theorem remap (h : ctx.Linked) {f : Module → Module} (hkey : ∀ m, (f m).key = m.key)
    (hroot : ∀ m, (f m).root = m.root)
    (hplaces : ∀ m ∈ ctx.modules, ∀ p ∈ (f m).program.places, p ∈ m.program.places)
    (hparsed : ∀ m ∈ ctx.modules, Phase.parsed ≤ (f m).phase) :
    ({ ctx with modules := ctx.modules.map f } : Context).Linked where
  scopes := h.scopes
  graph := h.graph
  keys_nodup := by
    have hkeys : Module.key ∘ f = Module.key := funext hkey
    rw [List.map_map, hkeys]
    exact h.keys_nodup
  normal := List.forall_mem_map.mpr fun m hm => by
    rw [hkey]
    exact h.normal m hm
  parsed := List.forall_mem_map.mpr hparsed
  places := List.forall_mem_map.mpr fun m hm p hp => h.places m hm p (hplaces m hm p hp)
  root := List.forall_mem_map.mpr fun m hm => by
    rw [hroot]
    exact h.root m hm
  roots_nodup := by
    have hroots : Module.root ∘ f = Module.root := funext hroot
    rw [List.map_map, hroots]
    exact h.roots_nodup
  edge_iff := List.forall_mem_map.mpr fun m hm => by
    rw [hkey, hroot]
    exact h.edge_iff m hm
  source he := by
    obtain ⟨m, hm, hu⟩ := h.source he
    exact ⟨f m, List.mem_map_of_mem hm, (hkey m).trans hu⟩
  bound hb := by
    obtain ⟨⟨m, hm, hs⟩, target, htarget, hk, hr⟩ := h.bound hb
    refine ⟨⟨f m, List.mem_map_of_mem hm, ?_⟩, f target, List.mem_map_of_mem htarget, ?_, ?_⟩
    · exact (hroot m).symm ▸ hs
    · exact (hkey target).trans hk
    · exact (hroot target).trans hr

/-- A module may move forward. -/
theorem setPhase (h : ctx.Linked) (key : String) (target : Phase) :
    (ctx.setPhase key target).Linked := by
  cases hmoved : ctx.module? key with
  | none =>
    have hsame : ctx.setPhase key target = ctx := by simp [Context.setPhase, canAdvance, hmoved]
    rwa [hsame]
  | some moved =>
    by_cases hlt : moved.phase < target
    · rw [setPhase_eq hmoved hlt]
      have htarget : Phase.parsed ≤ target :=
        (h.parsed moved (mem_of_module? hmoved).1).trans hlt.le
      refine h.remap ?_ ?_ ?_ fun m hm => ?_
      · intro m
        split <;> rfl
      · intro m
        split <;> rfl
      · intro m _ p hp
        split at hp <;> exact hp
      · split
        · exact htarget
        · exact h.parsed m hm
    · have hsame : ctx.setPhase key target = ctx := by
        simp [Context.setPhase, canAdvance, hmoved, hlt]
      rwa [hsame]

/-- A module may be appended whose key and root no other module has. -/
theorem append (h : ctx.Linked) (new : Module) (hkey : ∀ m ∈ ctx.modules, m.key ≠ new.key)
    (hroot : ∀ m ∈ ctx.modules, m.root ≠ new.root) (hnormal : slashed new.key = new.key)
    (hparsed : Phase.parsed ≤ new.phase) (hplaces : ∀ p ∈ new.program.places, p.Parsed)
    (hparent : ctx.scopes.parent? new.root = some 0) :
    ({ ctx with modules := ctx.modules ++ [new] } : Context).Linked where
  scopes := h.scopes
  graph := h.graph
  keys_nodup := by
    rw [List.map_append, List.nodup_append']
    refine ⟨h.keys_nodup, List.nodup_singleton _, ?_⟩
    simpa [List.disjoint_singleton] using hkey
  normal := List.forall_mem_append.mpr ⟨h.normal, List.forall_mem_singleton.mpr hnormal⟩
  parsed := List.forall_mem_append.mpr ⟨h.parsed, List.forall_mem_singleton.mpr hparsed⟩
  places := List.forall_mem_append.mpr ⟨h.places, List.forall_mem_singleton.mpr hplaces⟩
  root := List.forall_mem_append.mpr ⟨h.root, List.forall_mem_singleton.mpr hparent⟩
  roots_nodup := by
    rw [List.map_append, List.nodup_append']
    refine ⟨h.roots_nodup, List.nodup_singleton _, ?_⟩
    simpa [List.disjoint_singleton] using hroot
  edge_iff := by
    refine List.forall_mem_append.mpr ⟨h.edge_iff, List.forall_mem_singleton.mpr fun k => ?_⟩
    -- Neither edges nor bindings belong to a module that has not been there.
    constructor
    · intro he
      obtain ⟨m, hm, hu⟩ := h.source he
      exact absurd hu (hkey m hm)
    · rintro ⟨s, b, hs, hb, -⟩
      obtain ⟨⟨m, hm, hs'⟩, -⟩ := h.bound hb
      have hsame := ScopeForest.root_unique h.scopes (h.root m hm) hparent hs' hs
      exact absurd hsame (hroot m hm)
  source he := by
    obtain ⟨m, hm, hu⟩ := h.source he
    exact ⟨m, List.mem_append_left _ hm, hu⟩
  bound hb := by
    obtain ⟨⟨m, hm, hs⟩, target, htarget, hk⟩ := h.bound hb
    exact ⟨⟨m, List.mem_append_left _ hm, hs⟩, target, List.mem_append_left _ htarget, hk⟩

/-- A module may be registered under a key that is free. -/
theorem addModule (h : ctx.Linked) {key : String} {file : Path} {program : Program}
    (hfree : ctx.hasModule key = false) (hkey : slashed key = key)
    (hplaces : ∀ p ∈ program.places, p.Parsed) :
    (ctx.addModule key file program).2.Linked := by
  rw [addModule_eq hfree]
  have hgrown := h.grow (ScopeForest.grows_openScope ctx.scopes h.scopes.base .global)
  have hparent : (ctx.scopes.openScope (some builtins) .global).2.parent? ctx.scopes.size =
      some 0 := by
    rw [ScopeForest.parent?_openScope, if_pos rfl]
    rfl
  have hkeys : ∀ m ∈ ctx.modules, m.key ≠ key := by
    rintro m hm rfl
    rw [hasModule_of_mem hm] at hfree
    cases hfree
  have hroots : ∀ m ∈ ctx.modules, m.root ≠ ctx.scopes.size :=
    fun m hm => (ScopeForest.lt_size_of_parent? (h.root m hm)).ne
  exact hgrown.append ⟨key, file, program, ctx.scopes.size, .parsed⟩ hkeys hroots hkey le_rfl
    hplaces hparent

/-! ### Imports -/

/-- A module may be imported: its edge is recorded and an alias in the tree is bound to it. -/
theorem link (h : ctx.Linked) {target : Module} (hm : m ∈ ctx.modules)
    (htarget : target ∈ ctx.modules) {g : ImportGraph}
    (hg : ctx.graph.insert m.key target.key = .ok g) {s : ScopeId}
    (hs : m.root ∈ ctx.scopes.chain s) {F : ScopeForest} {aliasName : String}
    (hF : ctx.scopes.Binds s ⟨aliasName, target.key, target.root⟩ F) :
    ({ ctx with graph := g, scopes := F } : Context).Linked := by
  have hedge := ImportGraph.edge_of_insert hg
  rw [h.normal m hm, h.normal target htarget] at hedge
  have hchain := hF.chain_eq h.scopes
  constructor
  · exact hF.sound h.scopes
  · exact h.graph.insert hg
  · exact h.keys_nodup
  · exact h.normal
  · exact h.parsed
  · exact h.places
  · exact fun m hm => (hF.parent _).trans (h.root m hm)
  · exact h.roots_nodup
  · intro m' hm' k
    rw [hedge]
    constructor
    · rintro (he | ⟨hu, rfl⟩)
      · obtain ⟨t, b, ht, hb, hk⟩ := (h.edge_iff m' hm' k).mp he
        exact ⟨t, b, (hchain t).symm ▸ ht, hF.mem_imports hb, hk⟩
      · obtain rfl := h.eq_of_key hm' hm hu
        exact ⟨s, _, (hchain s).symm ▸ hs, hF.mem_imports_self, rfl⟩
    · rintro ⟨t, b, ht, hb, hk⟩
      rw [hchain] at ht
      rcases hF.mem_imports_cases hb with hb | ⟨rfl, rfl⟩
      · exact Or.inl ((h.edge_iff m' hm' k).mpr ⟨t, b, ht, hb, hk⟩)
      · obtain rfl := h.eq_of_mem_chain hm' hm ht hs
        exact Or.inr ⟨rfl, hk.symm⟩
  · intro u v he
    rcases (hedge u v).mp he with he | ⟨rfl, -⟩
    · exact h.source he
    · exact ⟨m, hm, rfl⟩
  · intro t b hb
    rcases hF.mem_imports_cases hb with hb | ⟨rfl, rfl⟩
    · obtain ⟨⟨m', hm', ht⟩, hb'⟩ := h.bound hb
      exact ⟨⟨m', hm', (hchain t).symm ▸ ht⟩, hb'⟩
    · exact ⟨⟨m, hm, (hchain t).symm ▸ hs⟩, target, htarget, rfl, rfl⟩

end Linked

end Sable.Context
