import Sable.Proofs.Compilation.Grounded
import Sable.Proofs.Context.InStep
import Sable.Proofs.Loader.Keys

/-!
# Collecting one import

An import is collected in steps, each of which may end it: its file is found, its edge is
recorded, its module is registered, and its alias is bound. Wherever it ends, the edge is there
exactly if a binding is. If no report has spoiled the run, the import has left a binding, and
the only module that it may have registered is the one that the pass turns to next.
-/

namespace Sable

namespace Loader

variable {l l' d : Loader}

/-- A file that is loaded is a program, and one that is not loaded is none. -/
theorem load_ok (hlike : l.Like l') {file : Path} {program : Program}
    (h : l'.load file = (.ok program, d)) : l.Like d ∧ l.Parses file program := by
  have hread := hlike.read_eq file
  unfold load at h
  cases htext : l'.read file with
  | error e => simp [htext] at h
  | ok text =>
    simp only [htext] at h
    obtain ⟨hresult, rfl⟩ := Prod.mk.inj h
    refine ⟨⟨hlike.options, hlike.store⟩, text, l'.files.length, hread ▸ htext, ?_⟩
    cases hparse : Sable.parse text l'.files.length with
    | error e => simp [hparse, Except.mapError] at hresult
    | ok program' => simpa [hparse, Except.mapError] using hresult

@[inherit_doc load_ok]
theorem load_error (hlike : l.Like l') {file : Path} {e : LoadError}
    (h : l'.load file = (.error e, d)) : l.Like d ∧ l.Fails file := by
  have hread := hlike.read_eq file
  unfold load at h
  cases htext : l'.read file with
  | error e =>
    simp only [htext] at h
    obtain ⟨-, rfl⟩ := Prod.mk.inj h
    exact ⟨hlike, Or.inl ⟨e, hread ▸ htext⟩⟩
  | ok text =>
    simp only [htext] at h
    obtain ⟨hresult, rfl⟩ := Prod.mk.inj h
    refine ⟨⟨hlike.options, hlike.store⟩, Or.inr ⟨text, l'.files.length, ?_⟩⟩
    cases hparse : Sable.parse text l'.files.length with
    | error e => exact ⟨e, hread ▸ htext, rfl⟩
    | ok program => simp [hparse, Except.mapError] at hresult

end Loader

namespace Compilation

open Context

variable {l : Loader} {needed : Path → Prop} {c : Compilation} {m : Module} {s : ScopeId}
  {i : Import} {key : String} {file : Path}

/-! ### Registering the module of an import -/

/-- What registering a file under a key comes to, if the file is a program. -/
structure Registers (l : Loader) (needed : Path → Prop) (key : String) (ctx d : Context) :
    Prop where
  /-- Graph, bindings and modules go on to agree. -/
  linked : d.Linked
  /-- What the context holds has its ground. -/
  grounded : d.Grounded l needed
  /-- Nothing gets lost. -/
  onward : ctx.Extends d
  /-- No edge is recorded. -/
  graph : d.graph = ctx.graph
  /-- No alias is bound. -/
  imports : ∀ s, d.scopes.imports s = ctx.scopes.imports s
  /-- The key is registered. -/
  target : ∃ target, d.module? key = some target
  /-- At most one module is registered. -/
  modules : d.modules = ctx.modules ∨ (ctx.hasModule key = false ∧ d.phase key = .parsed ∧
    ∀ m ∈ d.modules, m ∈ ctx.modules ∨ m.key = key)
  /-- No module that was there moves, and a new one has been parsed. -/
  phases : ∀ k, d.phase k = ctx.phase k ∨ (ctx.hasModule k = false ∧ d.phase k = .parsed)

variable {d : Compilation} {g : ImportGraph}

/-- A program may be registered under a key that is free. -/
private theorem registers_addModule {ctx : Context} (hl : ctx.Linked) (hg : ctx.Grounded l needed)
    (hneeded : needed file) (hkey : key = l.moduleKey file) {program : Program}
    (hparses : l.Parses file program) (hfree : ctx.hasModule key = false) :
    Registers l needed key ctx (ctx.addModule key file program).2 := by
  obtain ⟨text, n, -, hparse⟩ := id hparses
  have hslash : slashed key = key := hkey ▸ l.slashed_moduleKey file
  have hnone : ctx.module? key = none := by simpa [hasModule] using hfree
  have hnew : (ctx.addModule key file program).2.module? key =
      some ⟨key, file, program, ctx.scopes.size, .parsed⟩ := by
    rw [module?_addModule hfree, hnone, Option.none_or, if_pos rfl]
  constructor
  · exact hl.addModule hfree hslash (parsed_of_parse hparse)
  · exact hg.addModule hl hfree hneeded hkey hparses
  · exact extends_addModule hl hfree
  · rw [addModule_eq hfree]
  · rw [addModule_eq hfree]
    exact (ScopeForest.grows_openScope ctx.scopes hl.scopes.base .global).imports
  · exact ⟨_, hnew⟩
  · refine Or.inr ⟨hfree, phase_of_module? hnew, ?_⟩
    rw [modules_addModule _ _ hfree]
    intro m hm
    exact (List.mem_append.mp hm).imp id fun hm => by rw [List.mem_singleton.mp hm]
  · intro k
    rw [phase, phase, module?_addModule hfree]
    cases hk : ctx.module? k with
    | some m => exact Or.inl rfl
    | none =>
      rw [Option.none_or]
      split
      · exact Or.inr ⟨by simp [hasModule, hk], rfl⟩
      · exact Or.inl rfl

/-- Registering a file changes only modules, scopes and the files read so far. -/
theorem register_ok (hl : c.context.Linked) (hg : c.context.Grounded l needed)
    (hlike : l.Like c.loader) (hneeded : needed file) (hkey : key = l.moduleKey file) {u : Unit}
    (h : c.register key file = (.ok u, d)) :
    l.Like d.loader ∧ Registers l needed key c.context d.context := by
  unfold register at h
  cases hhas : c.context.hasModule key with
  | true =>
    simp only [hhas, ↓reduceIte] at h
    obtain ⟨-, rfl⟩ := Prod.mk.inj h
    exact ⟨hlike, hl, hg, Extends.refl _, rfl, fun _ => rfl, exists_of_hasModule hhas,
      Or.inl rfl, fun _ => Or.inl rfl⟩
  | false =>
    simp only [hhas, Bool.false_eq_true, ↓reduceIte] at h
    rcases hload : c.loader.load file with ⟨e | program, l'⟩
    · simp [hload] at h
    · simp only [hload] at h
      obtain ⟨-, rfl⟩ := Prod.mk.inj h
      obtain ⟨hlike', hparses⟩ := Loader.load_ok hlike hload
      exact ⟨hlike', registers_addModule hl hg hneeded hkey hparses hhas⟩

theorem register_error (hlike : l.Like c.loader) {e : LoadError}
    (h : c.register key file = (.error e, d)) :
    l.Like d.loader ∧ l.Fails file ∧ d.context = c.context := by
  unfold register at h
  split at h
  · cases h
  · rcases hload : c.loader.load file with ⟨e | program, l'⟩
    · simp only [hload] at h
      obtain ⟨-, rfl⟩ := Prod.mk.inj h
      obtain ⟨hlike', hfails⟩ := Loader.load_error hlike hload
      exact ⟨hlike', hfails, rfl⟩
    · simp [hload] at h

/-- Registering a file does not look at the graph. -/
theorem register_regraph (c : Compilation) (g : ImportGraph) (key : String) (file : Path) :
    (c.update fun ctx => { ctx with graph := g }).register key file =
      ((c.register key file).1,
        (c.register key file).2.update fun ctx => { ctx with graph := g }) := by
  have hhas : (c.update fun ctx => { ctx with graph := g }).context.hasModule key =
      c.context.hasModule key := rfl
  unfold register
  rw [hhas]
  cases h : c.context.hasModule key with
  | true => rfl
  | false =>
    have hload : (c.update fun ctx => { ctx with graph := g }).loader = c.loader := rfl
    rw [hload]
    rcases c.loader.load file with ⟨e | program, l'⟩
    · rfl
    · simp only [update, Bool.false_eq_true, ↓reduceIte]
      have h' : ({ c.context with graph := g } : Context).hasModule key = false := h
      rw [addModule_eq h, addModule_eq h']

/-! ### The import as a whole -/

/-- What collecting an import of a module in a scope comes to. -/
structure Imported (l : Loader) (needed : Path → Prop) (m : Module) (s : ScopeId) (i : Import)
    (c : Compilation) (key? : Option String) (d : Compilation) : Prop where
  /-- Modules come from where they came from. -/
  like : l.Like d.loader
  /-- Graph, bindings and modules go on to agree. -/
  linked : d.context.Linked
  /-- What the context holds has its ground. -/
  grounded : d.context.Grounded l needed
  /-- Nothing gets lost. -/
  onward : c.context.Extends d.context
  /-- No module that was there moves, and a new one has been parsed. -/
  phases : ∀ k, d.context.phase k = c.context.phase k ∨
    (c.context.hasModule k = false ∧ d.context.phase k = .parsed)
  /-- A module that the pass turns to is imported. -/
  turn : ∀ key ∈ key?, d.context.graph.Edge m.key key
  /-- A module that is registered, but not turned to, is reported to be out of reach. -/
  registered : d.context.Spoiled ∨
    ∀ m' ∈ d.context.modules, m' ∈ c.context.modules ∨
      (key? = some m'.key ∧ d.context.graph.Edge m.key m'.key)
  /-- The import has left a binding. -/
  collects : d.context.Collects l m.file s i
  /-- No other binding is new. -/
  adds : c.context.AddsBinding m key? d.context

/-- An edge that is recorded and dropped again leaves a context as it was. -/
private theorem undo_context {ctx : Context} (hl : ctx.Linked) (hg : ctx.Grounded l needed)
    {u v : String} (hins : ctx.graph.insert u v = .ok g) (fresh : Bool)
    (hfresh : fresh = !ctx.graph.hasEdge u v) :
    ({ ctx with graph := if fresh then g.erase u v else g } : Context).Linked ∧
      ({ ctx with graph := if fresh then g.erase u v else g } : Context).Grounded l needed ∧
        ctx.Extends { ctx with graph := if fresh then g.erase u v else g } := by
  subst hfresh
  have hedge := ImportGraph.edge_undo hins
  exact ⟨hl.regraph (hl.graph.undo hins) hedge, hg.regraph hl hedge, extends_regraph hedge⟩

theorem forgetEdge_eq (m : Module) (key : String) (fresh : Bool) (c : Compilation) :
    c.forgetEdge m key fresh = ⟨{ c.context with
      graph := if fresh then c.context.graph.erase m.key key else c.context.graph }, c.loader⟩ := by
  unfold forgetEdge
  split <;> simp_all [update]

/-- Reports may be added, each with its reason if it stops the passes. -/
private theorem report_all {ctx : Context} (rs : List Diagnostic) (hl : ctx.Linked)
    (hg : ctx.Grounded l needed)
    (hrs : ∀ r ∈ rs, r.severity.isFatal = true → ctx.Explained l needed r) :
    (rs.foldl report ctx).Linked ∧ (rs.foldl report ctx).Grounded l needed ∧
      ctx.Extends (rs.foldl report ctx) ∧ (rs.foldl report ctx).modules = ctx.modules ∧
        (rs.foldl report ctx).scopes = ctx.scopes ∧
          ∀ r ∈ rs, r ∈ (rs.foldl report ctx).diagnostics.items := by
  induction rs generalizing ctx with
  | nil => exact ⟨hl, hg, Extends.refl ctx, rfl, rfl, by simp⟩
  | cons r rs ih =>
    have hr := extends_report ctx r
    rw [List.forall_mem_cons] at hrs
    obtain ⟨hl', hg', hext, hmodules, hscopes, hmem⟩ := ih (hl.report r) (hg.report hl hrs.1)
      fun r' hr' hfatal => (hrs.2 r' hr' hfatal).later hl hr
    refine ⟨hl', hg', hr.trans hext, hmodules, hscopes, List.forall_mem_cons.mpr ⟨?_, hmem⟩⟩
    exact hext.reports.subset (List.mem_append_right _ (List.mem_singleton_self r))

/--
An import that is dropped leaves nothing behind but reports. Either one of them spoils the run,
or the module is imported already.
-/
private theorem imported_none {ctx : Context} (hlike : l.Like d.loader) (hl : ctx.Linked)
    (hg : ctx.Grounded l needed) (hext : c.context.Extends ctx)
    (hphases : ∀ k, ctx.phase k = c.context.phase k ∨
      (c.context.hasModule k = false ∧ ctx.phase k = .parsed))
    (himports : ∀ t, ctx.scopes.imports t = c.context.scopes.imports t)
    (rs : List Diagnostic) (hd : d.context = rs.foldl report ctx)
    (hrs : ∀ r ∈ rs, r.severity.isFatal = true → ctx.Explained l needed r)
    (hcause : (∃ r ∈ rs, Spoils r) ∨
      (ctx.modules = c.context.modules ∧ ctx.Collects l m.file s i)) :
    Imported l needed m s i c none d := by
  obtain ⟨hl', hg', hext', hsame, hscopes, hmem⟩ := report_all rs hl hg hrs
  rw [← hd] at hl' hg' hext' hsame hscopes hmem
  have hspoiled : (∃ r ∈ rs, Spoils r) → d.context.Spoiled :=
    fun ⟨r, hr, hspoils⟩ => ⟨r, hmem r hr, hspoils⟩
  refine ⟨hlike, hl', hg', hext.trans hext', fun k => ?_, by simp, hcause.imp hspoiled ?_, ?_,
    fun hb => Or.inl ?_⟩
  · rw [phase_congr hsame k]
    exact hphases k
  · exact fun ⟨he, _⟩ m' hm' => Or.inl (he ▸ hsame ▸ hm')
  · exact hcause.elim (fun h => Or.inl (hspoiled h)) fun h => h.2.later hext'
  · rwa [hscopes, himports] at hb

/-- An import of a file that is no program is reported, and its edge is dropped. -/
private theorem imported_unparsed {b : Compilation} (hl : c.context.Linked)
    (hg : c.context.Grounded l needed) (hlike : l.Like c.loader) (hneeded : needed file)
    (hins : c.context.graph.insert m.key key = .ok g) {e : LoadError}
    (hreg : c.register key file = (.error e, b)) :
    Imported l needed m s i c none
      ((((b.update fun ctx => { ctx with graph := g }).update fun ctx =>
        ctx.report (loadReport file e)).reportIn m i.span
          ("failed to parse imported module '" ++ i.path ++ "'")).forgetEdge m key
            (!c.context.graph.hasEdge m.key key)) := by
  obtain ⟨hlike', hfails, hb⟩ := register_error hlike hreg
  obtain ⟨hl', hg', hext⟩ := undo_context hl hg hins _ rfl
  rw [forgetEdge_eq]
  refine imported_none hlike' hl' hg' hext (fun _ => Or.inl rfl) (fun _ => rfl)
    [loadReport file e, ⟨m.file.text, i.span,
      "failed to parse imported module '" ++ i.path ++ "'", .semanticError, .collecting, none⟩]
    (hb ▸ rfl) ?_ (Or.inl ⟨_, List.mem_cons_self .., Or.inl rfl⟩)
  intro r hr hfatal
  rcases List.mem_pair.mp hr with rfl | rfl
  · exact .unparsed hneeded hfails
  · cases hfatal

section Registered

variable {b : Compilation} {target : Module} (hl : c.context.Linked)
  (hlike : l.Like b.loader) (hb : Registers l needed target.key c.context b.context)
  (hs : c.context.Encloses m s) (hleads : l.Leads m.file i target.key)
  (hins : c.context.graph.insert m.key target.key = .ok g)

include hlike hb hs hleads hins

include hl in
/-- An import that is refused is reported, and its edge is dropped unless it was there before. -/
private theorem imported_refused {e : ImportError}
    (hadd : b.context.scopes.addImport s ⟨i.localAlias, target.key, target.root⟩ = .error e) :
    Imported l needed m s i c none
      (((b.update fun ctx => { ctx with graph := g }).reportIn m i.span e.message).forgetEdge m
        target.key (!c.context.graph.hasEdge m.key target.key)) := by
  have hins' : b.context.graph.insert m.key target.key = .ok g := hb.graph.symm ▸ hins
  obtain ⟨hl', hg', hext⟩ := undo_context hb.linked hb.grounded hins'
    (!c.context.graph.hasEdge m.key target.key) (by rw [hb.graph])
  rw [forgetEdge_eq]
  refine imported_none hlike hl' hg' (hb.onward.trans hext) hb.phases hb.imports
    [⟨m.file.text, i.span, e.message, .semanticError, .collecting, none⟩] rfl
    (fun r hr hfatal => by rw [List.mem_singleton.mp hr] at hfatal; cases hfatal) ?_
  rcases ScopeForest.exists_of_addImport_error hadd with ⟨bound, hbound, hkey⟩ | ⟨k, rfl⟩
  · -- The module is imported already, so it was there as well.
    obtain ⟨m', hm', hmkey, hmchain, -⟩ := (hs.later hb.onward).exists_mem
    have hedge : c.context.graph.Edge m'.key target.key := by
      rw [← hb.graph]
      exact (hb.linked.edge_iff m' hm' _).mpr ⟨s, bound, hmchain, hbound, hkey⟩
    refine Or.inr ⟨?_, Or.inr ⟨_, hleads, bound, hbound, hkey⟩⟩
    refine hb.modules.resolve_right fun ⟨hfree, _⟩ => ?_
    rw [hl.hasModule_of_edge hedge] at hfree
    cases hfree
  · exact Or.inl ⟨_, List.mem_singleton_self _, Or.inr ⟨_, k, rfl⟩⟩

/-- An import that is bound is turned to, unless its module is collected already. -/
private theorem imported_bound (hi : m.Holds s i)
    (htarget : target ∈ b.context.modules) {F : ScopeForest}
    (hadd : b.context.scopes.addImport s ⟨i.localAlias, target.key, target.root⟩ = .ok F) :
    Imported l needed m s i c
      (if Phase.collected ≤ b.context.phase target.key then none else some target.key)
      (b.update fun ctx => { ctx with graph := g, scopes := F }) := by
  obtain ⟨m', hm', hmkey, hmchain, hmroot, hmfile, hmprogram⟩ :=
    (hs.later hb.onward).exists_mem
  have hholds : m'.Holds s i := by
    rw [Module.Holds, hmprogram, hmroot]
    exact hi
  have hF := ScopeForest.binds_of_addImport (ScopeForest.lt_size_of_mem_chain hmchain) hadd
  have hins' : b.context.graph.insert m'.key target.key = .ok g := by
    rw [hb.graph, hmkey]
    exact hins
  have hedge : g.Edge m.key target.key := by
    refine (ImportGraph.edge_of_insert hins' _ _).mpr (Or.inr ⟨?_, ?_⟩)
    · exact hmkey ▸ (hb.linked.normal m' hm').symm
    · exact (hb.linked.normal target htarget).symm
  refine ⟨hlike, hb.linked.link hm' htarget hins' hmchain hF,
    hb.grounded.link hb.linked hm' htarget hins' hmchain hholds (hmfile ▸ hleads) hF,
    hb.onward.trans (extends_link hb.linked hins' hF), hb.phases, ?_, Or.inr ?_,
    Or.inr ⟨_, hleads, _, hF.mem_imports_self, rfl⟩, fun {t b'} hb' => ?_⟩
  · intro key hkey
    split at hkey
    · cases hkey
    · cases hkey
      exact hedge
  · intro m₁ hm₁
    rcases hb.modules with he | ⟨-, hphase, hnew⟩
    · exact Or.inl (he ▸ hm₁)
    · refine (hnew m₁ hm₁).imp_right fun hm₁key => ?_
      -- A module that has just been registered is still to be collected.
      rw [hphase, hm₁key, if_neg (by decide)]
      exact ⟨rfl, hedge⟩
  · rcases hF.mem_imports_cases hb' with hold | ⟨rfl, rfl⟩
    · exact Or.inl (hb.imports t ▸ hold)
    · refine Or.inr ⟨hmroot ▸ (hF.chain_eq hb.linked.scopes t).symm ▸ hmchain, ?_⟩
      split
      · next hle => exact Or.inr hle
      · exact Or.inl rfl

end Registered

/-- Binding an import whose edge is recorded. -/
theorem bindImport_spec (hl : c.context.Linked) (hg : c.context.Grounded l needed)
    (hlike : l.Like c.loader) (hs : c.context.Encloses m s)
    (hi : m.Holds s i) (hneeded : needed file) (hkey : key = l.moduleKey file)
    (hleads : l.Leads m.file i key) (hins : c.context.graph.insert m.key key = .ok g)
    {key? : Option String}
    (h : bindImport m s i key file (!c.context.graph.hasEdge m.key key)
      (c.update fun ctx => { ctx with graph := g }) = (key?, d)) :
    Imported l needed m s i c key? d := by
  unfold bindImport at h
  rw [register_regraph] at h
  rcases hreg : c.register key file with ⟨e | u, b⟩
  · simp only [hreg, Prod.mk.injEq] at h
    obtain ⟨rfl, rfl⟩ := h
    exact imported_unparsed hl hg hlike hneeded hins hreg
  · obtain ⟨hlike', hb⟩ := register_ok hl hg hlike hneeded hkey hreg
    obtain ⟨target, htarget⟩ := hb.target
    obtain ⟨htmem, rfl⟩ := mem_of_module? htarget
    have htarget' : (b.update fun ctx => { ctx with graph := g }).context.module? target.key =
      some target := htarget
    simp only [hreg, htarget'] at h
    cases hadd : b.context.scopes.addImport s ⟨i.localAlias, target.key, target.root⟩ with
    | error e =>
      have hadd' : (b.update fun ctx => { ctx with graph := g }).context.scopes.addImport s
        ⟨i.localAlias, target.key, target.root⟩ = .error e := hadd
      simp only [hadd', Prod.mk.injEq] at h
      obtain ⟨rfl, rfl⟩ := h
      exact imported_refused hl hlike' hb hs hleads hins hadd
    | ok F =>
      have hadd' : (b.update fun ctx => { ctx with graph := g }).context.scopes.addImport s
        ⟨i.localAlias, target.key, target.root⟩ = .ok F := hadd
      simp only [hadd', Prod.mk.injEq] at h
      obtain ⟨rfl, rfl⟩ := h
      exact imported_bound hlike' hb hs hleads hins hi htmem hadd

/-- Collecting an import. -/
theorem collectImport_spec (hl : c.context.Linked) (hg : c.context.Grounded l needed)
    (hlike : l.Like c.loader) (hs : c.context.Encloses m s)
    (hi : m.Holds s i)
    (hneeded : ∀ f, l.locate i.path m.file = .ok f → needed f) {key? : Option String}
    (h : collectImport m s i c = (key?, d)) : Imported l needed m s i c key? d := by
  unfold collectImport at h
  rw [hlike.locate_eq] at h
  cases hlocate : l.locate i.path m.file with
  | error e =>
    simp only [hlocate, Prod.mk.injEq] at h
    obtain ⟨rfl, rfl⟩ := h
    refine imported_none hlike hl hg (Extends.refl _) (fun _ => Or.inl rfl) (fun _ => rfl)
      [unresolvedReport m i e] rfl ?_ (Or.inl ⟨_, List.mem_singleton_self _, Or.inl rfl⟩)
    intro r hr _
    rw [List.mem_singleton.mp hr]
    exact .unresolved hs.1 hi.1 hlocate
  | ok file =>
    simp only [hlocate, hlike.moduleKey_eq] at h
    have hleads : l.Leads m.file i (l.moduleKey file) := ⟨file, hlocate, rfl⟩
    cases hins : c.context.graph.insert m.key (l.moduleKey file) with
    | ok g =>
      simp only [hins] at h
      exact bindImport_spec hl hg hlike hs hi (hneeded file hlocate) rfl hleads hins h
    | error cycle =>
      simp only [hins, Prod.mk.injEq] at h
      obtain ⟨rfl, rfl⟩ := h
      refine imported_none hlike hl hg (Extends.refl _) (fun _ => Or.inl rfl) (fun _ => rfl)
        [cycleReport m i (l.moduleKey file) cycle] rfl ?_
        (Or.inl ⟨_, List.mem_singleton_self _, Or.inl rfl⟩)
      intro r hr _
      rw [List.mem_singleton.mp hr]
      have hway := ImportGraph.insert_eq_error_iff.mp ⟨cycle, hins⟩
      obtain ⟨m', hm', hmkey, -, -, hmfile, hmprogram⟩ := hs.exists_mem
      rw [l.slashed_moduleKey file, ← hmkey, hl.normal m' hm', hmkey] at hway
      refine .cyclic (Relation.TransGen.head'
        ⟨m', hm', hmkey, i, hmprogram ▸ hi.1, hmfile ▸ hleads⟩ ?_)
      exact Relation.ReflTransGen.mono (fun _ _ => hg.edges) _ _ hway

end Compilation

end Sable
