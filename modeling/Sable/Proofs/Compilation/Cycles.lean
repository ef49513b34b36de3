import Sable.Proofs.Compilation.Checking

/-!
# Cycles of imports

Whether a check reports a cycle depends on the files alone. The graph in which it looks for
cycles is put together along the way, and an import that would close a cycle is refused; but if
nothing is refused, each import has left an edge behind, and the graph has no cycle. Then every
module is reached from the entry along edges, and each pass follows them.
-/

namespace Sable

/-! ### Files with plain imports -/

namespace Loader

/-- The files that a check of an entry needs: the entry, and all that needed files import. -/
inductive Needs (l : Loader) (entry : Path) : Path → Prop
  /-- The entry is needed. -/
  | entry : Needs l entry entry
  /-- A file that a needed file imports is needed. -/
  | imported {p program i f} : Needs l entry p → l.Parses p program →
      .importing i ∈ program.places → l.locate i.path p = .ok f → Needs l entry f

/-- The needed files are programs whose imports stand at the top level and lead somewhere. -/
structure Plain (l : Loader) (entry : Path) : Prop where
  /-- A needed file is a program. -/
  parses : ∀ p, l.Needs entry p → ¬ l.Fails p
  /-- An import stands at the top level. -/
  topLevel : ∀ p program i, l.Needs entry p → l.Parses p program →
    .importing i ∈ program.places → .importing i ∈ program.stmts
  /-- An import leads to a file. -/
  locates : ∀ p program i, l.Needs entry p → l.Parses p program →
    .importing i ∈ program.places → ∃ f, l.locate i.path p = .ok f

theorem closed_needs (l : Loader) (entry : Path) : l.Closed (l.Needs entry) :=
  fun hp hparses hi hf => .imported hp hparses hi hf

end Loader

/-! ### Contexts in which nothing is refused -/

namespace Context

variable {l : Loader} {entry : Path} {ctx d : Context} {m : Module} {u v : String}
  {target p : Phase}

/-- If every import leads somewhere and every file is a program, only cycles are fatal. -/
theorem Explained.cycle (hplain : l.Plain entry) (hg : ctx.Grounded l (l.Needs entry))
    {r : Diagnostic} (h : ctx.Explained l (l.Needs entry) r) :
    (r.severity = .criticalError ∧ ∃ text, r.message = "import cycle detected: " ++ text) ∧
      ∃ u, Relation.TransGen (ctx.Imports l) u u := by
  cases h with
  | unresolved hm hi he =>
    obtain ⟨m', hm', -, -, hfile, hprogram⟩ := hm.exists_mem
    obtain ⟨hneeded, -, hparses⟩ := hg.loaded m' hm'
    obtain ⟨f, hf⟩ := hplain.locates _ _ _ hneeded hparses (hprogram.symm ▸ hi)
    rw [hfile, he] at hf
    cases hf
  | cyclic h => exact ⟨⟨rfl, _, rfl⟩, _, h⟩
  | unparsed hneeded hfails => exact absurd hfails (hplain.parses _ hneeded)

/-- All modules stand at one phase and are reached from one module, and nothing is refused. -/
structure Level (l : Loader) (entry : Path) (p : Phase) (ctx : Context) : Prop where
  /-- Graph, bindings and modules agree. -/
  linked : ctx.Linked
  /-- What the context holds has its ground. -/
  grounded : ctx.Grounded l (l.Needs entry)
  /-- Nothing has been refused. -/
  unspoiled : ¬ ctx.Spoiled
  /-- The modules stand at the phase. -/
  phases : ∀ m ∈ ctx.modules, m.phase = p
  /-- The modules are reached. -/
  reached : ∀ m ∈ ctx.modules, ctx.graph.Reaches (l.moduleKey entry) m.key

/-- An import of a collected module has been bound in its outermost scope. -/
theorem Grounded.exists_binding (hg : ctx.Grounded l (l.Needs entry)) (hplain : l.Plain entry)
    (hspoiled : ¬ ctx.Spoiled) (hm : m ∈ ctx.modules) (hp : Phase.collected ≤ m.phase) {i : Import}
    (hi : .importing i ∈ m.program.places) (hleads : l.Leads m.file i v) :
    ∃ b ∈ ctx.scopes.imports m.root, b.key = v := by
  obtain ⟨hneeded, -, hparses⟩ := hg.loaded m hm
  have htop := hplain.topLevel _ _ _ hneeded hparses hi
  obtain ⟨key, ⟨f, hf, rfl⟩, b, hb, hkey⟩ :=
    (hg.collected m hm hp i (Stmt.mem_outerImportsAll htop)).resolve_left hspoiled
  obtain ⟨f', hf', rfl⟩ := hleads
  rw [hf, Except.ok.injEq] at hf'
  exact ⟨b, hb, hf' ▸ hkey⟩

/-- An import of a collected module has left an edge behind. -/
theorem Grounded.edge_of_imports (hg : ctx.Grounded l (l.Needs entry)) (hl : ctx.Linked)
    (hplain : l.Plain entry) (hspoiled : ¬ ctx.Spoiled)
    (hcollected : ∀ m ∈ ctx.modules, Phase.collected ≤ m.phase) (h : ctx.Imports l u v) :
    ctx.graph.Edge u v := by
  obtain ⟨m, hm, rfl, i, hi, hleads⟩ := h
  obtain ⟨b, hb, hkey⟩ := hg.exists_binding hplain hspoiled hm (hcollected m hm) hi hleads
  exact (hl.edge_iff m hm v).mpr
    ⟨m.root, b, ScopeForest.mem_chain_self (ScopeForest.lt_size_of_mem_imports hb), hb, hkey⟩

/-- An edge is followed by a pass that follows the imports of a module outside of functions. -/
theorem Grounded.exists_import (hg : ctx.Grounded l (l.Needs entry)) (hl : ctx.Linked)
    (hplain : l.Plain entry) (hspoiled : ¬ ctx.Spoiled) (hm : m ∈ ctx.modules)
    (hp : Phase.collected ≤ m.phase) (he : ctx.graph.Edge m.key v) :
    ∃ i ∈ m.program.outerImports,
      ctx.scopes.importedKey? m.root i.localAlias = some v := by
  obtain ⟨m', hm', hkey, i, hi, hleads⟩ := hg.edges he
  obtain rfl := hl.eq_of_key hm' hm hkey
  obtain ⟨b, hb, rfl⟩ := hg.exists_binding hplain hspoiled hm hp hi hleads
  have hroot := ScopeForest.mem_chain_self (ScopeForest.lt_size_of_mem_imports hb)
  obtain ⟨i', ⟨-, houter⟩, halias⟩ := hg.named _ hm hroot hb
  refine ⟨i', houter rfl, ?_⟩
  rw [ScopeForest.importedKey?, halias, ScopeForest.visibleImport?_of_mem hl.scopes hb,
    Option.map_some]

/-- A pass that comes to the end of one module leads all modules on. -/
theorem Passing.level (h : Passing target p ctx [] d) (hlevel : ctx.Level l entry p)
    (hplain : l.Plain entry) (ht : target.previous? = some p) (hp : Phase.collected ≤ p)
    (hspoiled : ¬ d.Spoiled) (hentry : target ≤ d.phase (l.moduleKey entry)) :
    d.Level l entry target := by
  have hl := hlevel.linked
  have hext := h.since.toExtends hl
  have hphase : ∀ m ∈ ctx.modules, ctx.phase m.key = p := fun m hm =>
    (phase_of_module? (hl.module?_of_mem hm)).trans (hlevel.phases m hm)
  -- The pass has led on whatever is reached from the entry, by induction along the way.
  have hled : ∀ k, ctx.graph.Reaches (l.moduleKey entry) k → target ≤ d.phase k := by
    intro k hway
    induction hway with
    | refl => exact hentry
    | tail _ he ih =>
      obtain ⟨m, hm, rfl⟩ := hl.source he
      obtain ⟨m', hm'⟩ := exists_of_hasModule (hl.hasModule_of_edge he)
      obtain ⟨hmem', rfl⟩ := mem_of_module? hm'
      have hle : Phase.collected ≤ m.phase := (hlevel.phases m hm).symm ▸ hp
      obtain ⟨i, hi, hkey⟩ := hlevel.grounded.exists_import hl hplain hlevel.unspoiled hm hle he
      rcases h.closed m hm ih with hold | hfollows
      · rw [hphase m hm] at hold
        exact absurd (Phase.previous_lt ht) hold.not_gt
      · have hroot := ScopeForest.lt_size_of_parent? (hl.root m hm)
        rw [← h.since.scopes.importedKey?_eq hl.scopes hroot] at hkey
        exact hfollows i hi _ hkey ((hphase m' hmem').ge.trans (h.since.phase_le _))
  refine ⟨h.walking.linked, h.grounded ht hp hlevel.grounded, hspoiled, fun m hm => ?_,
    fun m hm => ?_⟩
  · have hm' := phase_of_module? (h.walking.linked.module?_of_mem hm)
    obtain ⟨m₀, hm₀, q, -, rfl⟩ := h.since.exists_mem hl hm
    have hle := hled m₀.key (hlevel.reached m₀ hm₀)
    rcases h.since.phases m₀.key with hk | ⟨-, hk⟩
    · rw [hk, hphase m₀ hm₀] at hle
      exact absurd (Phase.previous_lt ht) hle.not_gt
    · exact hm'.symm.trans hk
  · obtain ⟨m₀, hm₀, q, -, rfl⟩ := h.since.exists_mem hl hm
    exact hext.reaches (hlevel.reached m₀ hm₀)

end Context

/-! ### The first check -/

namespace Compilation

open Context

variable {l : Loader} {entry : Path} {c : Compilation} {key : String}

/-- The first check registers its entry and puts it through the passes. -/
private theorem check_new (hplain : l.Plain entry) : ∃ c : Compilation,
    (collecting l (l.Needs entry) (· = l.moduleKey entry)).Ready [] (l.moduleKey entry) c ∧
      (∀ k, c.context.phase k ≤ .parsed) ∧
        (new l).check entry = (.ok (l.moduleKey entry), c.runPasses (l.moduleKey entry)) := by
  have h := (settled_new l (l.Needs entry) (· = l.moduleKey entry)).enter
    (some (l.moduleKey entry))
  rcases hreg : ((new l).update fun ctx =>
    { ctx with entry? := some (l.moduleKey entry) }).register (l.moduleKey entry) entry
      with ⟨e | u, d⟩
  · exact absurd (register_error h.like hreg).2.1 (hplain.parses entry .entry)
  · obtain ⟨hlike, hd⟩ := register_ok h.linked h.grounded h.like .entry rfl hreg
    refine ⟨d, ready_of_registers h.accounted h.inStep rfl hlike hd, fun k => ?_, ?_⟩
    · rcases hd.phases k with hk | ⟨-, hk⟩
      · rw [hk]
        exact (show Phase.notStarted ≤ .parsed by decide)
      · exact hk.le
    · have hloader : (new l).loader = l := rfl
      simp only [Compilation.check, hloader, hreg]

/-- If nothing is refused, the first pass leads every module to the same phase. -/
private theorem level_collect
    (hready : (collecting l (l.Needs entry) (· = l.moduleKey entry)).Ready [] key c)
    (hphases : ∀ k, c.context.phase k ≤ .parsed) (hspoiled : ¬ (c.collect key).context.Spoiled) :
    (c.collect key).context.Level l entry .collected := by
  obtain ⟨hc, hadvances, -⟩ := collect_spec (l.closed_needs entry) hready
  have hall := hc.accounted.resolve_left hspoiled
  refine ⟨hc.walking.linked, hc.grounded, hspoiled, fun m hm => ?_, fun m hm => ?_⟩
  · have hphase := phase_of_module? (hc.walking.linked.module?_of_mem hm)
    refine le_antisymm ?_ ((hall m hm).1.resolve_left List.not_mem_nil)
    rw [← hphase]
    rcases hadvances.phases m.key with hk | hk
    · exact hk ▸ (hphases m.key).trans (by decide)
    · exact hk
  · obtain ⟨-, r, rfl, hway⟩ := hall m hm
    exact hway

/-- If nothing is refused, every module goes through all passes. -/
private theorem level_runPasses (hplain : l.Plain entry)
    (hready : (collecting l (l.Needs entry) (· = l.moduleKey entry)).Ready []
      (l.moduleKey entry) c)
    (hphases : ∀ k, c.context.phase k ≤ .parsed)
    (hspoiled : ¬ (c.runPasses (l.moduleKey entry)).context.Spoiled) :
    (c.runPasses (l.moduleKey entry)).context.Level l entry .typechecked := by
  obtain ⟨hc, -, hkey⟩ := collect_spec (l.closed_needs entry) hready
  have hl := hc.walking.linked
  rcases runPasses_cases rfl hl hkey with ⟨hfatal, he⟩ | ⟨-, r, t, hr, hrkey, ht, htkey, he⟩
  · -- A fatal report of the first pass would be there at the end.
    rw [Diagnostics.hasFatal_eq] at hfatal
    obtain ⟨e, hmem, hsev⟩ := List.any_eq_true.mp hfatal
    exact absurd ⟨e, hmem, Or.inl hsev⟩ (he ▸ hspoiled)
  · rw [he] at hspoiled ⊢
    have hr' : ¬ r.Spoiled := fun h => hspoiled (h.later (ht.since.toExtends hr.walking.linked))
    have hcollect := level_collect hready hphases fun h => hr' (h.later (hr.since.toExtends hl))
    have hresolve := hr.level hcollect hplain rfl le_rfl hr' hrkey
    exact ht.level hresolve hplain rfl (by decide) hspoiled htkey

/--
For files with plain imports, none of which is refused for its alias, the first check reports a
cycle of imports if and only if the registered modules import each other in a cycle. If they do
not, no critical error is reported at all, and every module has gone through all passes.
-/
theorem check_reports_cycle_iff (l : Loader) (entry : Path) (hplain : l.Plain entry)
    (halias : ∀ r ∈ ((new l).check entry).2.context.diagnostics.items, ∀ aliasName k,
      r.message ≠ (ImportError.aliasInUse aliasName k).message) :
    ((∃ r ∈ ((new l).check entry).2.context.diagnostics.items, r.severity = .criticalError ∧
        ∃ text, r.message = "import cycle detected: " ++ text) ↔
      ∃ u, Relation.TransGen (((new l).check entry).2.context.Imports l) u u) ∧
    ((¬ ∃ u, Relation.TransGen (((new l).check entry).2.context.Imports l) u u) →
      (∀ r ∈ ((new l).check entry).2.context.diagnostics.items, r.severity ≠ .criticalError) ∧
        ∀ m ∈ ((new l).check entry).2.context.modules, m.phase = .typechecked) := by
  have hsettled := (settled_new l (l.Needs entry) (· = l.moduleKey entry)).check
    (l.closed_needs entry) .entry rfl
  obtain ⟨c, hready, hphases, hcheck⟩ := check_new hplain
  have hlevel := level_runPasses hplain hready hphases
  rw [hcheck] at halias hsettled ⊢
  generalize (c.runPasses (l.moduleKey entry)) = d at *
  have hcritical : ∀ r ∈ d.context.diagnostics.items, r.severity = .criticalError →
      d.context.Spoiled := fun r hr hsev => ⟨r, hr, Or.inl (by rw [hsev]; rfl)⟩
  -- Whatever spoils the run is a cycle and is reported as one.
  have hcycle : d.context.Spoiled →
      (∃ r ∈ d.context.diagnostics.items, r.severity = .criticalError ∧
        ∃ text, r.message = "import cycle detected: " ++ text) ∧
      ∃ u, Relation.TransGen (d.context.Imports l) u u := by
    rintro ⟨r, hr, hfatal | ⟨aliasName, k, hmessage⟩⟩
    · obtain ⟨hreport, hcycle⟩ := (hsettled.grounded.explained r hr hfatal).cycle hplain
        hsettled.grounded
      exact ⟨⟨r, hr, hreport⟩, hcycle⟩
    · exact absurd hmessage (halias r hr aliasName k)
  -- If nothing spoils the run, imports are edges, and these form no cycle.
  have hacyclic : ¬ d.context.Spoiled → ¬ ∃ u, Relation.TransGen (d.context.Imports l) u u := by
    rintro hspoiled ⟨u, hway⟩
    have hall := hsettled.accounted.resolve_left hspoiled
    refine hsettled.linked.graph.acyclic u (Relation.TransGen.mono (fun _ _ h => ?_) _ _ hway)
    exact hsettled.grounded.edge_of_imports hsettled.linked hplain hspoiled
      (fun m hm => (hall m hm).1.resolve_left List.not_mem_nil) h
  refine ⟨⟨fun ⟨r, hr, hsev, _⟩ => (hcycle (hcritical r hr hsev)).2, fun hway => ?_⟩,
    fun hnone => ?_⟩
  · by_contra hreport
    exact hacyclic (fun hspoiled => hreport (hcycle hspoiled).1) hway
  · have hspoiled : ¬ d.context.Spoiled := fun h => hnone (hcycle h).2
    exact ⟨fun r hr hsev => hspoiled (hcritical r hr hsev), (hlevel hspoiled).phases⟩

/-! ### Two files that import each other -/

/-- The files `a.sbl` and `b.sbl`, which import each other. -/
def mutualImports : Loader :=
  .new (.ofRoot ⟨""⟩) (.memory [(⟨"a.sbl"⟩, "import \"b\""), (⟨"b.sbl"⟩, "import \"a\"")])

private theorem parse_import_a (n : Nat) :
    parse "import \"a\"" n = .ok ⟨[.importing ⟨"a", none, ⟨0, 10, n⟩⟩], ⟨0, 10, n⟩⟩ := by
  have htokens : tokenize "import \"a\"" n = .ok [⟨.keyword .importKw, ⟨0, 6, n⟩⟩,
    ⟨.string "a", ⟨7, 10, n⟩⟩, ⟨.eof, ⟨10, 10, n⟩⟩] := rfl
  rw [parse, htokens]
  rfl

private theorem parse_import_b (n : Nat) :
    parse "import \"b\"" n = .ok ⟨[.importing ⟨"b", none, ⟨0, 10, n⟩⟩], ⟨0, 10, n⟩⟩ := by
  have htokens : tokenize "import \"b\"" n = .ok [⟨.keyword .importKw, ⟨0, 6, n⟩⟩,
    ⟨.string "b", ⟨7, 10, n⟩⟩, ⟨.eof, ⟨10, 10, n⟩⟩] := rfl
  rw [parse, htokens]
  rfl

/-- Each of the two files is a program with one import, which leads to one of them. -/
private theorem import_mutualImports {p : Path} (hp : p = ⟨"a.sbl"⟩ ∨ p = ⟨"b.sbl"⟩) :
    ∃ text name f, mutualImports.read p = .ok text ∧ mutualImports.locate name p = .ok f ∧
      (f = ⟨"a.sbl"⟩ ∨ f = ⟨"b.sbl"⟩) ∧
        ∀ n, parse text n = .ok ⟨[.importing ⟨name, none, ⟨0, 10, n⟩⟩], ⟨0, 10, n⟩⟩ := by
  rcases hp with rfl | rfl
  · exact ⟨_, "b", ⟨"b.sbl"⟩, by decide +kernel, by decide +kernel, Or.inr rfl, parse_import_b⟩
  · exact ⟨_, "a", ⟨"a.sbl"⟩, by decide +kernel, by decide +kernel, Or.inl rfl, parse_import_a⟩

private theorem plain_mutualImports : mutualImports.Plain ⟨"a.sbl"⟩ := by
  -- Whatever an import in one of the files is, it stands at the top level and leads to one of them.
  have himport : ∀ {p program i}, (p = ⟨"a.sbl"⟩ ∨ p = ⟨"b.sbl"⟩) → mutualImports.Parses p program →
      .importing i ∈ program.places → .importing i ∈ program.stmts ∧
        ∃ f, mutualImports.locate i.path p = .ok f ∧ (f = ⟨"a.sbl"⟩ ∨ f = ⟨"b.sbl"⟩) := by
    intro p program i hp hparses hi
    obtain ⟨text, name, f, hread, hf, hfile, hparse⟩ := import_mutualImports hp
    obtain ⟨text', n, hread', hparse'⟩ := hparses
    obtain rfl : text = text' := Except.ok.inj (hread.symm.trans hread')
    obtain rfl := Except.ok.inj ((hparse n).symm.trans hparse')
    obtain rfl : i = ⟨name, none, ⟨0, 10, n⟩⟩ := by
      simpa [Program.places, Stmt.placesAll, Stmt.places] using hi
    exact ⟨List.mem_singleton_self _, f, hf, hfile⟩
  have hneeds : ∀ p, mutualImports.Needs ⟨"a.sbl"⟩ p → p = ⟨"a.sbl"⟩ ∨ p = ⟨"b.sbl"⟩ := by
    intro p hp
    induction hp with
    | entry => exact Or.inl rfl
    | imported _ hparses hi hf ih =>
      obtain ⟨-, f', hf', hfile⟩ := himport ih hparses hi
      rw [hf, Except.ok.injEq] at hf'
      exact hf' ▸ hfile
  refine ⟨fun p hp => ?_, fun p program i hp hparses hi => (himport (hneeds p hp) hparses hi).1,
    fun p program i hp hparses hi => ?_⟩
  · obtain ⟨text, name, f, hread, -, -, hparse⟩ := import_mutualImports (hneeds p hp)
    rintro (⟨e, he⟩ | ⟨text', n, e, hread', he⟩)
    · simp [hread] at he
    · obtain rfl : text = text' := Except.ok.inj (hread.symm.trans hread')
      simp [hparse] at he
  · obtain ⟨-, f, hf, -⟩ := himport (hneeds p hp) hparses hi
    exact ⟨f, hf⟩

private theorem reports_mutualImports :
    ((new mutualImports).check ⟨"a.sbl"⟩).2.context.diagnostics.items.map
      (fun r => (r.severity, r.message)) =
        [(.criticalError, "import cycle detected: b -> a -> b")] := by
  have hkey : mutualImports.moduleKey ⟨"a.sbl"⟩ = "a" := by decide +kernel
  have hloader : (new mutualImports).loader = mutualImports := rfl
  simp only [Compilation.check, hloader, hkey]
  decide +kernel

private theorem report_ne_aliasInUse (aliasName k : String) :
    "import cycle detected: b -> a -> b" ≠ (ImportError.aliasInUse aliasName k).message := by
  intro h
  have htext := congrArg String.toList (show _ = "alias '" ++ aliasName ++
    "' is already used by import '" ++ k ++ "'. Use a different alias with 'as'" from h)
  simp only [String.toList_append] at htext
  exact absurd (congrArg List.head? htext) (by simp)

/-- The check of two files that import each other reports it, so there is a cycle. -/
theorem exists_cycle_mutualImports :
    mutualImports.Plain ⟨"a.sbl"⟩ ∧
    (∀ r ∈ ((new mutualImports).check ⟨"a.sbl"⟩).2.context.diagnostics.items, ∀ aliasName k,
      r.message ≠ (ImportError.aliasInUse aliasName k).message) ∧
    ∃ u, Relation.TransGen
      (((new mutualImports).check ⟨"a.sbl"⟩).2.context.Imports mutualImports) u u := by
  have hreports := reports_mutualImports
  have halias : ∀ r ∈ ((new mutualImports).check ⟨"a.sbl"⟩).2.context.diagnostics.items,
      ∀ aliasName k, r.message ≠ (ImportError.aliasInUse aliasName k).message := by
    intro r hr aliasName k he
    have hmem := List.mem_map_of_mem (f := fun r => (r.severity, r.message)) hr
    rw [hreports, List.mem_singleton, Prod.mk.injEq] at hmem
    exact report_ne_aliasInUse aliasName k (hmem.2.symm.trans he)
  refine ⟨plain_mutualImports, halias,
    (check_reports_cycle_iff _ _ plain_mutualImports halias).1.mp ?_⟩
  have hreport : (Severity.criticalError, "import cycle detected: b -> a -> b") ∈
      ((new mutualImports).check ⟨"a.sbl"⟩).2.context.diagnostics.items.map
        fun r => (r.severity, r.message) := by
    rw [hreports]
    exact List.mem_singleton_self _
  obtain ⟨r, hr, he⟩ := List.mem_map.mp hreport
  obtain ⟨hsev, hmessage⟩ := Prod.mk.inj he
  exact ⟨r, hr, hsev, "b -> a -> b", hmessage.trans (by decide)⟩

end Compilation

end Sable
