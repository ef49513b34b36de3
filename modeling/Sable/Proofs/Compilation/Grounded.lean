import Sable.Context.Collection
import Sable.Proofs.Context.Progress

/-!
# Grounds

Everything that collection puts into a context has its ground in the files: a module was read
from its file, an edge and a binding come from an import in the text of a module, and a report
that stops the passes names an import that leads nowhere, that closes a cycle, or that leads to
a file that is no program. Conversely every import of a collected module has left a binding,
unless something has been reported that spoils the whole run.
-/

namespace Sable

/--
A module holds an import that may stand in a scope: in its outermost scope, only an import that
no function encloses.
-/
def Module.Holds (m : Module) (s : ScopeId) (i : Import) : Prop :=
  .importing i ∈ m.program.places ∧ (s = m.root → i ∈ m.program.outerImports)

/-! ### Files -/

namespace Loader

/-- A file holds a program. -/
def Parses (l : Loader) (p : Path) (program : Program) : Prop :=
  ∃ text n, l.read p = .ok text ∧ parse text n = .ok program

/-- A file holds no program, at least when it is read as the file of some number. -/
def Fails (l : Loader) (p : Path) : Prop :=
  (∃ e, l.read p = .error e) ∨ ∃ text n e, l.read p = .ok text ∧ parse text n = .error e

/-- An import in a file leads to the file of a module with a given key. -/
def Leads (l : Loader) (file : Path) (i : Import) (key : String) : Prop :=
  ∃ f, l.locate i.path file = .ok f ∧ l.moduleKey f = key

/-- A loader that looks for the same files in the same places. -/
structure Like (l l' : Loader) : Prop where
  /-- The places are the same. -/
  options : l'.options = l.options
  /-- The files are the same. -/
  store : l'.store = l.store

namespace Like

variable {l l' : Loader}

theorem refl (l : Loader) : l.Like l := ⟨rfl, rfl⟩

theorem read_eq (h : l.Like l') (p : Path) : l'.read p = l.read p := by rw [read, h.store, read]

theorem moduleKey_eq (h : l.Like l') (p : Path) : l'.moduleKey p = l.moduleKey p := by
  rw [moduleKey, h.options, moduleKey]

theorem locate_eq (h : l.Like l') (path : String) (importer : Path) :
    l'.locate path importer = l.locate path importer := by
  simp only [locate, locateRemote, locateLocal, bases, h.options, h.store]

end Like

end Loader

namespace Context

variable (l : Loader)

/-! ### What the texts of the modules say -/

/-- A registered module holds an import that leads to a key. -/
def Imports (ctx : Context) (u v : String) : Prop :=
  ∃ m ∈ ctx.modules, m.key = u ∧ ∃ i, .importing i ∈ m.program.places ∧ l.Leads m.file i v

/-- A report keeps the passes from running, or says that an alias could not be bound. -/
def Spoils (r : Diagnostic) : Prop :=
  r.severity.isFatal = true ∨ ∃ a k, r.message = (ImportError.aliasInUse a k).message

/-- Something has been reported that keeps imports from being bound or passes from running. -/
def Spoiled (ctx : Context) : Prop := ∃ r ∈ ctx.diagnostics.items, Spoils r

/-- An import of a file has been bound in a scope, unless the run is spoiled. -/
def Collects (file : Path) (s : ScopeId) (i : Import) (ctx : Context) : Prop :=
  ctx.Spoiled ∨ ∃ key, l.Leads file i key ∧ ∃ b ∈ ctx.scopes.imports s, b.key = key

/-- The reports that stop the passes, for the reasons that there are. -/
inductive Explained (needed : Path → Prop) (ctx : Context) : Diagnostic → Prop
  /-- An import leads nowhere. -/
  | unresolved {m i e} : ctx.Knows m → .importing i ∈ m.program.places →
      l.locate i.path m.file = .error e → Explained needed ctx (Compilation.unresolvedReport m i e)
  /-- An import lies on a cycle of imports. -/
  | cyclic {m i key cycle} : Relation.TransGen (ctx.Imports l) m.key m.key →
      Explained needed ctx (Compilation.cycleReport m i key cycle)
  /-- A file is not a program. -/
  | unparsed {file e} : needed file → l.Fails file →
      Explained needed ctx (Compilation.loadReport file e)

/-- What a context holds has its ground in the files, of which only some are needed. -/
structure Grounded (needed : Path → Prop) (ctx : Context) : Prop where
  /-- A module is the program of its file. -/
  loaded : ∀ m ∈ ctx.modules,
    needed m.file ∧ m.key = l.moduleKey m.file ∧ l.Parses m.file m.program
  /-- An edge comes from an import. -/
  edges : ∀ {u v}, ctx.graph.Edge u v → ctx.Imports l u v
  /-- A binding comes from an import, which states its alias and stands where it is bound. -/
  named : ∀ m ∈ ctx.modules, ∀ {s b}, m.root ∈ ctx.scopes.chain s → b ∈ ctx.scopes.imports s →
    ∃ i, m.Holds s i ∧ i.localAlias = b.aliasName
  /-- A report that stops the passes has its reason. -/
  explained : ∀ d ∈ ctx.diagnostics.items, d.severity.isFatal = true →
    ctx.Explained l needed d
  /-- An import of a collected module has been bound. -/
  collected : ∀ m ∈ ctx.modules, Phase.collected ≤ m.phase →
    ∀ i ∈ m.program.outerImports, ctx.Collects l m.file m.root i

variable {l} {needed : Path → Prop} {ctx d : Context} {m : Module}

/-! ### What stays -/

theorem Imports.later (hl : ctx.Linked) (hd : ctx.Extends d) {u v : String}
    (h : ctx.Imports l u v) : d.Imports l u v := by
  obtain ⟨m, hm, rfl, i, hi, hleads⟩ := h
  obtain ⟨m', hm', hkey, -, hfile, hprogram⟩ :=
    (hd.modules (knows_of_module? (hl.module?_of_mem hm))).exists_mem
  exact ⟨m', hm', hkey, i, hprogram.symm ▸ hi, hfile.symm ▸ hleads⟩

theorem Spoiled.later (hd : ctx.Extends d) (h : ctx.Spoiled) : d.Spoiled :=
  h.imp fun _ hr => ⟨hd.reports.subset hr.1, hr.2⟩

theorem Collects.later (hd : ctx.Extends d) {file : Path} {s : ScopeId} {i : Import}
    (h : ctx.Collects l file s i) : d.Collects l file s i :=
  h.imp (Spoiled.later hd) fun ⟨key, hleads, b, hb, hkey⟩ => ⟨key, hleads, b, hd.imports hb, hkey⟩

theorem Explained.later (hl : ctx.Linked) (hd : ctx.Extends d) {r : Diagnostic}
    (h : ctx.Explained l needed r) : d.Explained l needed r := by
  cases h with
  | unresolved hm hi he => exact .unresolved (hd.modules hm) hi he
  | cyclic h => exact .cyclic (Relation.TransGen.mono (fun _ _ => Imports.later hl hd) _ _ h)
  | unparsed hneeded hfails => exact .unparsed hneeded hfails

/-- The file of a module settles the key of the module. -/
theorem Grounded.key_eq (h : ctx.Grounded l needed) {m' : Module} (hm : m ∈ ctx.modules)
    (hm' : m' ∈ ctx.modules) (hfile : m.file.text = m'.file.text) : m.key = m'.key := by
  rw [(h.loaded m hm).2.1, (h.loaded m' hm').2.1]
  exact congrArg (fun text => l.moduleKey ⟨text⟩) hfile

/-! ### What each change keeps -/

namespace Grounded

/-- A report may be added, with its reason if it stops the passes. -/
theorem report (h : ctx.Grounded l needed) (hl : ctx.Linked) {r : Diagnostic}
    (hr : r.severity.isFatal = true → ctx.Explained l needed r) :
    (ctx.report r).Grounded l needed where
  loaded := h.loaded
  edges := h.edges
  named := h.named
  explained e he hfatal := by
    refine Explained.later hl (extends_report ctx r) ?_
    rcases List.mem_append.mp he with he | he
    · exact h.explained e he hfatal
    · obtain rfl := List.mem_singleton.mp he
      exact hr hfatal
  collected m hm hp i hi := (h.collected m hm hp i hi).later (extends_report ctx r)

/-- A pass may do its work. A module that it leads to collection needs its imports bound. -/
theorem passes (h : ctx.Grounded l needed) (hl : ctx.Linked) {target : Phase}
    (hd : ctx.Passes target d)
    (hnew : ∀ m ∈ ctx.modules, ¬ Phase.collected ≤ m.phase → Phase.collected ≤ d.phase m.key →
      ∀ i ∈ m.program.outerImports, ctx.Collects l m.file m.root i) :
    d.Grounded l needed := by
  have hext := hd.toExtends hl
  constructor
  · intro m hm
    obtain ⟨m', hm', p, -, rfl⟩ := hd.exists_mem hl hm
    exact h.loaded m' hm'
  · intro u v he
    rw [hd.graph] at he
    exact (h.edges he).later hl hext
  · intro m hm s b hs hb
    obtain ⟨m', hm', p, -, rfl⟩ := hd.exists_mem hl hm
    rw [hd.scopes.imports] at hb
    rw [hd.scopes.chain_eq hl.scopes (ScopeForest.lt_size_of_mem_imports hb)] at hs
    exact h.named m' hm' hs hb
  · intro r hr hfatal
    obtain ⟨es, hes, hsev⟩ := hd.reports
    rw [hes, List.mem_append] at hr
    rcases hr with hr | hr
    · exact (h.explained r hr hfatal).later hl hext
    · simp [hsev r hr, Severity.isFatal] at hfatal
  · intro m hm hp i hi
    have hphase := phase_of_module? ((hd.linked hl).module?_of_mem hm)
    obtain ⟨m', hm', p, -, rfl⟩ := hd.exists_mem hl hm
    refine Collects.later hext ?_
    by_cases hold : Phase.collected ≤ m'.phase
    · exact h.collected m' hm' hold i hi
    · exact hnew m' hm' hold (hphase.symm ▸ hp) i hi

/-- Names may be declared. -/
theorem fills (h : ctx.Grounded l needed) (hl : ctx.Linked) (hd : ctx.Fills d) :
    d.Grounded l needed :=
  h.passes hl (hd.passes : ctx.Passes .collected d) fun m hm hold hnew => by
    rw [phase_congr hd.modules, phase_of_module? (hl.module?_of_mem hm)] at hnew
    exact absurd hnew hold

/-- A module may be registered with its program. -/
theorem addModule (h : ctx.Grounded l needed) (hl : ctx.Linked) {key : String} {file : Path}
    {program : Program} (hfree : ctx.hasModule key = false) (hneeded : needed file)
    (hkey : key = l.moduleKey file) (hparses : l.Parses file program) :
    (ctx.addModule key file program).2.Grounded l needed := by
  have hext : ctx.Extends (ctx.addModule key file program).2 := extends_addModule hl hfree
  have hF := ScopeForest.grows_openScope ctx.scopes hl.scopes.base .global
  have himports : ∀ s, (ctx.addModule key file program).2.scopes.imports s =
      ctx.scopes.imports s := by
    rw [addModule_eq hfree]
    exact hF.imports
  have hchain : ∀ {s : Nat}, s < ctx.scopes.size →
      (ctx.addModule key file program).2.scopes.chain s = ctx.scopes.chain s := by
    rw [addModule_eq hfree]
    exact hF.chain_eq hl.scopes
  have hmodules := modules_addModule file program hfree
  constructor
  · rw [hmodules]
    exact List.forall_mem_append.mpr
      ⟨h.loaded, List.forall_mem_singleton.mpr ⟨hneeded, hkey, hparses⟩⟩
  · intro u v he
    rw [addModule_eq hfree] at he
    exact (h.edges he).later hl hext
  · intro m hm s b hs hb
    rw [himports] at hb
    rw [hchain (ScopeForest.lt_size_of_mem_imports hb)] at hs
    rw [hmodules] at hm
    rcases List.mem_append.mp hm with hm | hm
    · exact h.named m hm hs hb
    · -- The new root lies on the chain of no scope that was there before.
      obtain rfl := List.mem_singleton.mp hm
      exact absurd (ScopeForest.mem_chain_lt_size hl.scopes hs) (lt_irrefl _)
  · intro r hr hfatal
    rw [addModule_eq hfree] at hr
    exact (h.explained r hr hfatal).later hl hext
  · rw [hmodules]
    refine List.forall_mem_append.mpr ⟨fun m hm hp i hi => ?_, List.forall_mem_singleton.mpr ?_⟩
    · exact (h.collected m hm hp i hi).later hext
    · exact fun hp => absurd hp (show ¬ Phase.collected ≤ Phase.parsed by decide)

/-- The graph may be exchanged for one with the same edges. -/
theorem regraph (h : ctx.Grounded l needed) (hl : ctx.Linked) {g : ImportGraph}
    (he : ∀ u v, g.Edge u v ↔ ctx.graph.Edge u v) :
    ({ ctx with graph := g } : Context).Grounded l needed :=
  ⟨h.loaded, fun hedge => h.edges ((he _ _).mp hedge), h.named,
    fun r hr hfatal => (h.explained r hr hfatal).later hl (extends_regraph he), h.collected⟩

/-- A module may be imported where its text says so. -/
theorem link (h : ctx.Grounded l needed) (hl : ctx.Linked) {target : Module}
    (hm : m ∈ ctx.modules) (htarget : target ∈ ctx.modules) {g : ImportGraph}
    (hg : ctx.graph.insert m.key target.key = .ok g) {s : ScopeId}
    (hs : m.root ∈ ctx.scopes.chain s) {i : Import} (hi : m.Holds s i)
    (hleads : l.Leads m.file i target.key) {F : ScopeForest}
    (hF : ctx.scopes.Binds s ⟨i.localAlias, target.key, target.root⟩ F) :
    ({ ctx with graph := g, scopes := F } : Context).Grounded l needed := by
  have hext := extends_link hl hg hF
  constructor
  · exact h.loaded
  · intro u v he
    rcases (ImportGraph.edge_of_insert hg u v).mp he with he | ⟨rfl, rfl⟩
    · exact h.edges he
    · rw [hl.normal m hm, hl.normal target htarget]
      exact ⟨m, hm, rfl, i, hi.1, hleads⟩
  · intro m' hm' t b ht hb
    have ht : m'.root ∈ ctx.scopes.chain t := hF.chain_eq hl.scopes t ▸ ht
    rcases hF.mem_imports_cases hb with hb | ⟨rfl, rfl⟩
    · exact h.named m' hm' ht hb
    · obtain rfl := hl.eq_of_mem_chain hm' hm ht hs
      exact ⟨i, hi, rfl⟩
  · exact fun r hr hfatal => (h.explained r hr hfatal).later hl hext
  · exact fun m' hm' hp i hi => (h.collected m' hm' hp i hi).later hext

end Grounded

end Context

end Sable
