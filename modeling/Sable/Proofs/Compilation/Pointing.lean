import Sable.Proofs.Compilation.Declared
import Sable.Proofs.Context.Pointing
import Sable.Proofs.Syntax.OneFile

/-!
# Reports and the files they name

A loader numbers files as it reads them. The spans of a module are those of its file, and every
report points into the file that it names, whichever pass has made it and however far the file has
come. The one report that names a file without pointing into it is that of a file that cannot be
read; a file that an import has been found to stand for can be read from a store in memory.
-/

namespace Sable

/-! ### Stores in memory -/

namespace Loader

variable {l l' : Loader} {files : List (Path × String)} {path : String} {importer file : Path}

/-- What is held in memory can be read. -/
theorem exists_read_of_locate (hstore : l.store = .memory files)
    (h : l.locate path importer = .ok file) : ∃ text, l.read file = .ok text := by
  have hfile := (locate_eq_ok h).1
  rw [hstore, SourceFiles.isFile] at hfile
  obtain ⟨text, htext⟩ := Option.isSome_iff_exists.mp hfile
  exact ⟨text, by rw [read, hstore, SourceFiles.read, htext]⟩

/-- A file that is read takes the next number. -/
theorem files_load {text : String} (h : l.read file = .ok text) :
    (l.load file).2.files = l.files ++ [file] := by
  rw [load, h]

/-- A file goes on to have its number. -/
theorem file?_append {n : Nat} {p q : Path} (h : l.file? n = some p)
    (hfiles : l'.files = l.files ++ [q]) : l'.file? n = some p := by
  obtain ⟨hlt, -⟩ := List.getElem?_eq_some_iff.mp h
  rw [file?, hfiles, List.getElem?_append_left hlt]
  exact h

end Loader

/-! ### Contexts whose reports point into files -/

/-- The spans in a module are those of its file, which no other module has been read from. -/
structure Context.Filed (l : Loader) (ctx : Context) : Prop where
  /-- A report points into the file that it names. -/
  reports : ∀ d ∈ ctx.diagnostics.items, ∃ p, l.file? d.span.file = some p ∧ p.text = d.file
  /-- The spans in a module point into its file. -/
  modules : ∀ m ∈ ctx.modules, l.file? m.program.span.file = some m.file ∧
    OneFile m.program.span.file m.program.sites
  /-- Two modules do not share a file number. -/
  distinct : (ctx.modules.map fun m => m.program.span.file).Nodup

namespace Context.Filed

variable {l l' : Loader} {ctx d : Context} {m : Module} {xs : List Site} {file : Path}

/-- Nothing but scopes, graph and entry may change. -/
theorem congr (h : ctx.Filed l) (hreports : d.diagnostics = ctx.diagnostics)
    (hmodules : d.modules = ctx.modules) : d.Filed l :=
  ⟨hreports ▸ h.reports, hmodules ▸ h.modules, hmodules ▸ h.distinct⟩

theorem report (h : ctx.Filed l) {x : Diagnostic} (hx : ∃ p, l.file? x.span.file = some p ∧
    p.text = x.file) : (ctx.report x).Filed l where
  reports y hy := by
    rcases List.mem_append.mp hy with hy | hy
    · exact h.reports y hy
    · exact List.mem_singleton.mp hy ▸ hx
  modules := h.modules
  distinct := h.distinct

/-- A span in a known module points into the file of the module. -/
theorem file_of_mem (h : ctx.Filed l) (hm : ctx.Knows m) {x : Span} (hx : x ∈ m.program.spans) :
    l.file? x.file = some m.file := by
  obtain ⟨p, -, hm⟩ := hm
  obtain ⟨hfile, hin⟩ := h.modules _ (mem_of_module? hm).1
  rw [hin.file_of_mem hx]
  exact hfile

/-- A report in the file of a known module may point to any span in the module. -/
theorem report_of_knows (h : ctx.Filed l) (hm : ctx.Knows m) {x : Diagnostic}
    (hfile : x.file = m.file.text) (hspan : x.span ∈ m.program.spans) : (ctx.report x).Filed l :=
  h.report ⟨m.file, h.file_of_mem hm hspan, hfile.symm⟩

/-- What a visit of a known module reports may point to any span in the module. -/
theorem points (h : ctx.Filed l) (hm : ctx.Knows m) (hd : ctx.Points m xs d)
    (hsub : xs ⊆ m.program.sites) (hmodules : d.modules = ctx.modules) : d.Filed l where
  reports x hx := by
    rcases hd.reports x hx with hold | ⟨hfile, hspan⟩
    · exact h.reports x hold
    · exact ⟨m.file, h.file_of_mem hm (List.map_subset _ hsub hspan), hfile.symm⟩
  modules := hmodules ▸ h.modules
  distinct := hmodules ▸ h.distinct

/-- A change of phase leaves files and spans as they are. -/
theorem setPhase (h : ctx.Filed l) (key : String) (target : Phase) :
    (ctx.setPhase key target).Filed l := by
  unfold Context.setPhase
  split
  · refine ⟨h.reports, fun m hm => ?_, ?_⟩
    · obtain ⟨m', hm', rfl⟩ := List.mem_map.mp hm
      split <;> exact h.modules m' hm'
    · rw [List.map_map]
      convert h.distinct using 2
      funext m
      simp only [Function.comp]
      split <;> rfl
  · exact h

/-- One more file may be read. -/
theorem grow (h : ctx.Filed l) (hfiles : l'.files = l.files ++ [file]) : ctx.Filed l' where
  reports x hx := by
    obtain ⟨p, hp, hname⟩ := h.reports x hx
    exact ⟨p, Loader.file?_append hp hfiles, hname⟩
  modules m hm := (h.modules m hm).imp_left fun hp => Loader.file?_append hp hfiles
  distinct := h.distinct

/-- The program of a file that has just been read may be registered. -/
theorem addModule (h : ctx.Filed l) {text key : String} {program : Program}
    (hparse : parse text l.files.length = .ok program) (hfiles : l'.files = l.files ++ [file]) :
    (ctx.addModule key file program).2.Filed l' := by
  have hgrow := h.grow hfiles
  cases hfree : ctx.hasModule key with
  | true =>
    rw [Context.addModule, if_pos hfree]
    exact hgrow
  | false =>
    have hin := oneFile_of_parse hparse
    have hspan : program.span.file = l.files.length := hin _ (List.mem_cons_self ..)
    rw [addModule_eq hfree]
    refine ⟨hgrow.reports, ?_, ?_⟩
    · intro m hm
      rcases List.mem_append.mp hm with hm | hm
      · exact hgrow.modules m hm
      · obtain rfl := List.mem_singleton.mp hm
        refine ⟨?_, hspan.symm ▸ hin⟩
        rw [hspan, Loader.file?, hfiles, List.getElem?_concat_length]
    · rw [List.map_append]
      refine List.nodup_append.mpr ⟨h.distinct, List.nodup_singleton _, fun n hn k hk => ?_⟩
      obtain ⟨m, hm, rfl⟩ := List.mem_map.mp hn
      obtain rfl := List.mem_singleton.mp hk
      obtain ⟨hlt, -⟩ := List.getElem?_eq_some_iff.mp (h.modules m hm).1
      exact (hlt.trans_eq hspan.symm).ne

end Context.Filed

/-! ### The passes behind the first one -/

namespace Context

variable {l : Loader} {target p : Phase} {pass : Pass} {activity : String} {ctx : Context}
  {key : String} {v : Module → Visitor Context}

/-- A pass that reports at what it sees keeps every report in the file that it names. -/
theorem filed_of_history {c₀ : Context} {W : List Entry} (hv : ∀ m, Filling (v m))
    (hi : ∀ m, (v m).importing = nextModule target) (ht : target.previous? = some p)
    (hp : Phase.parsed ≤ p)
    (hstop : ∀ m s x c, Points m (Stop.sites x) c ((v m).stop s x c))
    (hhead : ∀ m s hd c, Points m (Head.sites hd) c ((v m).head s hd c).2) (h : c₀.Filed l)
    (hW : (traversal target pass activity v).History (passing target p c₀) c₀ W ctx) :
    ctx.Filed l := by
  induction hW with
  | start => exact h
  | enter _ hready ih =>
    obtain ⟨hsame, -⟩ := hready.1.enter_cases ht hp rfl
    exact hsame.symm ▸ ih
  | @importing W c _ m s i _ _ _ _ ih =>
    have hsame : ((v m).importing s i c).2 = c := by rw [hi]; rfl
    exact hsame.symm ▸ ih
  | @stop W c _ m s x _ hs hocc ih =>
    exact ih.points hs.2.2.1 (hstop m s x c) hocc.sites_subset ((hv m).stop s x c).modules
  | @head W c _ m s hd _ _ hs hocc ih =>
    exact ih.points hs.2.2.1 (hhead m s hd c) hocc.sites_subset ((hv m).head s hd c).2.modules
  | close _ _ ih => exact ih.setPhase _ _

theorem Filed.resolve (h : ctx.Filed l) (hl : ctx.Linked) (hle : Phase.collected ≤ ctx.phase key) :
    (Context.resolve key ctx).Filed l := by
  obtain ⟨W, hW, -⟩ := exists_history filling_resolver (fun _ => rfl) rfl (by decide) hl hle
  exact filed_of_history filling_resolver (fun _ => rfl) rfl (by decide)
    (fun _ _ x _ => points_stop_resolver x) (fun _ _ hd _ => points_head_resolver hd) h hW

theorem Filed.check (h : ctx.Filed l) (hl : ctx.Linked) (hle : Phase.resolved ≤ ctx.phase key) :
    (Context.check key ctx).Filed l := by
  obtain ⟨W, hW, -⟩ := exists_history filling_checker (fun _ => rfl) rfl (by decide) hl hle
  exact filed_of_history filling_checker (fun _ => rfl) rfl (by decide)
    (fun _ _ x _ => points_stop_checker x) (fun _ _ hd _ => points_head_checker hd) h hW

end Context

/-! ### Collection -/

namespace Compilation

open Context

variable {l : Loader} {needed : Path → Prop} {roots : String → Prop} {c d : Compilation}
  {m : Module} {s : ScopeId} {key : String} {file : Path} {xs : List Site}

theorem points_declare {kind : SymbolKind} {name : Ident} (h : .name name ∈ xs) :
    c.context.Points m xs (c.declare m s kind name).2.context := by
  unfold declare
  split
  · exact points_name h
  · split
    · exact points_of_eq rfl
    · exact points_name h

theorem points_declareAll {kind : SymbolKind} {names : List Ident}
    (h : ∀ name ∈ names, .name name ∈ xs) :
    c.context.Points m xs (declareAll m s kind names c).context := by
  induction names generalizing c with
  | nil => exact .refl m xs _
  | cons name names ih =>
    rw [List.forall_mem_cons] at h
    exact (points_declare h.1).trans (ih h.2)

/-- A name that is refused is reported, with those of the names inside it that are. -/
theorem points_declareWith {x : Declaration} {kind : SymbolKind} {names : List Ident}
    (hx : .name x.name ∈ xs) (hnames : ∀ name ∈ names, .name name ∈ xs) :
    c.context.Points m xs (declareWith m x kind names c).2.context := by
  have h : c.context.Points m xs (c.declare m x.scope x.kind x.name).2.context := points_declare hx
  unfold declareWith
  generalize c.declare m x.scope x.kind x.name = r at h ⊢
  obtain ⟨_ | members, e⟩ := r
  · exact h
  · exact h.trans (points_declareAll hnames)

/-- A receiver is reported at its type. -/
theorem span_mem_of_receiverMembers {F : ScopeForest} {receiver : Param} {e : Span × String}
    (h : receiverMembers F s receiver = .error e) : e.1 ∈ receiver.ty.spans := by
  unfold receiverMembers at h
  split at h
  · next name hty =>
    have hname : e.1 = name.span := by grind
    rw [hty, hname]
    exact List.mem_singleton_self _
  · rw [← Except.error.inj h]
    exact receiver.ty.span_mem_spans

theorem points_head_collector (hd : Head) :
    c.context.Points m hd.sites ((collector m).head s hd c).2.context := by
  have hname := hd.name_mem_sites
  have harguments : ∀ name ∈ hd.argumentNames, .name name ∈ hd.sites :=
    fun _ => Head.name_mem_sites_of_argument
  obtain ⟨_ | receiver, name, params, ret⟩ := hd
  · exact points_declareWith (x := ⟨s, .func, name⟩) hname harguments
  · have hty : receiver.ty.sites ⊆ (⟨some receiver, name, params, ret⟩ : Head).sites :=
      fun x hx => by simp [Head.sites, Param.sites, hx]
    simp only [Visitor.head, collector]
    cases hr : receiverMembers c.context.scopes s receiver with
    | error e =>
      rw [collectMethod_error hr]
      exact points_reportIn (List.map_subset _ hty (span_mem_of_receiverMembers hr))
    | ok members =>
      rw [collectMethod_eq hr]
      exact points_declareWith hname harguments

theorem points_stop_collector (x : Stop) :
    c.context.Points m x.sites ((collector m).stop s x c).context := by
  cases x with
  | typeDecl d =>
    rw [show (collector m).stop s (.typeDecl d) c = _ from collectTypeDecl_eq m s d c]
    exact points_declareWith (by simp [Stop.sites, TypeDecl.sites])
      fun _ => TypeDecl.name_mem_sites_of_field
  | declaring isConst targets values span =>
    refine points_declareAll fun name hname => ?_
    obtain ⟨target, htarget, rfl⟩ := List.mem_map.mp hname
    have hsite : .name target.name ∈ targets.flatMap VarBinder.sites :=
      List.mem_flatMap.mpr ⟨target, htarget, by simp [VarBinder.sites]⟩
    simp only [Stop.sites, List.mem_append, List.mem_cons, hsite, true_or, or_true]
  | _ => exact .refl m _ _

/-- An error in a file points into it, once the file has been read. -/
private def Blames (l l' : Loader) (file : Path) : Except LoadError Unit → Prop
  | .ok _ => True
  | .error (.read e) => l.read file = .error e
  | .error (.grammar e) => l'.file? e.span.file = some file

/-- Registering a file reads it, and an error in it points into it. -/
private theorem filed_register (h : c.context.Filed c.loader) {r : Except LoadError Unit}
    (hreg : c.register key file = (r, d)) :
    d.context.Filed d.loader ∧ Blames c.loader d.loader file r := by
  unfold register at hreg
  split at hreg
  · obtain ⟨rfl, rfl⟩ := Prod.mk.inj hreg
    exact ⟨h, trivial⟩
  · cases hread : c.loader.read file with
    | error e =>
      have hload : c.loader.load file = (.error (.read e), c.loader) := by rw [Loader.load, hread]
      rw [hload] at hreg
      obtain ⟨rfl, rfl⟩ := Prod.mk.inj hreg
      exact ⟨h, hread⟩
    | ok text =>
      have hfiles := Loader.files_load hread
      cases hparse : parse text c.loader.files.length with
      | error g =>
        have hload : (c.loader.load file).1 = .error (.grammar g) := by
          simp [Loader.load, hread, hparse, Except.mapError]
        rcases hres : c.loader.load file with ⟨r', l'⟩
        rw [hres] at hload hfiles hreg
        subst hload
        obtain ⟨rfl, rfl⟩ := Prod.mk.inj hreg
        refine ⟨h.grow hfiles, ?_⟩
        rw [Blames, file_of_parse_error hparse, Loader.file?, hfiles, List.getElem?_concat_length]
      | ok program =>
        have hload : (c.loader.load file).1 = .ok program := by
          simp [Loader.load, hread, hparse, Except.mapError]
        rcases hres : c.loader.load file with ⟨r', l'⟩
        rw [hres] at hload hfiles hreg
        subst hload
        obtain ⟨rfl, rfl⟩ := Prod.mk.inj hreg
        exact ⟨h.addModule hparse hfiles, trivial⟩

theorem knows_register (h : c.context.Knows m) (key : String) (file : Path) :
    (c.register key file).2.context.Knows m := by
  unfold register
  split
  · exact h
  · next hfree =>
    rcases c.loader.load file with ⟨e | program, l'⟩
    · exact h
    · obtain ⟨p, hle, hm⟩ := h
      refine ⟨p, hle, ?_⟩
      dsimp only
      rw [module?_addModule (Bool.eq_false_iff.mpr hfree), hm, Option.some_or]

/-- An import is reported where it stands, and a file that is no program where its error is. -/
theorem filed_collectImport (h : c.context.Filed c.loader) (hm : c.context.Knows m)
    {files : List (Path × String)} (hstore : c.loader.store = .memory files) {i : Import}
    (hi : i.span ∈ m.program.spans) :
    (collectImport m s i c).2.context.Filed (collectImport m s i c).2.loader := by
  unfold collectImport
  split
  · exact h.report_of_knows hm rfl hi
  · next file hlocate =>
    obtain ⟨text, hread⟩ := Loader.exists_read_of_locate hstore hlocate
    dsimp only
    split
    · exact h.report_of_knows hm rfl hi
    · next g _ =>
      have hfiled : (c.update fun ctx => { ctx with graph := g }).context.Filed c.loader :=
        h.congr rfl rfl
      have hknows := knows_register
        (c := c.update fun ctx => { ctx with graph := g }) hm (c.loader.moduleKey file) file
      unfold bindImport
      rcases hreg : (c.update fun ctx => { ctx with graph := g }).register
        (c.loader.moduleKey file) file with ⟨e | u, d⟩
      · -- The file has been read, so its error points into it.
        obtain ⟨hd, herror⟩ := filed_register hfiled hreg
        rw [hreg] at hknows
        cases e with
        | read e => exact absurd (hread.symm.trans herror) nofun
        | grammar e =>
          dsimp only
          rw [forgetEdge_eq]
          have hloaded := hd.report (x := loadReport file (.grammar e)) ⟨file, herror, rfl⟩
          exact (hloaded.report_of_knows hknows rfl hi).congr rfl rfl
      · obtain ⟨hd, -⟩ := filed_register hfiled hreg
        rw [hreg] at hknows
        dsimp only
        split
        · rw [forgetEdge_eq]
          exact hd.congr rfl rfl
        · split
          · rw [forgetEdge_eq]
            exact (hd.report_of_knows hknows rfl hi).congr rfl rfl
          · exact hd.congr rfl rfl

/-- Collection keeps every report in the file that it names. -/
theorem filed_of_history {c₀ : Compilation} {W : List Entry} {files : List (Path × String)}
    (hstore : l.store = .memory files) (h : c₀.context.Filed c₀.loader)
    (hW : collection.History (collecting l needed roots) c₀ W c) :
    c.context.Filed c.loader := by
  induction hW with
  | start => exact h
  | enter _ hready ih =>
    rw [enter_eq hready]
    exact ih
  | @importing W c _ m s i _ hs _ hocc ih =>
    rw [importing_collection]
    exact filed_collectImport ih hs.2.2.1 (hs.1.like.store.trans hstore)
      (List.map_subset _ hocc.sites_subset (List.mem_cons_self ..))
  | @stop W c _ m s x _ hs hocc ih =>
    have hfills := fills_stop hs x
    rw [show collection.visitor m = collector m from rfl, hfills.loader]
    exact ih.points hs.2.2.1 (points_stop_collector x) hocc.sites_subset hfills.context.modules
  | @head W c _ m s hd _ _ hs hocc ih =>
    have hfills := (opens_head hs hocc).1
    rw [show collection.visitor m = collector m from rfl, hfills.loader]
    exact ih.points hs.2.2.1 (points_head_collector hd) hocc.sites_subset hfills.context.modules
  | close _ _ ih => exact ih.setPhase _ _

/-! ### Checks -/

/-- The passes keep every report in the file that it names. -/
theorem filed_runPasses (hclosed : l.Closed needed) {files : List (Path × String)}
    (hstore : l.store = .memory files) (h : c.context.Filed c.loader)
    (hready : (collecting l needed roots).Ready [] key c) :
    (c.runPasses key).context.Filed (c.runPasses key).loader := by
  obtain ⟨hc, -, hkey⟩ := collect_spec hclosed hready
  obtain ⟨W, hW, -⟩ := exists_history_collect hclosed hready
  have hcollected := filed_of_history hstore h hW
  have hl := hc.walking.linked
  unfold runPasses
  generalize c.collect key = d at *
  cases hfatal : d.context.diagnostics.hasFatal with
  | true => simpa [andThen, hfatal] using hcollected
  | false =>
    obtain ⟨hr, hrkey⟩ := resolve_spec hl hkey
    have hresolved := hcollected.resolve hl hkey
    have hfatal' := hr.since.hasFatal_eq.trans hfatal
    simpa [andThen, hfatal, hfatal', update] using hresolved.check hr.walking.linked hrkey

/-- A check keeps every report in the file that it names. -/
theorem filed_check {entry : Path} (hclosed : l.Closed needed) {files : List (Path × String)}
    (hstore : l.store = .memory files) (hsettled : Settled l needed roots c)
    (hneeded : needed entry) (hroot : roots (l.moduleKey entry))
    (h : c.context.Filed c.loader) : (c.check entry).2.context.Filed (c.check entry).2.loader := by
  have hs := hsettled.enter (some (l.moduleKey entry))
  have henter : (c.update fun ctx => { ctx with entry? := some (l.moduleKey entry) }).context.Filed
      c.loader := h.congr rfl rfl
  unfold Compilation.check
  dsimp only
  rw [hsettled.like.moduleKey_eq]
  rcases hreg : (c.update fun ctx => { ctx with entry? := some (l.moduleKey entry) }).register
    (l.moduleKey entry) entry with ⟨e | u, d⟩
  · obtain ⟨hd, herror⟩ := filed_register henter hreg
    cases e with
    | read e => exact hd
    | grammar e =>
      exact hd.report ⟨entry, herror, rfl⟩
  · obtain ⟨hd, -⟩ := filed_register henter hreg
    obtain ⟨hlike, hregisters⟩ := register_ok hs.linked hs.grounded hs.like hneeded rfl hreg
    exact filed_runPasses hclosed hstore hd
      (ready_of_registers hs.accounted hs.inStep hroot hlike hregisters)

/--
In a store in memory, every report of any checks points into the file that it names: the file has
the number in the span of the report, and is displayed under the name in the report. The spans in a
registered module all have the number of its file, and no other module has this number.
-/
theorem checkAll_filed (options : LookupOptions) (files : List (Path × String))
    (entries : List Path) :
    let c := checkAll entries (new (.new options (.memory files)))
    (∀ d ∈ c.context.diagnostics.items,
      ∃ p, c.loader.file? d.span.file = some p ∧ p.text = d.file) ∧
    (∀ m ∈ c.context.modules, ∃ n, c.loader.file? n = some m.file ∧
      (∀ x ∈ m.program.spans, x.file = n) ∧
        ∀ m' ∈ c.context.modules, m' ≠ m → ∀ x ∈ m'.program.spans, x.file ≠ n) := by
  have hclosed : (Loader.new options (.memory files)).Closed fun _ => True :=
    fun _ _ _ _ => trivial
  have hnew := settled_new (.new options (.memory files)) (fun _ => True) fun _ => True
  have hfiled : ∀ {c : Compilation},
      Settled (.new options (.memory files)) (fun _ => True) (fun _ => True) c →
      c.context.Filed c.loader →
      (checkAll entries c).context.Filed (checkAll entries c).loader := by
    induction entries with
    | nil => exact fun _ h => h
    | cons entry entries ih =>
      exact fun hsettled h => ih (hsettled.check hclosed trivial trivial)
        (filed_check hclosed rfl hsettled trivial trivial h)
  obtain ⟨hreports, hmodules, hdistinct⟩ := hfiled hnew
    ⟨fun _ h => absurd h List.not_mem_nil, fun _ h => absurd h List.not_mem_nil, List.nodup_nil⟩
  refine ⟨hreports, fun m hm => ⟨m.program.span.file, (hmodules m hm).1,
    fun x hx => (hmodules m hm).2.file_of_mem hx, fun m' hm' hne x hx heq => ?_⟩⟩
  rw [(hmodules m' hm').2.file_of_mem hx] at heq
  exact hne (List.inj_on_of_nodup_map hdistinct hm' hm heq)

end Compilation

end Sable
