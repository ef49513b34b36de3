import Sable.Proofs.Compilation.Binding
import Sable.Proofs.Context.Recasting
import Sable.Proofs.Compilation.Checking

/-!
# Collection without a declaration

Collection declares the same names in the same scopes where nothing but a declaration has been struck
out, as long as it does not come to that declaration. An import registers a module with its whole
program; so the modules that a step registers are left out when its state is compared, and are changed
behind the step.
-/

namespace Sable.Compilation

/-- A compilation with changed programs, and without reports that a declaration is refused. -/
def recast (x : Ident) (g : String → Program → Program) (c : Compilation) : Compilation :=
  c.update (Context.recast x g)

/-- A compilation whose programs do not hold a declaration, and in which it is not refused. -/
abbrev without (x : Ident) (c : Compilation) : Compilation := c.recast x fun _ => Program.without x

variable {x : Ident} {g : String → Program → Program} {c d : Compilation} (m : Module)

@[simp] theorem scopes_recast : (c.recast x g).context.scopes = c.context.scopes := rfl

/-! ### Reports -/

/-- What is wrong with a name that is missing is not that it is declared twice. -/
theorem message_ne_of_missing (kind : SymbolKind) (y : DuplicateSymbol) :
    kind.text ++ " declaration is missing a name" ≠ y.message := by
  refine fun heq => absurd (congrArg (fun text => text.toList.take 2) heq) ?_
  cases kind <;> simp [SymbolKind.text, DuplicateSymbol.message]

/-- What is wrong with a module that cannot be parsed is not that a name is declared twice. -/
private theorem message_ne_of_failed (path : String) (y : DuplicateSymbol) :
    "failed to parse imported module '" ++ path ++ "'" ≠ y.message := by
  refine fun heq => absurd (congrArg (fun text => text.toList.head?) heq) ?_
  simp [DuplicateSymbol.message]

/-- A declaration is refused by the reports that name it. -/
theorem refuses_duplicateReport {name : Ident} :
    (duplicateReport m name).refuses x = true ↔ name = x := by
  rw [Diagnostic.refuses, decide_eq_true_iff]
  exact duplicateReport_inj (m := m)

/-- What keeps the next pass from being started is reported either way. -/
theorem report_recast {e : Diagnostic} (he : e.severity.isFatal = true) :
    ((c.recast x g).update fun ctx => ctx.report e) = (c.update fun ctx => ctx.report e).recast x g :=
  congrArg (Compilation.mk · c.loader) (Context.report_recast_of_isFatal he)

/-- So is what is not wrong because of a declaration. -/
theorem reportIn_recast (span : Span) {message : String}
    (hmessage : ∀ y : DuplicateSymbol, message ≠ y.message) :
    (c.recast x g).reportIn (m.without x) span message = (c.reportIn m span message).recast x g :=
  congrArg (Compilation.mk · c.loader) (Context.report_recast
    (decide_eq_false fun he => hmessage _ (congrArg Diagnostic.message he)))

/-! ### Declarations -/

/-- Another name is declared or refused. -/
theorem declare_recast (s : ScopeId) (kind : SymbolKind) {name : Ident} (hname : name ≠ x) :
    (c.recast x g).declare (m.without x) s kind name =
      ((c.declare m s kind name).1, (c.declare m s kind name).2.recast x g) := by
  rw [declare, declare, scopes_recast]
  split
  · rw [reportIn_recast m name.span (message_ne_of_missing kind)]
  · cases hdeclare : c.context.scopes.declare s name kind none with
    | ok r => rfl
    | error e =>
      obtain ⟨-, rfl⟩ := ScopeForest.of_declare_error hdeclare
      have hother : (duplicateReport m name).refuses x = false :=
        Bool.eq_false_iff.mpr fun h => hname ((refuses_duplicateReport m).mp h)
      exact congrArg (none, Compilation.mk · c.loader) (Context.report_recast hother)

theorem declareAll_recast (s : ScopeId) (kind : SymbolKind) {names : List Ident} (hnames : x ∉ names) :
    (c.recast x g).declareAll (m.without x) s kind names = (c.declareAll m s kind names).recast x g := by
  unfold declareAll
  induction names generalizing c with
  | nil => rfl
  | cons name names ih =>
    rw [List.mem_cons, not_or] at hnames
    rw [List.foldl_cons, List.foldl_cons, declare_recast m s kind (Ne.symm hnames.1), ih hnames.2]

/-- Another name is declared with names inside it, or refused with them. -/
theorem declareWith_recast {y : Declaration} (kind : SymbolKind) {names : List Ident}
    (hname : y.name ≠ x) (hnames : x ∉ names) :
    declareWith (m.without x) y kind names (c.recast x g) =
      ((declareWith m y kind names c).1, (declareWith m y kind names c).2.recast x g) := by
  rw [declareWith, declareWith, declare_recast m y.scope y.kind hname]
  generalize c.declare m y.scope y.kind y.name = r
  obtain ⟨_ | members, d⟩ := r
  · rfl
  · exact congrArg (some members, ·) (declareAll_recast m members kind hnames)

theorem collectTypeDecl_recast (s : ScopeId) {D : TypeDecl} (hname : D.name ≠ x)
    (hfields : x ∉ D.fieldNames) :
    collectTypeDecl (m.without x) s D (c.recast x g) = (collectTypeDecl m s D c).recast x g := by
  rw [collectTypeDecl_eq, collectTypeDecl_eq]
  exact congrArg Prod.snd (declareWith_recast m .field hname hfields)

theorem collectFunction_recast (s : ScopeId) {name : Ident} {params : List Param} (hname : name ≠ x)
    (hparams : x ∉ params.map Param.name) :
    collectFunction (m.without x) s name params (c.recast x g) =
      ((collectFunction m s name params c).1, (collectFunction m s name params c).2.recast x g) :=
  declareWith_recast (y := ⟨s, .func, name⟩) m .var hname hparams

theorem collectMethod_recast (s : ScopeId) {receiver : Param} {name : Ident} {params : List Param}
    (hname : name ≠ x) (hparams : x ∉ (receiver :: params).map Param.name) :
    collectMethod (m.without x) s receiver name params (c.recast x g) =
      ((collectMethod m s receiver name params c).1,
        (collectMethod m s receiver name params c).2.recast x g) := by
  cases hmembers : receiverMembers c.context.scopes s receiver with
  | error y =>
    have hmembers' : receiverMembers (c.recast x g).context.scopes s receiver = .error y := hmembers
    rw [collectMethod_error hmembers, collectMethod_error hmembers',
      reportIn_recast m y.1 (message_ne_of_receiverMembers hmembers)]
  | ok members =>
    have hmembers' : receiverMembers (c.recast x g).context.scopes s receiver = .ok members := hmembers
    rw [collectMethod_eq hmembers, collectMethod_eq hmembers']
    exact declareWith_recast (y := ⟨members, .method, name⟩) m .var hname hparams

/-! ### Imports -/

theorem forgetEdge_recast (key : String) (fresh : Bool) :
    (c.recast x g).forgetEdge (m.without x) key fresh = (c.forgetEdge m key fresh).recast x g := by
  cases fresh <;> rfl

/-- A module is registered whose program is not changed. -/
theorem register_recast {key : String} (hg : c.context.hasModule key = false → ∀ p, g key p = p)
    (file : Path) :
    (c.recast x g).register key file = ((c.register key file).1, (c.register key file).2.recast x g) := by
  have hhas : (c.recast x g).context.hasModule key = c.context.hasModule key :=
    Context.hasModule_recast key
  have hloader : (c.recast x g).loader = c.loader := rfl
  rw [register, register, hhas, hloader]
  split
  · rfl
  · generalize c.loader.load file = r
    obtain ⟨_ | program, l⟩ := r
    · rfl
    · exact congrArg (fun ctx => (Except.ok (), Compilation.mk ctx l))
        (Context.addModule_recast hg file program)

theorem bindImport_recast {key : String} (hg : c.context.hasModule key = false → ∀ p, g key p = p)
    (s : ScopeId) (i : Import) (file : Path) (fresh : Bool) :
    bindImport (m.without x) s i key file fresh (c.recast x g) =
      ((bindImport m s i key file fresh c).1, (bindImport m s i key file fresh c).2.recast x g) := by
  rw [bindImport, bindImport, register_recast hg file]
  generalize c.register key file = r
  obtain ⟨e | _, d⟩ := r
  · dsimp only
    rw [report_recast (by rfl), reportIn_recast m i.span (message_ne_of_failed i.path),
      forgetEdge_recast]
  · have hmodule : (d.recast x g).context.module? key = (d.context.module? key).map (Module.recast g) :=
      Context.module?_recast key
    have hphase : (d.recast x g).context.phase key = d.context.phase key := Context.phase_recast key
    dsimp only
    rw [hmodule, hphase, scopes_recast]
    cases d.context.module? key with
    | none => exact congrArg (none, ·) (forgetEdge_recast m key fresh)
    | some target =>
      have hroot : (target.recast g).root = target.root := rfl
      dsimp only [Option.map_some]
      rw [hroot]
      cases d.context.scopes.addImport s ⟨i.localAlias, key, target.root⟩ with
      | ok F => rfl
      | error e =>
        dsimp only
        rw [reportIn_recast m i.span (message_ne_of_import e), forgetEdge_recast]

/-- An import is collected alike, if no program of a module that is not registered yet is changed. -/
theorem collectImport_recast (hg : ∀ key, c.context.hasModule key = false → ∀ p, g key p = p)
    (s : ScopeId) (i : Import) :
    collectImport (m.without x) s i (c.recast x g) =
      ((collectImport m s i c).1, (collectImport m s i c).2.recast x g) := by
  have hlocate : (c.recast x g).loader.locate i.path (m.without x).file =
      c.loader.locate i.path m.file := rfl
  rw [collectImport, collectImport, hlocate]
  cases c.loader.locate i.path m.file with
  | error e =>
    exact congrArg (none, ·) (report_recast (by rfl))
  | ok file =>
    have hinsert : (c.recast x g).context.graph.insert (m.without x).key
        ((c.recast x g).loader.moduleKey file) =
      c.context.graph.insert m.key (c.loader.moduleKey file) := rfl
    dsimp only
    rw [hinsert]
    cases c.context.graph.insert m.key (c.loader.moduleKey file) with
    | error cycle => exact congrArg (none, ·) (report_recast (by rfl))
    | ok graph =>
      exact bindImport_recast (c := c.update fun ctx => { ctx with graph := graph }) m (hg _) s i file _

end Sable.Compilation

/-!
## Checks of amended programs

A check may be run on other programs than its files hold: as soon as a module is registered, its
program is amended, and no pass ever sees the one that has been parsed. The files are read, numbered and
parsed as before, so all that is left in a program stands where it stood.
-/

namespace Sable.Compilation

variable (f : Program → Program)

/-- Amends the programs of the modules that have been registered since some earlier state. -/
def amendSince (c d : Compilation) : Compilation :=
  let amend := Module.recast fun key => if c.context.hasModule key then id else f
  d.update fun ctx => { ctx with modules := ctx.modules.map amend }

/-- Registers the module of a file, with its program amended, unless its key is registered. -/
def registerWith (key : String) (file : Path) (c : Compilation) :
    Except LoadError Unit × Compilation :=
  ((c.register key file).1, amendSince f c (c.register key file).2)

/-- Collects an import; if its module is registered, its program is amended. -/
def collectImportWith (m : Module) (s : ScopeId) (i : Import) (c : Compilation) :
    Option String × Compilation :=
  ((collectImport m s i c).1, amendSince f c (collectImport m s i c).2)

/-- Collection of amended programs. -/
def collectionWith : Traversal Compilation :=
  { collection with visitor := fun m => { collector m with importing := collectImportWith f m } }

/-- Collects the module under a key and all modules that it imports, which are amended. -/
def collectWith (key : String) (c : Compilation) : Compilation :=
  (collectionWith f).runWithin (c.context.modules.length + c.loader.store.size + 1) key c

/-- Puts the module under a key through all passes; the modules that it imports are amended. -/
def runPassesWith (key : String) (c : Compilation) : Compilation :=
  ((c.collectWith f key).andThen (Context.resolve key)).andThen (Context.check key)

/-- Checks an entry file, whose program is amended as those of all modules that it imports. -/
def checkWith (entry : Path) (c : Compilation) : Except ReadError String × Compilation :=
  let key := c.loader.moduleKey entry
  let c := c.update fun ctx => { ctx with entry? := some key }
  match c.registerWith f key entry with
  | (.ok _, c) => (.ok key, c.runPassesWith f key)
  | (.error (.read e), c) => (.error e, c)
  | (.error (.grammar e), c) =>
    (.ok key, c.update fun ctx => ctx.report (loadReport entry (.grammar e)))

/-- Checks entry files one after the other, with all programs amended. -/
def checkAllWith (entries : List Path) (c : Compilation) : Compilation :=
  entries.foldl (fun c entry => (c.checkWith f entry).2) c

/-! ### Nothing amended -/

theorem amendSince_id (c d : Compilation) : amendSince id c d = d := by
  have hsame : (Module.recast fun key => if c.context.hasModule key then id else id) = id := by
    simp only [ite_self]
    rfl
  rw [amendSince, hsame]
  simp only [List.map_id]
  rfl

/-- Where no program is changed, the check is the one of the files. -/
theorem checkAllWith_id (entries : List Path) (c : Compilation) :
    checkAllWith id entries c = checkAll entries c := by
  have hcollection : collectionWith id = collection := by
    unfold collectionWith collectImportWith
    simp only [amendSince_id]
    rfl
  have hpasses : runPassesWith id = runPasses := by
    funext key c
    unfold runPassesWith runPasses collectWith collect
    rw [hcollection]
  have hregister : registerWith id = register := by
    funext key file c
    rw [registerWith, amendSince_id]
  unfold checkAllWith checkWith
  rewrite [hregister, hpasses]
  rfl

/-! ### Programs without a declaration -/

variable {x : Ident} {c d : Compilation}

/-- The programs of all modules are left out but those of modules that are registered later. -/
private def leaveOut (x : Ident) (c : Compilation) (key : String) : Program → Program :=
  if c.context.hasModule key then Program.without x else id

/-- What is registered with its whole program is amended behind the step. -/
private theorem amendSince_recast (x : Ident) (c d : Compilation) :
    amendSince (Program.without x) (c.without x) (d.recast x (leaveOut x c)) = d.without x := by
  have hamend : (Module.recast fun key =>
      if (c.without x).context.hasModule key then id else Program.without x) ∘
        Module.recast (leaveOut x c) = Module.recast fun _ => Program.without x := by
    funext m
    have hhas : (c.without x).context.hasModule m.key = c.context.hasModule m.key :=
      Context.hasModule_recast m.key
    simp only [Function.comp, Module.recast, leaveOut, hhas]
    split <;> rfl
  have hmodules := (List.map_map (l := d.context.modules)).trans (congrArg (List.map · _) hamend)
  exact congrArg (fun modules => d.without x |>.update fun ctx => { ctx with modules := modules })
    hmodules

/-- The modules that are registered already are left out. -/
private theorem recast_leaveOut (x : Ident) (c : Compilation) :
    c.recast x (leaveOut x c) = c.without x := by
  have hmodules : c.context.modules.map (Module.recast (leaveOut x c)) =
      c.context.modules.map (Module.recast fun _ => Program.without x) := by
    refine List.map_congr_left fun m hm => ?_
    rw [Module.recast, leaveOut, if_pos (Context.hasModule_of_mem hm)]
    rfl
  simp only [recast, update, Context.recast, hmodules]

/-- A module that is registered later is registered with its whole program. -/
private theorem leaveOut_of_free (x : Ident) {c : Compilation} {key : String}
    (h : c.context.hasModule key = false) (p : Program) : leaveOut x c key p = p := by
  rw [leaveOut, h]
  rfl

/-- An import is collected alike in programs without a declaration. -/
theorem collectImportWith_without (x : Ident) (m : Module) (s : ScopeId) (i : Import)
    (c : Compilation) :
    collectImportWith (Program.without x) (m.without x) s i (c.without x) =
      ((collectImport m s i c).1, (collectImport m s i c).2.without x) := by
  have hrecast := collectImport_recast (x := x) m (fun _ => leaveOut_of_free x) s i (c := c)
  rw [recast_leaveOut] at hrecast
  rw [collectImportWith, hrecast, amendSince_recast]

/-- A file is registered alike. -/
theorem registerWith_without (x : Ident) (key : String) (file : Path) (c : Compilation) :
    (c.without x).registerWith (Program.without x) key file =
      ((c.register key file).1, (c.register key file).2.without x) := by
  have hrecast := @register_recast x (leaveOut x c) c key (leaveOut_of_free x) file
  rw [recast_leaveOut] at hrecast
  rw [registerWith, hrecast, amendSince_recast]

end Sable.Compilation
