import Sable.Compilation
import Sable.Proofs.Compilation.Checking
import Sable.Proofs.Compilation.Mirrored
import Sable.Proofs.Context.Mirrored
import Sable.Proofs.Loader.Reformatted

/-!
# Formatting does not matter

Two compilations that start from the same files up to formatting run in lockstep. The spans of
names are related one to one between them, and more of them are with every file that is read: a
file takes a number of its own, so its spans never meet those of files read before. All passes
look at spans only to tell declarations apart, so both compilations end with the same results.
-/

namespace Sable

/-- The same compilation twice, of files that differ in formatting only. -/
structure Compilation.Alike (R : Span → Span → Prop) (c d : Compilation) : Prop where
  /-- The contexts are the same. -/
  context : c.context.Alike R d.context
  /-- The loaders are the same. -/
  loader : c.loader.Reformats d.loader
  /-- Related places on the one side lie in files that have been read. -/
  left : ∀ {x y}, R x y → x.Below c.loader.files.length
  /-- Related places on the other side lie in files that have been read. -/
  right : ∀ {x y}, R x y → y.Below c.loader.files.length

namespace Compilation

variable {R T : Span → Span → Prop} {c d : Compilation} {m n : Module}

theorem Alike.update (h : c.Alike R d) {f g : Context → Context}
    (hfg : (f c.context).Alike R (g d.context)) : (c.update f).Alike R (d.update g) :=
  ⟨hfg, h.loader, h.left, h.right⟩

theorem Alike.report (h : c.Alike R d) {x y : Diagnostic} (hxy : x.unplaced = y.unplaced) :
    (c.update fun ctx => ctx.report x).Alike R (d.update fun ctx => ctx.report y) :=
  h.update (h.context.report hxy)

theorem Alike.reportIn (h : c.Alike R d) (hm : m.Alike R n) {x y : Span} {message message' : String}
    (hmessage : message = message') : (c.reportIn m x message).Alike R (d.reportIn n y message') :=
  h.report (by simp only [Diagnostic.unplaced, hm.file, hmessage])

theorem Alike.withScopes (h : c.Alike R d) {F G : ScopeForest} (hFG : F.Alike R G) :
    (c.update fun ctx => { ctx with scopes := F }).Alike R
      (d.update fun ctx => { ctx with scopes := G }) :=
  h.update (h.context.withScopes hFG)

theorem Alike.modifyGraph (h : c.Alike R d) (f : ImportGraph → ImportGraph) :
    (c.update fun ctx => { ctx with graph := f ctx.graph }).Alike R
      (d.update fun ctx => { ctx with graph := f ctx.graph }) :=
  h.update ⟨h.context.places, h.context.scopes, congrArg f h.context.graph,
    h.context.diagnostics, h.context.entry?, h.context.modules⟩

/-! ### Declarations -/

/-- The same names are refused, and the others get the same scopes for their members. -/
theorem sameStep_declare (h : c.Alike R d) (hm : m.Alike R n) (s : ScopeId) (kind : SymbolKind)
    {name name' : Ident} (hname : name.Alike R name') :
    SameStep Eq (Compilation.Alike R) (c.declare m s kind name) (d.declare n s kind name') := by
  have hdeclare := h.context.scopes.declare s hname kind none
  rw [declare, declare, hname.name]
  split
  · exact ⟨.none, h.reportIn hm rfl⟩
  · generalize c.context.scopes.declare s name kind none = x,
      d.context.scopes.declare s name' kind none = y at hdeclare
    cases hdeclare with
    | error he => exact ⟨.none, h.reportIn hm (by rw [DuplicateSymbol.message, he]; rfl)⟩
    | ok hscopes => exact ⟨hscopes.1, h.withScopes hscopes.2⟩

/-- The first pass declares the same where nothing but spans differs. -/
theorem corresponds_after (hm : m.Alike R n) (hT : T ≤ R) :
    Corresponds Span.Free T SameScopes m n (After Compilation.Alike R) where
  names _ _ _ := trivial
  visible? {c d s t} h hst name := by
    obtain ⟨S, hRS, h⟩ := h
    obtain rfl : s = t := hst
    exact rel_imp (h.context.scopes.visible? (h.context.scopes.chain s) name) fun hxy =>
      ⟨hxy.kind, hxy.members?⟩
  declare {c d s t name name'} h hst kind hname := by
    obtain ⟨S, hRS, h⟩ := h
    obtain rfl : s = t := hst
    have hstep := sameStep_declare h (hm.mono hRS) s kind (hname.mono (hT.trans hRS))
    exact ⟨hstep.1, ⟨S, hRS, hstep.2⟩, id⟩
  reportIn h _ hmessage := by
    obtain ⟨S, hRS, h⟩ := h
    exact ⟨⟨S, hRS, h.reportIn (hm.mono hRS) hmessage⟩, id⟩

/-! ### Imports -/

theorem Alike.forgetEdge (h : c.Alike R d) (hm : m.Alike R n) (key : String) (fresh : Bool) :
    (c.forgetEdge m key fresh).Alike R (d.forgetEdge n key fresh) := by
  cases fresh with
  | false => exact h
  | true =>
    rw [Compilation.forgetEdge, Compilation.forgetEdge, hm.key]
    exact h.modifyGraph fun g => g.erase n.key key

/-- The spans of a file that is read next are related besides those of earlier files. -/
private theorem biUnique_within (h : c.Alike R d)
    (hT : Span.Within c.loader.files.length T) :
    Relator.BiUnique fun x y => R x y ∨ T x y := by
  constructor
  · rintro x z y (hxy | hxy) (hzy | hzy)
    · exact h.context.places.1 hxy hzy
    · exact absurd rfl ((h.right hxy).ne (hT.right hzy))
    · exact absurd rfl ((h.right hzy).ne (hT.right hxy))
    · exact hT.places.1 hxy hzy
  · rintro x y z (hxy | hxy) (hxz | hxz)
    · exact h.context.places.2 hxy hxz
    · exact absurd rfl ((h.left hxy).ne (hT.left hxz))
    · exact absurd rfl ((h.left hxz).ne (hT.left hxy))
    · exact hT.places.2 hxy hxz

/-- A file yields the same program, or none for the same reason; more places may be related. -/
theorem Alike.load (h : c.Alike R d) (file : Path) :
    ∃ S, R ≤ S ∧
      Outcomes LoadError.Alike (fun p q => ∃ T ≤ S, p.Paired Span.Free T q) (c.loader.load file).1
        (d.loader.load file).1 ∧
      Alike S ⟨c.context, (c.loader.load file).2⟩ ⟨d.context, (d.loader.load file).2⟩ := by
  rcases h.loader.load file with ⟨e, hl, hl'⟩ | ⟨T, hT, houtcome, hloader, hfiles⟩
  · rw [hl, hl']
    exact ⟨R, le_rfl, .error (.read e), h⟩
  · have hlength : (c.loader.load file).2.files.length = c.loader.files.length + 1 := by
      rw [hfiles, List.length_append, List.length_singleton]
    refine ⟨R ⊔ T, le_sup_left, ?_,
      h.context.mono le_sup_left (biUnique_within h hT), hloader, ?_, ?_⟩
    · generalize (c.loader.load file).1 = x, (d.loader.load file).1 = y at houtcome
      cases houtcome with
      | ok hprogram => exact .ok ⟨T, le_sup_right, hprogram⟩
      | error he => exact .error he
    · rintro x y (hxy | hxy)
      · exact (h.left hxy).mono (by simp only [hlength, Nat.le_succ])
      · exact Or.inr (by simp only [hlength, (hT.left hxy).1, Nat.lt_succ_self])
    · rintro x y (hxy | hxy)
      · exact (h.right hxy).mono (by simp only [hlength, Nat.le_succ])
      · exact Or.inr (by simp only [hlength, (hT.right hxy).1, Nat.lt_succ_self])

/-- The same module is registered, or cannot be for the same reason. -/
theorem Alike.register (h : c.Alike R d) (key : String) (file : Path) :
    Outcomes LoadError.Alike Eq (c.register key file).1 (d.register key file).1 ∧
      After Compilation.Alike R (c.register key file).2 (d.register key file).2 := by
  rw [Compilation.register, Compilation.register, h.context.hasModule]
  split
  · exact ⟨.ok rfl, .of h⟩
  · obtain ⟨S, hRS, houtcome, hstates⟩ := h.load file
    generalize c.loader.load file = r, d.loader.load file = r' at houtcome hstates
    obtain ⟨x, l⟩ := r
    obtain ⟨y, l'⟩ := r'
    cases houtcome with
    | error he => exact ⟨.error he, S, hRS, hstates⟩
    | ok hprogram =>
      exact ⟨.ok rfl, S, hRS, hstates.context.addModule key file hprogram, hstates.loader,
        hstates.left, hstates.right⟩

theorem unplaced_loadReport (file : Path) {e f : LoadError} (h : e.Alike f) :
    (loadReport file e).unplaced = (loadReport file f).unplaced := by
  simp only [loadReport, Diagnostic.unplaced, h.message]

/-- An import whose edge is recorded binds the same module. -/
theorem Alike.bindImport (h : c.Alike R d) (hm : m.Alike R n) (s : ScopeId) {i j : Import}
    (hpath : i.path = j.path) (halias : i.localAlias = j.localAlias) (key : String) (file : Path)
    (fresh : Bool) :
    SameStep Eq (After Compilation.Alike R) (c.bindImport m s i key file fresh)
      (d.bindImport n s j key file fresh) := by
  obtain ⟨houtcome, S, hRS, hstates⟩ := h.register key file
  have hm := hm.mono hRS
  rw [Compilation.bindImport, Compilation.bindImport]
  generalize c.register key file = r, d.register key file = r' at houtcome hstates
  obtain ⟨x, c'⟩ := r
  obtain ⟨y, d'⟩ := r'
  cases houtcome with
  | error he =>
    have hreported := hstates.report (unplaced_loadReport file he)
    exact ⟨.none, S, hRS, (hreported.reportIn hm (by rw [hpath])).forgetEdge hm key fresh⟩
  | ok _ =>
    have htarget := hstates.context.module? key
    dsimp only at hstates htarget ⊢
    generalize c'.context.module? key = t?, d'.context.module? key = t?' at htarget
    cases htarget with
    | none => exact ⟨.none, S, hRS, hstates.forgetEdge hm key fresh⟩
    | @some t t' ht =>
      have hadd := hstates.context.scopes.addImport (Eq.refl s)
        (i := ⟨i.localAlias, key, t.root⟩) (j := ⟨j.localAlias, key, t'.root⟩)
        ⟨halias, rfl, ht.root⟩
      dsimp only
      generalize c'.context.scopes.addImport s ⟨i.localAlias, key, t.root⟩ = x,
        d'.context.scopes.addImport s ⟨j.localAlias, key, t'.root⟩ = y at hadd
      cases hadd with
      | error he =>
        exact ⟨.none, S, hRS, (hstates.reportIn hm (by rw [he])).forgetEdge hm key fresh⟩
      | ok hscopes =>
        refine ⟨rel_eq ?_, S, hRS, hstates.withScopes hscopes⟩
        simp only [hstates.context.phase]

/-- An import turns to the same module. -/
theorem Alike.collectImport (h : c.Alike R d) (hm : m.Alike R n) (s : ScopeId) {i j : Import}
    (hi : i.Paired Span.Free T j) :
    SameStep Eq (After Compilation.Alike R) (collectImport m s i c) (collectImport n s j d) := by
  rw [Compilation.collectImport, Compilation.collectImport, hi.path, hm.file, hm.key,
    h.loader.locate_eq, h.context.graph]
  split
  · refine ⟨.none, .of (h.report ?_)⟩
    simp only [unresolvedReport, Diagnostic.unplaced, hm.file]
  · next file _ =>
    dsimp only
    rw [h.loader.moduleKey_eq]
    split
    · refine ⟨.none, .of (h.report ?_)⟩
      simp only [cycleReport, Diagnostic.unplaced, hm.file, hm.key]
    · next graph _ =>
      have hgraph := h.modifyGraph fun _ => graph
      exact hgraph.bindImport hm s hi.path (Context.localAlias_eq hi) _ file _

/-! ### Collection -/

/-- Collection visits alike what differs in spans only. -/
theorem mirrors_collector (hm : m.Alike R n) (hT : T ≤ R) :
    (collector m).Mirrors Span.Free T SameScopes (After Compilation.Alike R) (collector n) where
  toAccords := accords_collector (corresponds_after hm hT)
  importing {s t c d i j} hst hi h := by
    obtain ⟨S, hRS, h⟩ := h
    obtain rfl : s = t := hst
    obtain ⟨hkey, S', hSS', hstates⟩ := h.collectImport (hm.mono hRS) s hi
    exact ⟨hkey, ⟨S', hRS.trans hSS', hstates⟩, id⟩

theorem mirrors_collection : collection.Mirrors Compilation.Alike where
  enter key h := by
    obtain ⟨hentered, hstates⟩ := h.context.enter key .collected .collecting "symbol collection"
    exact ⟨hentered, hstates, h.loader, h.left, h.right⟩
  visitor _ hm hT := mirrors_collector hm hT
  leave key h := h.update (h.context.setPhase key .collected)
  giveUp _ h := h

/-- Collection keeps compilations alike. -/
theorem Alike.collect (h : c.Alike R d) (key : String) :
    After Compilation.Alike R (c.collect key) (d.collect key) := by
  rw [Compilation.collect, Compilation.collect, ← h.context.modules.length_eq,
    ← h.loader.store.size_eq]
  exact mirrors_collection.runWithin _ key h

/-! ### Checks -/

theorem Alike.andThen (h : c.Alike R d) {pass : Context → Context}
    (hpass : ∀ {c d}, c.Alike R d → (pass c).Alike R (pass d)) :
    (c.andThen pass).Alike R (d.andThen pass) := by
  rw [Compilation.andThen, Compilation.andThen, h.context.hasFatal]
  split
  · exact h
  · exact h.update (hpass h.context)

/-- All passes together keep compilations alike. -/
theorem Alike.runPasses (h : c.Alike R d) (key : String) :
    After Compilation.Alike R (c.runPasses key) (d.runPasses key) := by
  obtain ⟨S, hRS, hcollected⟩ := h.collect key
  have hresolved := hcollected.andThen fun hcd => hcd.resolve key
  exact ⟨S, hRS, hresolved.andThen fun hcd => hcd.check key⟩

/-- A check of an entry file has the same result and keeps compilations alike. -/
theorem Alike.check (h : c.Alike R d) (entry : Path) :
    (c.check entry).1 = (d.check entry).1 ∧
      After Compilation.Alike R (c.check entry).2 (d.check entry).2 := by
  have hasked : (c.update fun ctx => { ctx with entry? := some (c.loader.moduleKey entry) }).Alike R
      (d.update fun ctx => { ctx with entry? := some (c.loader.moduleKey entry) }) :=
    h.update ⟨h.context.places, h.context.scopes, h.context.graph, h.context.diagnostics, rfl,
      h.context.modules⟩
  obtain ⟨houtcome, S, hRS, hstates⟩ := hasked.register (c.loader.moduleKey entry) entry
  simp only [Compilation.check, ← h.loader.moduleKey_eq]
  generalize Compilation.register (c.loader.moduleKey entry) entry
      (c.update fun ctx => { ctx with entry? := some (c.loader.moduleKey entry) }) = r,
    Compilation.register (c.loader.moduleKey entry) entry
      (d.update fun ctx => { ctx with entry? := some (c.loader.moduleKey entry) }) = r'
    at houtcome hstates
  obtain ⟨x, c'⟩ := r
  obtain ⟨y, d'⟩ := r'
  cases houtcome with
  | ok _ =>
    obtain ⟨S', hSS', hends⟩ := hstates.runPasses (c.loader.moduleKey entry)
    exact ⟨rfl, S', hRS.trans hSS', hends⟩
  | error he =>
    cases he with
    | read => exact ⟨rfl, S, hRS, hstates⟩
    | grammar hmessage =>
      exact ⟨rfl, S, hRS, hstates.report (unplaced_loadReport entry (.grammar hmessage))⟩

/-- Checks one after the other keep compilations alike. -/
theorem Alike.checkAll (h : c.Alike R d) (entries : List Path) :
    After Compilation.Alike R (checkAll entries c) (checkAll entries d) := by
  induction entries generalizing R c d with
  | nil => exact .of h
  | cons entry entries ih =>
    obtain ⟨-, S, hRS, hchecked⟩ := h.check entry
    obtain ⟨S', hSS', hends⟩ := ih hchecked
    exact ⟨S', hRS.trans hSS', hends⟩

/-- Compilations that know nothing are alike if they look for the same files up to formatting. -/
theorem alike_new {l l' : Loader} (h : l.Reformats l') :
    (new l).Alike (fun x y => x = Span.nowhere ∧ y = Span.nowhere) (new l') := by
  refine ⟨⟨⟨?_, ?_⟩, ?_, rfl, rfl, rfl, .nil⟩, h, fun hxy => Or.inl hxy.1, fun hxy => Or.inl hxy.2⟩
  · rintro x y z ⟨rfl, -⟩ ⟨rfl, -⟩
    rfl
  · rintro x y z ⟨-, rfl⟩ ⟨-, rfl⟩
    rfl
  · exact Context.alike_initial

/-! ### What does not depend on formatting -/

/-- Two compilations show the same: all but the spans of declarations and reports. -/
structure ShowsSame (c d : Compilation) : Prop where
  /-- The same modules are registered, and have come equally far. -/
  modules : c.context.modules.map (fun m => (m.key, m.file, m.root, m.phase)) =
    d.context.modules.map fun m => (m.key, m.file, m.root, m.phase)
  /-- The same imports are recorded. -/
  graph : c.context.graph = d.context.graph
  /-- Every module declares the same names with the same types and members. -/
  outline : ∀ key, c.outline key = d.outline key
  /-- The same problems are reported in the same order. -/
  diagnostics : c.context.diagnostics.items.map Diagnostic.unplaced =
    d.context.diagnostics.items.map Diagnostic.unplaced
  /-- The same module was asked for last. -/
  entry? : c.context.entry? = d.context.entry?

theorem Alike.showsSame (h : c.Alike R d) : ShowsSame c d where
  modules := List.forall₂_eq_eq_eq ▸ List.forall₂_map_left_iff.mpr
    (List.forall₂_map_right_iff.mpr (h.context.modules.imp fun m n hm => by
      rw [hm.key, hm.file, hm.root, hm.phase]))
  graph := h.context.graph
  outline key := by
    have hm := h.context.module? key
    rw [Compilation.outline, Compilation.outline, Context.registered, Context.registered]
    generalize c.context.module? key = m?, d.context.module? key = n? at hm
    cases hm with
    | none => rfl
    | some hm =>
      simp only [Except.map, hm.root, h.context.scopes.outline]
  diagnostics := h.context.diagnostics
  entry? := h.context.entry?

/--
Formatting does not matter: if two source stores hold the same files up to blanks and comments,
all sequences of checks show the same, and every further check has the same result.
-/
theorem checkAll_reformatted (o : LookupOptions) {S S' : SourceFiles} (h : S.Reformats S')
    (entries : List Path) :
    ShowsSame (checkAll entries (new (.new o S))) (checkAll entries (new (.new o S'))) ∧
      ∀ entry, ((checkAll entries (new (.new o S))).check entry).1 =
        ((checkAll entries (new (.new o S'))).check entry).1 := by
  have hloaders : (Loader.new o S).Reformats (Loader.new o S') := ⟨rfl, h, rfl⟩
  obtain ⟨R, -, hends⟩ := (alike_new hloaders).checkAll entries
  exact ⟨hends.showsSame, fun entry => (hends.check entry).1⟩

/-- A comment between two declarations and blanks inside them change nothing that is shown. -/
theorem checkAll_commented :
    SourceFiles.Reformats (.memory [(⟨"a.sbl"⟩, "type T i8 type T u8")])
        (.memory [(⟨"a.sbl"⟩, "type T\ti8 // first\n type T u8")]) ∧
      ShowsSame
        (checkAll [⟨"a.sbl"⟩] (new (.new (.ofRoot ⟨""⟩)
          (.memory [(⟨"a.sbl"⟩, "type T i8 type T u8")]))))
        (checkAll [⟨"a.sbl"⟩] (new (.new (.ofRoot ⟨""⟩)
          (.memory [(⟨"a.sbl"⟩, "type T\ti8 // first\n type T u8")])))) := by
  have hplain : tokenize "type T i8 type T u8" 0 = .ok [⟨.keyword .typeKw, ⟨0, 4, 0⟩⟩,
      ⟨.ident "T", ⟨5, 6, 0⟩⟩, ⟨.ident "i8", ⟨7, 9, 0⟩⟩, ⟨.keyword .typeKw, ⟨10, 14, 0⟩⟩,
      ⟨.ident "T", ⟨15, 16, 0⟩⟩, ⟨.ident "u8", ⟨17, 19, 0⟩⟩, ⟨.eof, ⟨19, 19, 0⟩⟩] := rfl
  have hcommented : tokenize "type T\ti8 // first\n type T u8" 0 = .ok
      [⟨.keyword .typeKw, ⟨0, 4, 0⟩⟩, ⟨.ident "T", ⟨5, 6, 0⟩⟩, ⟨.ident "i8", ⟨7, 9, 0⟩⟩,
        ⟨.keyword .typeKw, ⟨20, 24, 0⟩⟩, ⟨.ident "T", ⟨25, 26, 0⟩⟩, ⟨.ident "u8", ⟨27, 29, 0⟩⟩,
        ⟨.eof, ⟨29, 29, 0⟩⟩] := rfl
  have hsame : SourceFiles.Reformats (.memory [(⟨"a.sbl"⟩, "type T i8 type T u8")])
      (.memory [(⟨"a.sbl"⟩, "type T\ti8 // first\n type T u8")]) :=
    .memory (.cons ⟨rfl, _, _, hplain, hcommented, rfl⟩ .nil)
  exact ⟨hsame, (checkAll_reformatted _ hsame _).1⟩

end Compilation

end Sable
