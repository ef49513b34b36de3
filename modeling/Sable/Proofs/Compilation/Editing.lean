import Sable.Proofs.Compilation.Checking
import Sable.Proofs.Context.Histories
import Sable.Proofs.Module.Respect

/-!
# Edits of a compilation

All that the passes do to a compilation is a handful of edits: problems are reported, names are
declared and given types, edges are recorded and dropped, modules are registered, bound and moved to
a phase. So a relation between compilations that may be followed from edit to edit, and that every
single edit keeps, holds between the ends of every pass, whatever state it starts from.
-/

namespace Sable

/--
A traversal that only fills in types keeps a relation that is kept by types that are given, by
reports and by moves to a phase.
-/
theorem Context.respects_traversal {R : Context → Context → Prop}
    {visitor : Module → Visitor Context} {target : Phase} {pass : Pass} {activity : String}
    (h : ∀ m, Context.Filling (visitor m))
    (hi : ∀ m, (visitor m).importing = Context.nextModule target) (refl : ∀ ctx, R ctx ctx)
    (trans : ∀ {ctx d e}, R ctx d → R d e → R ctx e) (types : ∀ {ctx d}, ctx.Types d → R ctx d)
    (report : ∀ ctx r, r.severity.isFatal = true → R ctx (ctx.report r))
    (setPhase : ∀ ctx key p, R ctx (ctx.setPhase key p)) :
    (Context.traversal target pass activity visitor).Respects R where
  refl := refl
  trans := trans
  enter key ctx := by
    change R ctx (ctx.enter key target pass activity).2
    unfold Context.enter
    split
    · exact refl ctx
    · split
      · exact refl ctx
      · exact report ctx _ rfl
  importing m s i ctx := by
    change R ctx ((visitor m).importing s i ctx).2
    rw [hi m]
    exact refl ctx
  stop m s x ctx := types ((h m).stop s x ctx)
  head m s hd ctx := types ((h m).head s hd ctx).2
  leave key ctx := setPhase ctx key target
  giveUp _ ctx := refl ctx

namespace Compilation

open Context

/-- A relation that may be followed along what an import does. -/
structure Links (R : Compilation → Compilation → Prop) : Prop where
  /-- Nothing may happen. -/
  refl : ∀ c, R c c
  /-- One edit may follow the other. -/
  trans : ∀ {c d e}, R c d → R d e → R c e
  /-- A problem that is found before the later passes is reported. -/
  report : ∀ c r, r.pass = .collecting ∨ r.pass = .parsing →
    R c (c.update fun ctx => ctx.report r)
  /-- An edge is recorded or dropped. -/
  regraph : ∀ c g, R c (c.update fun ctx => { ctx with graph := g })
  /-- A module is registered. -/
  register : ∀ c key file, R c (c.register key file).2
  /-- An alias is bound. -/
  bind : ∀ {c s b F}, c.context.scopes.addImport s b = .ok F →
    R c (c.update fun ctx => { ctx with scopes := F })

/-- A relation that may be followed along the edits of collection. -/
structure Edits (R : Compilation → Compilation → Prop) : Prop extends Links R where
  /-- A name is declared. -/
  declare : ∀ {c s name kind members? F},
    c.context.scopes.declare s name kind none = .ok (members?, F) →
    R c (c.update fun ctx => { ctx with scopes := F })
  /-- A module has been collected. -/
  setPhase : ∀ c key, R c (c.update fun ctx => ctx.setPhase key .collected)

namespace Links

variable {R : Compilation → Compilation → Prop} (h : Links R) (c : Compilation) (m : Module)
  (s : ScopeId)
include h

theorem reportIn (span : Span) (message : String) : R c (c.reportIn m span message) :=
  h.report c _ (Or.inl rfl)

theorem forgetEdge (key : String) (fresh : Bool) : R c (c.forgetEdge m key fresh) := by
  unfold Compilation.forgetEdge
  split
  · exact h.regraph c _
  · exact h.refl c

theorem bindImport (i : Import) (key : String) (file : Path) (fresh : Bool) :
    R c (bindImport m s i key file fresh c).2 := by
  have hregister := h.register c key file
  unfold Compilation.bindImport
  generalize c.register key file = r at hregister
  obtain ⟨x | _, d⟩ := r
  · exact h.trans (h.trans (h.trans hregister (h.report d _ (Or.inr rfl))) (h.reportIn ..))
      (h.forgetEdge ..)
  · dsimp only
    split
    · exact h.trans hregister (h.forgetEdge ..)
    · split
      · exact h.trans (h.trans hregister (h.reportIn ..)) (h.forgetEdge ..)
      · next hF => exact h.trans hregister (h.bind hF)

theorem collectImport (i : Import) : R c (collectImport m s i c).2 := by
  unfold Compilation.collectImport
  split
  · exact h.report c _ (Or.inl rfl)
  · dsimp only
    split
    · exact h.report c _ (Or.inl rfl)
    · next graph _ => exact h.trans (h.regraph c graph) (h.bindImport ..)

end Links

namespace Edits

variable {R : Compilation → Compilation → Prop} (h : Edits R) (c : Compilation) (m : Module)
  (s : ScopeId)
include h

theorem declareName (kind : SymbolKind) (name : Ident) : R c (c.declare m s kind name).2 := by
  unfold Compilation.declare
  split
  · exact h.reportIn ..
  · split
    · next hF => exact h.declare hF
    · exact h.reportIn ..

theorem declareAll (kind : SymbolKind) (names : List Ident) :
    R c (c.declareAll m s kind names) := by
  unfold Compilation.declareAll
  induction names generalizing c with
  | nil => exact h.refl c
  | cons name names ih => exact h.trans (h.declareName c m s kind name) (ih _)

theorem stop (x : Stop) : R c ((collector m).stop s x c) := by
  cases x with
  | typeDecl D =>
    have hname := h.declareName c m s .type D.name
    change R c (collectTypeDecl m s D c)
    unfold collectTypeDecl
    generalize c.declare m s .type D.name = r at hname
    obtain ⟨_ | members, d⟩ := r
    · exact hname
    · dsimp only
      split
      · exact h.trans hname (h.declareAll ..)
      · exact hname
  | declaring isConst targets values span => exact h.declareAll ..
  | _ => exact h.refl c

theorem head (hd : Head) : R c ((collector m).head s hd c).2 := by
  obtain ⟨_ | receiver, name, params, ret⟩ := hd
  · have hname := h.declareName c m s .func name
    change R c (collectFunction m s name params c).2
    unfold collectFunction
    generalize c.declare m s .func name = r at hname
    obtain ⟨_ | body, d⟩ := r
    · exact hname
    · exact h.trans hname (h.declareAll ..)
  · change R c (collectMethod m s receiver name params c).2
    cases hmembers : receiverMembers c.context.scopes s receiver with
    | error x =>
      simp only [collectMethod, declareMethod, hmembers]
      exact h.reportIn ..
    | ok members =>
      have hname := h.declareName c m members .method name
      simp only [collectMethod, declareMethod, hmembers]
      generalize c.declare m members .method name = r at hname
      obtain ⟨_ | body, d⟩ := r
      · exact hname
      · exact h.trans (h.trans hname (h.declareName ..)) (h.declareAll ..)

/-- Collection keeps what every edit keeps. -/
theorem collection : collection.Respects R where
  refl := h.refl
  trans := h.trans
  enter key c := by
    change R c { c with
      context := (c.context.enter key .collected .collecting "symbol collection").2 }
    unfold Context.enter
    split
    · exact h.refl c
    · split
      · exact h.refl c
      · exact h.report c _ (Or.inl rfl)
  importing m s i c := h.collectImport c m s i
  stop m s x c := h.stop c m s x
  head m s hd c := h.head c m s hd
  leave key c := h.setPhase c key
  giveUp _ c := h.refl c

theorem collect (key : String) : R c (c.collect key) := h.collection.runWithin _ key c

end Edits

/-! ### Whole checks -/

/-- A relation that may be followed along the stages of a check. -/
structure Stages (R : Compilation → Compilation → Prop) : Prop extends Links R where
  /-- A module is collected. -/
  collect : ∀ key c, R c (c.collect key)
  /-- Names are given types, and problems reported. -/
  types : ∀ c {ctx}, c.context.Types ctx → R c { c with context := ctx }
  /-- A problem that keeps the next pass from being started is reported. -/
  problem : ∀ c r, r.severity.isFatal = true → R c (c.update fun ctx => ctx.report r)
  /-- A module is moved to a phase. -/
  advance : ∀ c key p, R c (c.update fun ctx => ctx.setPhase key p)

namespace Stages

variable {R : Compilation → Compilation → Prop} (h : Stages R) (key : String) (c : Compilation)
include h

/-- A pass behind the first one keeps what every stage keeps. -/
theorem traversal (l : Loader) {visitor : Module → Visitor Context} (target : Phase) (pass : Pass)
    (activity : String) (hv : ∀ m, Filling (visitor m))
    (hi : ∀ m, (visitor m).importing = nextModule target) :
    (Context.traversal target pass activity visitor).Respects fun ctx d => R ⟨ctx, l⟩ ⟨d, l⟩ :=
  respects_traversal hv hi (fun ctx => h.refl ⟨ctx, l⟩) h.trans (fun hd => h.types ⟨_, l⟩ hd)
    (fun ctx => h.problem ⟨ctx, l⟩) fun ctx => h.advance ⟨ctx, l⟩

/-- So does such a pass if it is not kept from being started. -/
theorem andThen {visitor : Module → Visitor Context} (target : Phase) (pass : Pass)
    (activity : String) (hv : ∀ m, Filling (visitor m))
    (hi : ∀ m, (visitor m).importing = nextModule target) :
    R c (c.andThen (traverse (Context.traversal target pass activity visitor) key)) := by
  unfold Compilation.andThen
  split
  · exact h.refl c
  · exact (h.traversal c.loader target pass activity hv hi).runWithin _ key c.context

theorem runPasses : R c (c.runPasses key) :=
  h.trans (h.collect key c) (h.trans
    (h.andThen key (c.collect key) .resolved .resolving "resolution" filling_resolver fun _ => rfl)
    (h.andThen key _ .typechecked .typechecking "type checking" filling_checker fun _ => rfl))

/-- A check keeps what its stages keep, if it may be noted what is asked for. -/
theorem check (hask : ∀ c key?, R c (c.update fun ctx => { ctx with entry? := key? }))
    (entry : Path) : R c (c.check entry).2 := by
  have hregister := h.trans (hask c (some (c.loader.moduleKey entry)))
    (h.register _ (c.loader.moduleKey entry) entry)
  unfold Compilation.check
  dsimp only
  generalize (c.update fun ctx => { ctx with entry? := some (c.loader.moduleKey entry) }).register
    (c.loader.moduleKey entry) entry = r at hregister
  obtain ⟨(_ | _) | _, d⟩ := r
  · exact hregister
  · exact h.trans hregister (h.problem d _ rfl)
  · exact h.trans hregister (h.runPasses _ d)

/-- So do any number of checks. -/
theorem checkAll (hask : ∀ c key?, R c (c.update fun ctx => { ctx with entry? := key? }))
    (entries : List Path) : R c (checkAll entries c) := by
  induction entries generalizing c with
  | nil => exact h.refl c
  | cons entry entries ih => exact h.trans (h.check c hask entry) (ih _)

end Stages

/-- A relation that may be followed along the edits of all passes. -/
structure Follows (R : Compilation → Compilation → Prop) : Prop extends Edits R where
  /-- Names are given types, and problems reported. -/
  types : ∀ c {ctx}, c.context.Types ctx → R c { c with context := ctx }
  /-- A problem that keeps the next pass from being started is reported. -/
  problem : ∀ c r, r.severity.isFatal = true → R c (c.update fun ctx => ctx.report r)
  /-- A module is moved to a phase. -/
  advance : ∀ c key p, R c (c.update fun ctx => ctx.setPhase key p)

/-- It may be followed along the stages of a check. -/
theorem Follows.stages {R : Compilation → Compilation → Prop} (h : Follows R) : Stages R where
  toLinks := h.toLinks
  collect key c := h.collect c key
  types := h.types
  problem := h.problem
  advance := h.advance

/-! ### The module that is asked for -/

/-- Registering a file asks for no other module. -/
theorem entry?_register (key : String) (file : Path) (c : Compilation) :
    (c.register key file).2.context.entry? = c.context.entry? := by
  unfold register
  split
  · rfl
  · next hfree =>
    rcases c.loader.load file with ⟨e | program, l⟩
    · rfl
    · dsimp only
      rw [addModule_eq (Bool.eq_false_iff.mpr hfree)]

/-- No edit asks for another module. -/
theorem follows_entry : Follows fun c d => d.context.entry? = c.context.entry? where
  refl _ := rfl
  trans h h' := h'.trans h
  report _ _ _ := rfl
  declare _ := rfl
  regraph _ _ := rfl
  register c key file := entry?_register key file c
  bind _ := rfl
  setPhase _ _ := entry?_setPhase ..
  types _ _ h := h.entry?
  problem _ _ _ := rfl
  advance _ _ _ := entry?_setPhase ..

/-- The passes ask for no other module. -/
theorem entry?_runPasses (key : String) (c : Compilation) :
    (c.runPasses key).context.entry? = c.context.entry? := follows_entry.stages.runPasses key c

end Compilation

end Sable
