import Sable.Proofs.Compilation.Fitting
import Sable.Proofs.Compilation.Populated
import Sable.Proofs.Compilation.Stated

/-!
# What the later passes write

Resolution and type checking write into tables that all modules share, and they find the places that
they write to by name. For all that, they change nothing but the types of names, besides leading
modules on and reporting problems. Type checking changes no type that is there: it gives types to
variables that have none, where the program writes none behind the name but an initial value. That
is so whatever has been done before, since a name in the tree of a module is one that the program of
the module declares, and the place of a name tells its declaration.
-/

namespace Sable

namespace Context

variable {ctx d e : Context} {m : Module} {s : ScopeId}

/-- Nothing but types changes, apart from how far modules have come and what is reported. -/
structure Retypes (ctx d : Context) : Prop where
  /-- Scopes and names stay, but for the types of names. -/
  untyped : d.scopes.untyped = ctx.scopes.untyped
  /-- Edges stay. -/
  graph : d.graph = ctx.graph
  /-- Modules stay, but for how far they have come. -/
  modules : d.modules.map Module.blank = ctx.modules.map Module.blank
  /-- No other module is asked for. -/
  entry? : d.entry? = ctx.entry?
  /-- Reports stay. -/
  reports : ctx.diagnostics.items <+: d.diagnostics.items

/--
A name that a registered module declares as a variable or a constant, with an initial value and
without a written type.
-/
def Inferred (ctx : Context) (s : ScopeId) (x : Symbol) : Prop :=
  ∃ m ∈ ctx.modules, m.root ∈ ctx.scopes.chain s ∧ m.program.Infers x.kind ⟨x.name, x.span⟩

/-- Types are given to variables only that have none and go without a written one. -/
structure Infers (ctx d : Context) : Prop extends ctx.Retypes d where
  /-- A type stays what it is, unless there was none and it is that of an initial value. -/
  types : ∀ s name, d.scopes.typeOf? s name = ctx.scopes.typeOf? s name ∨
    (ctx.scopes.typeOf? s name = none ∧
      ∃ x, ctx.scopes.symbol? s name = some x ∧ ctx.Inferred s x)

/-! ### Types that change -/

namespace Retypes

theorem refl (ctx : Context) : ctx.Retypes ctx := ⟨rfl, rfl, rfl, rfl, List.prefix_rfl⟩

theorem trans (h : ctx.Retypes d) (h' : d.Retypes e) : ctx.Retypes e :=
  ⟨h'.untyped.trans h.untyped, h'.graph.trans h.graph, h'.modules.trans h.modules,
    h'.entry?.trans h.entry?, h.reports.trans h'.reports⟩

theorem continues (h : ctx.Retypes d) : ctx.Continues d :=
  ⟨h.modules ▸ List.Subset.refl _, fun {r s} hr => by
    rwa [ScopeForest.chain_of_untyped h.untyped]⟩

/-- A variable that goes without a written type does so before and behind. -/
theorem inferred (h : ctx.Retypes d) {x : Symbol} (hx : d.Inferred s x) :
    ctx.Inferred s x.untyped := by
  obtain ⟨m, hm, hroot, hinfers⟩ := hx
  obtain ⟨m', hm', hblank⟩ := List.mem_map.mp (h.modules ▸ List.mem_map_of_mem hm)
  have hroot' := congrArg Module.root hblank
  have hprogram := congrArg Module.program hblank
  rw [Module.root_blank, Module.root_blank] at hroot'
  rw [Module.program_blank, Module.program_blank] at hprogram
  rw [ScopeForest.chain_of_untyped h.untyped] at hroot
  exact ⟨m', hm', hroot' ▸ hroot, hprogram ▸ hinfers⟩

end Retypes

theorem Types.retypes (h : ctx.Types d) : ctx.Retypes d where
  untyped := h.untyped
  graph := h.graph
  modules := congrArg _ h.modules
  entry? := h.entry?
  reports := by
    obtain ⟨es, hes, -⟩ := h.reports
    exact hes ▸ List.prefix_append ..

theorem retypes_report (ctx : Context) (r : Diagnostic) : ctx.Retypes (ctx.report r) :=
  ⟨rfl, rfl, rfl, rfl, List.prefix_append ..⟩

theorem retypes_setPhase (ctx : Context) (key : String) (target : Phase) :
    ctx.Retypes (ctx.setPhase key target) where
  untyped := by rw [scopes_setPhase]
  graph := by unfold setPhase; split <;> rfl
  modules := blank_setPhase ..
  entry? := entry?_setPhase ..
  reports := by rw [diagnostics_setPhase]

/-- A pass that only fills in types changes nothing else, whatever context it starts from. -/
theorem retypes_traverse {visitor : Module → Visitor Context} {target : Phase} {pass : Pass}
    {activity : String} (hv : ∀ m, Filling (visitor m))
    (hi : ∀ m, (visitor m).importing = nextModule target) (key : String) (ctx : Context) :
    ctx.Retypes (traverse (traversal target pass activity visitor) key ctx) :=
  (respects_traversal hv hi .refl .trans Types.retypes (fun ctx r _ => retypes_report ctx r)
    retypes_setPhase).runWithin _ key ctx

/-! ### Types that are inferred -/

namespace Infers

theorem of_types_eq (h : ctx.Retypes d)
    (htypes : ∀ s name, d.scopes.typeOf? s name = ctx.scopes.typeOf? s name) : ctx.Infers d :=
  ⟨h, fun s name => Or.inl (htypes s name)⟩

theorem refl (ctx : Context) : ctx.Infers ctx := of_types_eq (.refl ctx) fun _ _ => rfl

theorem trans (h : ctx.Infers d) (h' : d.Infers e) : ctx.Infers e := by
  refine ⟨h.toRetypes.trans h'.toRetypes, fun s name => ?_⟩
  rcases h'.types s name with hsame | ⟨hnone, x, hx, hinferred⟩
  · rw [hsame]
    exact h.types s name
  · rcases h.types s name with hfirst | hgain
    · have huntyped := congrArg (ScopeForest.symbol? · s name) h.untyped
      rw [ScopeForest.symbol?_untyped, ScopeForest.symbol?_untyped, hx] at huntyped
      obtain ⟨y, hy, hxy⟩ := Option.map_eq_some_iff.mp huntyped.symm
      obtain ⟨m, hm, hroot, hinfers⟩ := h.toRetypes.inferred hinferred
      rw [← hxy] at hinfers
      exact Or.inr ⟨hfirst ▸ hnone, y, hy, m, hm, hroot, hinfers⟩
    · exact Or.inr hgain

end Infers

/-- An initial value gives a type to its variable only, and only where none is written. -/
theorem infers_checkTarget (h : ctx.Populated) (hs : ctx.Inside m s) {targets : List VarBinder}
    {values : List Expr} (hocc : (Step.stop (.declared targets values)).Occurs m.program.steps)
    {target : VarBinder} {value : Expr} (htarget : (target, value) ∈ targets.zip values) :
    ctx.Infers (ctx.checkTarget m s target value) := by
  refine ⟨(types_checkTarget m s ctx target value).retypes, fun t name => ?_⟩
  rcases typeOf?_checkTarget ctx m s target value t name with
    hsame | ⟨hnone, rfl, rfl, hty, hbinds⟩
  · exact Or.inl hsame
  · obtain ⟨x, hx, hspan⟩ := ScopeForest.exists_of_binds hbinds
    have hmem : x.untyped ∈ ctx.scopes.declarations t :=
      List.mem_map_of_mem (ScopeForest.mem_symbols_of_symbol? hx).1
    obtain ⟨text, n, hparse⟩ := hs.parsed h
    obtain ⟨m', hm', hroot, hprogram⟩ := hs.exists_mem
    have hinfers := Program.infers_of_declared hparse hocc htarget hty (hs.declared h hmem) hspan
    exact Or.inr ⟨hnone, x, hx, m', hm', hroot ▸ hs.2, hprogram ▸ hinfers⟩

/-- So do the initial values of a declaration, one after the other. -/
theorem infers_checkTargets (h : ctx.Populated) (hs : ctx.Inside m s) {targets : List VarBinder}
    {values : List Expr} (hocc : (Step.stop (.declared targets values)).Occurs m.program.steps) :
    (ctx.checkTargets m s targets values).Populated ∧
      ctx.Infers (ctx.checkTargets m s targets values) := by
  have hall : ∀ (pairs : List (VarBinder × Expr)) (ctx : Context), pairs ⊆ targets.zip values →
      ctx.Populated → ctx.Inside m s →
      (pairs.foldl (fun ctx pair => ctx.checkTarget m s pair.1 pair.2) ctx).Populated ∧
        ctx.Infers (pairs.foldl (fun ctx pair => ctx.checkTarget m s pair.1 pair.2) ctx) := by
    intro pairs
    induction pairs with
    | nil => exact fun ctx _ h _ => ⟨h, .refl ctx⟩
    | cons pair pairs ih =>
      intro ctx hsub h hs
      rw [List.cons_subset] at hsub
      have hfirst := infers_checkTarget h hs hocc hsub.1
      obtain ⟨hpopulated, hrest⟩ := ih _ hsub.2 (h.types (types_checkTarget m s ctx pair.1 pair.2))
        (hs.later hfirst.continues)
      exact ⟨hpopulated, hfirst.trans hrest⟩
  exact hall _ ctx (List.Subset.refl _) h hs

/-- Type checking gives types to variables only that go without a written one. -/
theorem tends_typing : typing.Tends Populated (fun m s ctx => ctx.Inside m s) Infers where
  refl := .refl
  trans := .trans
  later hcd hs := hs.later hcd.continues
  enter key ctx h := by
    obtain ⟨hpopulated, -, hroot⟩ := h.enter key .typechecked .typechecking "type checking"
    refine ⟨hpopulated, ?_, hroot⟩
    change ctx.Infers (ctx.enter key .typechecked .typechecking "type checking").2
    unfold Context.enter
    split
    · exact .refl ctx
    · split
      · exact .refl ctx
      · exact .of_types_eq (retypes_report ctx _) fun _ _ => rfl
  importing _ h _ := ⟨h, .refl _⟩
  stop {m s ctx x} h hs hocc := by
    cases x with
    | declared targets values => exact infers_checkTargets h hs hocc
    | _ => exact ⟨h, .refl ctx⟩
  head {m s ctx hd ys} h hs hocc := by
    obtain ⟨hbody, -⟩ := (filling_checker m).head s hd ctx
    have hsame : ((checker m).head s hd ctx).2 = ctx := by
      obtain ⟨_ | receiver, name, params, ret⟩ := hd <;> rfl
    change ((checker m).head s hd ctx).2.Populated ∧ ctx.Infers ((checker m).head s hd ctx).2 ∧
      ∀ u ∈ ((checker m).head s hd ctx).1, ((checker m).head s hd ctx).2.Inside m u
    rw [hsame, hbody]
    refine ⟨h, .refl ctx, fun u hu => ⟨hs.1, ?_⟩⟩
    exact ScopeForest.bodyOf?_mem h.scopes (hs.root h) hs.2
      (fun receiver hr => hs.namesNoBuiltin h hocc hr) hu
  leave key ctx h := by
    refine ⟨h.setPhase key .typechecked, .of_types_eq (retypes_setPhase ctx key _) fun s name => ?_⟩
    exact congrArg (ScopeForest.typeOf? · s name) (scopes_setPhase ..)
  giveUp _ ctx h := ⟨h, .refl ctx⟩

end Context

namespace Compilation

open Context

/--
Whatever has been done before, resolution and type checking of a module change nothing but the types
of names, the phases of modules and the reports at the end; and type checking gives a type only to a
name that has none and that its module declares as a variable or a constant, with an initial value
and without a written type.
-/
theorem retypes_of_reachable {l : Loader} {c : Compilation} (h : Reachable l c) (key : String) :
    c.context.Retypes (Context.resolve key c.context) ∧
      c.context.Infers (Context.check key c.context) :=
  ⟨retypes_traverse filling_resolver (fun _ => rfl) key c.context,
    (tends_typing.runWithin _ key h.populated).2⟩

/-- Of two variables whose module has been resolved, the one without a written type is given one. -/
theorem retypes_twoVariables :
    ∃ c s, Reachable twoVariables c ∧
      (c.context.Retypes (Context.resolve "a" c.context) ∧
        c.context.Infers (Context.check "a" c.context)) ∧
      (c.context.scopes.typeOf? s "a").isSome = false ∧
      ((Context.check "a" c.context).scopes.typeOf? s "a").isSome = true := by
  have hload : Reachable twoVariables ((new twoVariables).perform (.load "a" ⟨"a.sbl"⟩)) :=
    .perform .new trivial
  have hcollect : Reachable twoVariables
      (((new twoVariables).perform (.load "a" ⟨"a.sbl"⟩)).perform (.collect "a")) :=
    .perform hload trivial
  have hresolve : Reachable twoVariables ((((new twoVariables).perform
      (.load "a" ⟨"a.sbl"⟩)).perform (.collect "a")).perform (.resolve "a")) :=
    .perform hcollect trivial
  exact ⟨_, 14, hresolve, retypes_of_reachable hresolve "a", by decide +kernel, by decide +kernel⟩

end Compilation

end Sable
