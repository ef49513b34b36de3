import Sable.Proofs.Context.Linked
import Sable.Proofs.Scope.Typed

/-!
# Progress of a context

Whatever the passes do, modules stay registered and move forward, edges and scopes stay, and
reports are only added. Most of what they do even leaves graph and modules as they are: it
declares names, gives types to them, and reports semantic errors. A whole pass behind the first
one does no more than that, but for the phases that it leads modules to.
-/

namespace Sable

/-- A pass behind collection. -/
def Pass.IsLate (p : Pass) : Prop := p = .resolving ∨ p = .typechecking

namespace Context

/-- A module is registered, at least as far as it had come. -/
def Knows (ctx : Context) (m : Module) : Prop :=
  ∃ p, m.phase ≤ p ∧ ctx.module? m.key = some { m with phase := p }

/-- A context that another one can turn into. -/
structure Extends (ctx d : Context) : Prop where
  /-- Modules stay, and move forward. -/
  modules : ∀ {m}, ctx.Knows m → d.Knows m
  /-- Edges stay. -/
  edges : ∀ {u v}, ctx.graph.Edge u v → d.graph.Edge u v
  /-- Bindings stay. -/
  imports : ∀ {s b}, b ∈ ctx.scopes.imports s → b ∈ d.scopes.imports s
  /-- Scopes and declarations stay. -/
  scopes : ctx.scopes.Precedes d.scopes
  /-- Scopes stay in their trees. -/
  chains : ∀ {r s}, r ∈ ctx.scopes.chain s → r ∈ d.scopes.chain s
  /-- Reports stay. -/
  reports : ctx.diagnostics.items <+: d.diagnostics.items

/-- A context that another one can turn into by declaring names and typing them. -/
structure Fills (ctx d : Context) : Prop where
  /-- The forest grows. -/
  scopes : ctx.scopes.Grows d.scopes
  /-- No import is recorded. -/
  graph : d.graph = ctx.graph
  /-- No module is registered or moved. -/
  modules : d.modules = ctx.modules
  /-- Semantic errors may be reported. -/
  reports : ∃ es, d.diagnostics.items = ctx.diagnostics.items ++ es ∧
    ∀ e ∈ es, e.severity = .semanticError

/-- A context that another one can turn into by giving types to names that are declared. -/
structure Types (ctx d : Context) : Prop extends ctx.Fills d where
  /-- Nothing but types changes. -/
  untyped : d.scopes.untyped = ctx.scopes.untyped
  /-- A name that has a type goes on to have one. -/
  typed : ∀ {s name}, (ctx.scopes.typeOf? s name).isSome → (d.scopes.typeOf? s name).isSome
  /-- No other module is asked for. -/
  entry? : d.entry? = ctx.entry?
  /-- What is reported is reported by a pass behind collection. -/
  late : ∃ es, d.diagnostics.items = ctx.diagnostics.items ++ es ∧ ∀ e ∈ es, e.pass.IsLate

/-- A context that a pass to a phase can turn another one into. -/
structure Passes (target : Phase) (ctx d : Context) : Prop where
  /-- The forest grows. -/
  scopes : ctx.scopes.Grows d.scopes
  /-- No import is recorded. -/
  graph : d.graph = ctx.graph
  /-- No module is registered. -/
  keys : d.modules.map Module.key = ctx.modules.map Module.key
  /-- Modules move forward. -/
  modules : ∀ {m}, ctx.Knows m → d.Knows m
  /-- Graph, bindings and modules go on to agree. -/
  linked : ctx.Linked → d.Linked
  /-- A module that moves is led to the phase from the one in front of it. -/
  phases : ∀ k, d.phase k = ctx.phase k ∨
    (target.previous? = some (ctx.phase k) ∧ d.phase k = target)
  /-- Semantic errors may be reported. -/
  reports : ∃ es, d.diagnostics.items = ctx.diagnostics.items ++ es ∧
    ∀ e ∈ es, e.severity = .semanticError

/-- A context that a pass behind the first one can turn another one into. -/
structure Leads (target : Phase) (ctx d : Context) : Prop extends ctx.Passes target d where
  /-- Nothing but types changes. -/
  untyped : d.scopes.untyped = ctx.scopes.untyped
  /-- A name that has a type goes on to have one. -/
  typed : ∀ {s name}, (ctx.scopes.typeOf? s name).isSome → (d.scopes.typeOf? s name).isSome

variable {ctx d e : Context} {m : Module} {target : Phase}

/-! ### Known modules -/

theorem knows_of_module? {key : String} (h : ctx.module? key = some m) : ctx.Knows m := by
  obtain ⟨-, rfl⟩ := mem_of_module? h
  exact ⟨m.phase, le_refl _, h⟩

theorem Knows.phase_le (h : ctx.Knows m) : m.phase ≤ ctx.phase m.key := by
  obtain ⟨p, hp, hm⟩ := h
  exact (phase_of_module? hm).symm ▸ hp

theorem Knows.hasModule (h : ctx.Knows m) : ctx.hasModule m.key = true := by
  obtain ⟨p, -, hm⟩ := h
  exact Option.isSome_iff_exists.mpr ⟨_, hm⟩

/-- A known module is registered as it is now. -/
theorem Knows.exists_mem (h : ctx.Knows m) :
    ∃ m' ∈ ctx.modules, m'.key = m.key ∧ m'.root = m.root ∧ m'.file = m.file ∧
      m'.program = m.program := by
  obtain ⟨p, -, hm⟩ := h
  exact ⟨_, (mem_of_module? hm).1, rfl, rfl, rfl, rfl⟩

theorem phase_congr (h : d.modules = ctx.modules) (key : String) :
    d.phase key = ctx.phase key := by simp [phase, module?, h]

theorem knows_congr (h : d.modules = ctx.modules) : d.Knows m ↔ ctx.Knows m := by
  simp [Knows, module?, h]

/-- If no known module is lost, no key is. -/
private theorem hasModule_later (h : ∀ {m}, ctx.Knows m → d.Knows m) {key : String}
    (hk : ctx.hasModule key = true) : d.hasModule key = true := by
  obtain ⟨m, hm⟩ := exists_of_hasModule hk
  obtain ⟨-, rfl⟩ := mem_of_module? hm
  exact (h (knows_of_module? hm)).hasModule

/-! ### Extended contexts -/

namespace Extends

theorem refl (ctx : Context) : ctx.Extends ctx := ⟨id, id, id, .refl _, id, List.prefix_rfl⟩

theorem trans (h : ctx.Extends d) (h' : d.Extends e) : ctx.Extends e :=
  ⟨h'.modules ∘ h.modules, h'.edges ∘ h.edges, h'.imports ∘ h.imports, h.scopes.trans h'.scopes,
    h'.chains ∘ h.chains, h.reports.trans h'.reports⟩

theorem phase_le (h : ctx.Extends d) (key : String) : ctx.phase key ≤ d.phase key := by
  cases hm : ctx.module? key with
  | none =>
    simp only [phase, hm, Option.map_none, Option.getD_none]
    exact Nat.zero_le _
  | some m =>
    obtain ⟨-, rfl⟩ := mem_of_module? hm
    rw [phase_of_module? hm]
    exact (h.modules (knows_of_module? hm)).phase_le

theorem hasModule (h : ctx.Extends d) {key : String} (hk : ctx.hasModule key = true) :
    d.hasModule key = true := hasModule_later h.modules hk

theorem reaches (h : ctx.Extends d) {u v : String} (hway : ctx.graph.Reaches u v) :
    d.graph.Reaches u v := Relation.ReflTransGen.mono (fun _ _ => h.edges) _ _ hway

end Extends

theorem extends_report (ctx : Context) (r : Diagnostic) : ctx.Extends (ctx.report r) :=
  ⟨id, id, id, .refl _, id, List.prefix_append ..⟩

/-- A module may be registered under a key that is free. -/
theorem extends_addModule (hl : ctx.Linked) {key : String} {file : Path} {program : Program}
    (hfree : ctx.hasModule key = false) : ctx.Extends (ctx.addModule key file program).2 := by
  have hF := ScopeForest.grows_openScope ctx.scopes hl.scopes.base .global
  constructor
  · rintro m ⟨p, hp, hmod⟩
    exact ⟨p, hp, by rw [module?_addModule hfree, hmod, Option.some_or]⟩
  all_goals rw [addModule_eq hfree]
  · exact id
  · exact fun hb => (hF.imports _).symm ▸ hb
  · exact hF.toPrecedes
  · exact hF.mem_chain hl.scopes

/-- The graph may be exchanged for one with the same edges. -/
theorem extends_regraph {g : ImportGraph} (he : ∀ u v, g.Edge u v ↔ ctx.graph.Edge u v) :
    ctx.Extends { ctx with graph := g } :=
  ⟨id, (he _ _).mpr, id, .refl _, id, List.prefix_rfl⟩

/-- A module may be imported. -/
theorem extends_link (hl : ctx.Linked) {source target : String} {g : ImportGraph}
    (hg : ctx.graph.insert source target = .ok g) {s : ScopeId} {b : ImportBinding}
    {F : ScopeForest} (hF : ctx.scopes.Binds s b F) :
    ctx.Extends { ctx with graph := g, scopes := F } where
  modules := id
  edges he := (ImportGraph.edge_of_insert hg _ _).mpr (Or.inl he)
  imports hb := hF.mem_imports hb
  scopes := hF.precedes
  chains hs := (hF.chain_eq hl.scopes _).symm ▸ hs
  reports := List.prefix_rfl

/-! ### Filled contexts -/

namespace Fills

theorem refl (ctx : Context) : ctx.Fills ctx :=
  ⟨ScopeForest.Grows.refl _, rfl, rfl, [], by simp, by simp⟩

theorem trans (h : ctx.Fills d) (h' : d.Fills e) : ctx.Fills e := by
  obtain ⟨es, hes, hsev⟩ := h.reports
  obtain ⟨es', hes', hsev'⟩ := h'.reports
  refine ⟨h.scopes.trans h'.scopes, h'.graph.trans h.graph, h'.modules.trans h.modules,
    es ++ es', ?_, List.forall_mem_append.mpr ⟨hsev, hsev'⟩⟩
  rw [hes', hes, List.append_assoc]

theorem linked (h : ctx.Fills d) (hctx : ctx.Linked) : d.Linked :=
  (hctx.grow h.scopes).of_same rfl h.graph h.modules

end Fills

theorem fills_reportIn (ctx : Context) (m : Module) (pass : Pass) (span : Span)
    (message : String) : ctx.Fills (ctx.reportIn m pass span message) :=
  ⟨ScopeForest.Grows.refl _, rfl, rfl, [_], rfl, by simp⟩

/-! ### Typed contexts -/

namespace Types

theorem refl (ctx : Context) : ctx.Types ctx :=
  ⟨Fills.refl ctx, rfl, id, rfl, [], (List.append_nil _).symm, nofun⟩

theorem trans (h : ctx.Types d) (h' : d.Types e) : ctx.Types e := by
  obtain ⟨es, hitems, hlate⟩ := h.late
  obtain ⟨es', hitems', hlate'⟩ := h'.late
  exact ⟨h.toFills.trans h'.toFills, h'.untyped.trans h.untyped, h'.typed ∘ h.typed,
    h'.entry?.trans h.entry?, es ++ es', by rw [hitems', hitems, List.append_assoc],
    List.forall_mem_append.mpr ⟨hlate, hlate'⟩⟩

/-- Steps that give types one after the other give them together. -/
theorem foldl {α : Type} {f : Context → α → Context}
    (h : ∀ (ctx : Context) (x : α), ctx.Types (f ctx x)) (xs : List α) (ctx : Context) :
    ctx.Types (xs.foldl f ctx) := by
  induction xs generalizing ctx with
  | nil => exact refl ctx
  | cons x xs ih => exact (h ctx x).trans (ih (f ctx x))

end Types

theorem types_reportIn (ctx : Context) (m : Module) {pass : Pass} (hpass : pass.IsLate)
    (span : Span) (message : String) : ctx.Types (ctx.reportIn m pass span message) :=
  ⟨fills_reportIn .., rfl, id, rfl, [_], rfl, List.forall_mem_singleton.mpr hpass⟩

theorem types_setType (ctx : Context) (s : ScopeId) (name : String) (ty : Ty) :
    ctx.Types (ctx.setType s name ty) where
  scopes := ScopeForest.grows_setType ..
  graph := rfl
  modules := rfl
  reports := ⟨[], by simp [setType], by simp⟩
  untyped := ScopeForest.untyped_setType ..
  typed := ScopeForest.isSome_typeOf?_setType ty
  entry? := rfl
  late := ⟨[], (List.append_nil _).symm, nofun⟩

theorem types_setDeclaredType (ctx : Context) (s : ScopeId) (name : Ident) (ty : Ty) :
    ctx.Types (ctx.setDeclaredType s name ty) := by
  unfold setDeclaredType
  split
  · exact types_setType ctx s name.name ty
  · exact Types.refl ctx

/-! ### Contexts behind a pass -/

theorem Fills.passes (h : ctx.Fills d) : ctx.Passes target d :=
  ⟨h.scopes, h.graph, h.modules ▸ rfl, fun hm => (knows_congr h.modules).mpr hm,
    h.linked, fun k => Or.inl (phase_congr h.modules k), h.reports⟩

namespace Passes

theorem refl (target : Phase) (ctx : Context) : ctx.Passes target ctx := (Fills.refl ctx).passes

theorem trans (h : ctx.Passes target d) (h' : d.Passes target e) : ctx.Passes target e := by
  obtain ⟨es, hes, hsev⟩ := h.reports
  obtain ⟨es', hes', hsev'⟩ := h'.reports
  refine ⟨h.scopes.trans h'.scopes, h'.graph.trans h.graph, h'.keys.trans h.keys,
    h'.modules ∘ h.modules, h'.linked ∘ h.linked, fun k => ?_, es ++ es', ?_,
    List.forall_mem_append.mpr ⟨hsev, hsev'⟩⟩
  · rcases h'.phases k with hk | ⟨hprev, hk⟩
    · exact (h.phases k).imp hk.trans fun hk' => ⟨hk'.1, hk.trans hk'.2⟩
    · -- A module that has been led to the phase is not led there again.
      rcases h.phases k with hk' | ⟨-, hk'⟩
      · exact Or.inr ⟨hk' ▸ hprev, hk⟩
      · exact absurd (Phase.previous_lt (hk' ▸ hprev)) (lt_irrefl _)
  · rw [hes', hes, List.append_assoc]

theorem toExtends (h : ctx.Passes target d) (hctx : ctx.Linked) : ctx.Extends d where
  modules := h.modules
  edges he := h.graph.symm ▸ he
  imports {s b} hb := (h.scopes.imports s).symm ▸ hb
  scopes := h.scopes.toPrecedes
  chains hs := h.scopes.mem_chain hctx.scopes hs
  reports := by
    obtain ⟨es, hes, -⟩ := h.reports
    exact hes ▸ List.prefix_append ..

theorem length_eq (h : ctx.Passes target d) : d.modules.length = ctx.modules.length := by
  have := congrArg List.length h.keys
  rwa [List.length_map, List.length_map] at this

theorem phase_le (h : ctx.Passes target d) (key : String) : ctx.phase key ≤ d.phase key := by
  rcases h.phases key with hk | ⟨hprev, hk⟩
  · exact hk.ge
  · exact hk ▸ (Phase.previous_lt hprev).le

theorem hasModule (h : ctx.Passes target d) {key : String} (hk : ctx.hasModule key = true) :
    d.hasModule key = true := hasModule_later h.modules hk

/-- If there is no error behind a pass, there was none in front of it. -/
theorem clean (h : ctx.Passes target d) (hd : d.diagnostics.hasErrors = false) :
    ctx.diagnostics.hasErrors = false := by
  obtain ⟨es, hes, -⟩ := h.reports
  rw [Diagnostics.hasErrors, hes, List.any_append, Bool.or_eq_false_iff] at hd
  exact hd.1

/-- What a pass reports keeps no other pass from being started. -/
theorem hasFatal_eq (h : ctx.Passes target d) :
    d.diagnostics.hasFatal = ctx.diagnostics.hasFatal := by
  obtain ⟨es, hes, hsev⟩ := h.reports
  have hnone : (es.any fun e => e.severity.isFatal) = false := by
    rw [List.any_eq_false]
    intro e he
    simp [hsev e he, Severity.isFatal]
  rw [Diagnostics.hasFatal_eq, hes, List.any_append, hnone, Bool.or_false, Diagnostics.hasFatal_eq]

end Passes

theorem Types.leads (h : ctx.Types d) : ctx.Leads target d := ⟨h.passes, h.untyped, h.typed⟩

namespace Leads

theorem refl (target : Phase) (ctx : Context) : ctx.Leads target ctx := (Types.refl ctx).leads

theorem trans (h : ctx.Leads target d) (h' : d.Leads target e) : ctx.Leads target e :=
  ⟨h.toPasses.trans h'.toPasses, h'.untyped.trans h.untyped, h'.typed ∘ h.typed⟩

end Leads

theorem Fills.toExtends (h : ctx.Fills d) (hctx : ctx.Linked) : ctx.Extends d :=
  (h.passes : ctx.Passes .collected d).toExtends hctx

/-- A module may move forward. -/
theorem passes_setPhase {key : String} (h : ctx.module? key = some m)
    (ht : target.previous? = some m.phase) : ctx.Passes target (ctx.setPhase key target) where
  scopes := by
    rw [setPhase_eq h (Phase.previous_lt ht)]
    exact ScopeForest.Grows.refl _
  graph := by rw [setPhase_eq h (Phase.previous_lt ht)]
  keys := by
    rw [setPhase_eq h (Phase.previous_lt ht), List.map_map]
    refine List.map_congr_left fun m' _ => ?_
    simp only [Function.comp_apply]
    split <;> rfl
  modules {m'} hm' := by
    obtain ⟨p, hp, hk⟩ := hm'
    rw [Knows, module?_setPhase h (Phase.previous_lt ht)]
    by_cases hkey : m'.key = key
    · rw [hkey, h, Option.some.injEq] at hk
      subst hk
      exact ⟨target, hp.trans (Phase.previous_lt ht).le, by simp [hkey]⟩
    · exact ⟨p, hp, by rw [if_neg hkey, hk]⟩
  linked hl := hl.setPhase key target
  phases k := by
    rw [phase_setPhase h (Phase.previous_lt ht)]
    split
    · next hk => exact Or.inr ⟨by rw [hk, phase_of_module? h, ht], rfl⟩
    · exact Or.inl rfl
  reports := ⟨[], by rw [setPhase_eq h (Phase.previous_lt ht), List.append_nil], by simp⟩

theorem leads_setPhase {key : String} (h : ctx.module? key = some m)
    (ht : target.previous? = some m.phase) : ctx.Leads target (ctx.setPhase key target) :=
  ⟨passes_setPhase h ht, by rw [scopes_setPhase], by rw [scopes_setPhase]; exact id⟩

/-- A module behind a pass is one in front of it, at least as far as it had come. -/
theorem Passes.exists_mem (h : ctx.Passes target d) (hl : ctx.Linked) (hm : m ∈ d.modules) :
    ∃ m' ∈ ctx.modules, ∃ p, m'.phase ≤ p ∧ m = { m' with phase := p } := by
  obtain ⟨m', hm', hkey⟩ := List.mem_map.mp (h.keys ▸ List.mem_map_of_mem hm)
  obtain ⟨p, hp, hmod⟩ := h.modules (knows_of_module? (hl.module?_of_mem hm'))
  rw [hkey, (h.linked hl).module?_of_mem hm, Option.some.injEq] at hmod
  exact ⟨m', hm', p, hp, hkey ▸ hmod⟩

end Context

end Sable
