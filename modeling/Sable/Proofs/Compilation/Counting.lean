import Sable.Proofs.Compilation.Recasting
import Sable.Proofs.Compilation.Calls
import Sable.Proofs.Compilation.Halting
import Sable.Proofs.Compilation.Refusing
import Sable.Proofs.Context.Omitting
import Sable.Proofs.Module.Respect

/-!
# Counted refusals

A declaration is refused no more often than collection comes to it. No module is collected twice, so
collection comes to a name only once that is declared once in all modules. Where the declaration has
been refused, that visit has refused it, and has changed nothing else.
-/

namespace Sable

/-! ### Programs that declare a name -/

namespace Context

variable {ctx d : Context} {x : Ident} {walked : String}

/--
Some program declares a name that should not: at most the module under one key may declare it, and
only once.
-/
def Strays (x : Ident) (walked : String) (ctx : Context) : Prop :=
  ∃ key p, ctx.program? key = some p ∧ (if key = walked then 1 else 0) < p.names.count x

theorem Retains.strays (h : ctx.Retains d) (hx : ctx.Strays x walked) : d.Strays x walked := by
  obtain ⟨key, p, hp, hlt⟩ := hx
  exact ⟨key, p, h.programs hp, hlt⟩

/-- Where the modules are numbered, none but the one that declares a name does. -/
theorem Numbered.not_strays {n : Nat} {m : Module} (h : ctx.Numbered n) (hm : m ∈ ctx.modules)
    (hx : x ∈ m.program.names) : ¬ ctx.Strays x m.key := by
  rintro ⟨key, p, hp, hlt⟩
  obtain ⟨m', hm', rfl⟩ := Option.map_eq_some_iff.mp hp
  obtain ⟨hmem, rfl⟩ := mem_of_module? hm'
  have hx' : x ∈ m'.program.names := List.count_pos_iff.mp (Nat.zero_lt_of_lt hlt)
  obtain rfl := h.eq_of_mem_names hm hmem hx hx'
  rw [if_pos rfl] at hlt
  exact absurd hlt (List.nodup_iff_count_le_one.mp (h.nodup_names hm) x).not_gt

end Context

/-- A traced traversal forgets nothing that has been written down. -/
theorem Traversal.traced_grows {σ : Type} (pass : Pass) (t : Traversal σ) :
    (t.traced pass).Respects fun c d => c.events <+: d.events where
  refl _ := List.prefix_rfl
  trans := List.IsPrefix.trans
  enter key c := by
    simp only [traced]
    rcases t.enter key c.state with ⟨_ | m, d⟩
    · exact List.prefix_append ..
    · exact (List.prefix_append ..).trans (List.prefix_append ..)
  importing _ _ _ _ := List.prefix_rfl
  stop _ _ y _ := by cases y <;> exact List.prefix_rfl
  head _ _ h _ := by
    obtain ⟨_ | receiver, name, params, ret⟩ := h <;> exact List.prefix_rfl
  leave _ _ := List.prefix_rfl
  giveUp _ _ := List.prefix_append ..

namespace Compilation

open Context

variable {x : Ident} {c d : Compilation}

/-! ### Reports of a refused declaration -/

/-- The number of reports that say that a declaration of a name is refused. -/
def refusals (x : Ident) (c : Compilation) : Nat :=
  c.context.diagnostics.items.countP (Diagnostic.refuses x)

theorem refusals_report (c : Compilation) (e : Diagnostic) :
    refusals x (c.update fun ctx => ctx.report e) =
      refusals x c + if e.refuses x then 1 else 0 := by
  simp only [refusals, update, report, Diagnostics.items_add, List.countP_append,
    List.countP_singleton]

/-- What is not wrong because of a declaration refuses none. -/
theorem refusals_reportIn (m : Module) (span : Span) {message : String}
    (hmessage : ∀ y : DuplicateSymbol, message ≠ y.message) :
    refusals x (c.reportIn m span message) = refusals x c := by
  have hother : (Diagnostic.mk m.file.text span message .semanticError .collecting none).refuses x =
      false := decide_eq_false fun he => hmessage _ (congrArg Diagnostic.message he)
  exact (refusals_report c _).trans (by rw [hother]; rfl)

/-- As many declarations are refused if each is refused as often in the file of each module. -/
theorem refusals_of_sameRefusals (h : SameRefusals c.context d.context) :
    refusals x d = refusals x c := by
  have hperm : (d.context.diagnostics.items.filter (Diagnostic.refuses x)).Perm
      (c.context.diagnostics.items.filter (Diagnostic.refuses x)) := by
    refine List.perm_iff_count.mpr fun e => ?_
    cases hrefuses : e.refuses x with
    | false =>
      have hnone : ∀ es : List Diagnostic, (es.filter (Diagnostic.refuses x)).count e = 0 :=
        fun es => List.count_eq_zero.mpr fun hmem => by
          rw [(List.mem_filter.mp hmem).2] at hrefuses
          cases hrefuses
      rw [hnone, hnone]
    | true =>
      have he : e = duplicateReport ⟨"", ⟨e.file⟩, ⟨[], Span.nowhere⟩, 0, .parsed⟩ x :=
        of_decide_eq_true hrefuses
      rw [List.count_filter hrefuses, List.count_filter hrefuses, he]
      exact h _ x
  rw [refusals, refusals, List.countP_eq_length_filter, List.countP_eq_length_filter,
    hperm.length_eq]

/-- Collection takes no report back. -/
theorem refusals_le (h : c.ReportsEarly d) : refusals x c ≤ refusals x d := by
  obtain ⟨es, hitems, -⟩ := h
  rw [refusals, refusals, hitems, List.countP_append]
  exact Nat.le_add_right ..

/-! ### What refuses a declaration -/

section

variable (m : Module) (s : ScopeId)

/-- A declaration is refused with its one report, or nothing is refused. -/
theorem declare_refuses (kind : SymbolKind) (name : Ident) (c : Compilation) :
    c.declare m s kind name = (none, c.update fun ctx => ctx.report (duplicateReport m name)) ∨
      ∀ x, refusals x (c.declare m s kind name).2 = refusals x c := by
  rw [declare]
  split
  · exact Or.inr fun x => refusals_reportIn m name.span (message_ne_of_missing kind)
  · cases hdeclare : c.context.scopes.declare s name kind none with
    | ok r => exact Or.inr fun _ => rfl
    | error e =>
      obtain ⟨-, rfl⟩ := ScopeForest.of_declare_error hdeclare
      exact Or.inl rfl

theorem refusals_declare_le (kind : SymbolKind) (name : Ident) (c : Compilation) :
    refusals x (c.declare m s kind name).2 ≤ refusals x c + [name].count x := by
  rcases declare_refuses m s kind name c with h | h
  · rw [h, refusals_report, List.count_singleton]
    simp only [refuses_duplicateReport, beq_iff_eq, le_refl]
  · exact (h x).trans_le (Nat.le_add_right ..)

theorem refusals_declareAll_le (kind : SymbolKind) (names : List Ident) (c : Compilation) :
    refusals x (c.declareAll m s kind names) ≤ refusals x c + names.count x := by
  unfold declareAll
  induction names generalizing c with
  | nil => exact Nat.le_refl _
  | cons name names ih =>
    have hfirst := refusals_declare_le (x := x) m s kind name c
    have hrest := ih (c.declare m s kind name).2
    rw [List.foldl_cons, List.count_cons]
    rw [List.count_singleton] at hfirst
    omega

theorem refusals_declareWith_le (y : Declaration) (kind : SymbolKind) (names : List Ident)
    (c : Compilation) :
    refusals x (declareWith m y kind names c).2 ≤ refusals x c + (y.name :: names).count x := by
  have hname := refusals_declare_le (x := x) m y.scope y.kind y.name c
  rw [declareWith, List.count_cons]
  rw [List.count_singleton] at hname
  generalize c.declare m y.scope y.kind y.name = r at hname
  obtain ⟨_ | members, d⟩ := r
  · dsimp only at hname ⊢
    omega
  · have hnames := refusals_declareAll_le (x := x) m members kind names d
    dsimp only at hname ⊢
    omega

/-- No place refuses more than it declares. -/
theorem refusals_stop_le (y : Stop) (c : Compilation) :
    refusals x ((collector m).stop s y c) ≤ refusals x c + y.names.count x := by
  cases y with
  | typeDecl D =>
    change refusals x (collectTypeDecl m s D c) ≤ _
    rw [collectTypeDecl_eq]
    exact refusals_declareWith_le m ⟨s, .type, D.name⟩ .field D.fieldNames c
  | declaring isConst targets values span => exact refusals_declareAll_le m s (varKind isConst) _ c
  | _ => exact Nat.le_add_right ..

/-- The head of a function or a method refuses no more than it declares. -/
theorem refusals_head_le (h : Head) (c : Compilation) :
    refusals x ((collector m).head s h c).2 ≤ refusals x c + h.names.count x := by
  obtain ⟨_ | receiver, name, params, ret⟩ := h
  · exact refusals_declareWith_le m ⟨s, .func, name⟩ .var (params.map Param.name) c
  · change refusals x (collectMethod m s receiver name params c).2 ≤ _
    cases hmembers : receiverMembers c.context.scopes s receiver with
    | error y =>
      rw [collectMethod_error hmembers,
        refusals_reportIn m y.1 (message_ne_of_receiverMembers hmembers)]
      exact Nat.le_add_right ..
    | ok members =>
      rw [collectMethod_eq hmembers]
      exact refusals_declareWith_le m ⟨members, .method, name⟩ .var
        ((receiver :: params).map Param.name) c

/-- An import refuses no declaration. -/
theorem refusals_collectImport (i : Import) (c : Compilation) :
    refusals x (collectImport m s i c).2 = refusals x c :=
  refusals_of_sameRefusals fun m' name => count_collectImport m s i c m' name

/-! ### The visit that refuses a declaration -/

/-- Declarations of other names are refused or not, but not this one. -/
theorem refusals_declareAll (kind : SymbolKind) {names : List Ident} (hnames : x ∉ names)
    (c : Compilation) : refusals x (c.declareAll m s kind names) = refusals x c := by
  have hle := refusals_declareAll_le (x := x) m s kind names c
  rw [List.count_eq_zero.mpr hnames] at hle
  exact hle.antisymm (refusals_le (edits_reportsEarly.declareAll c m s kind names))

/-- A place that does not declare a name does not refuse it. -/
theorem refusals_stop {y : Stop} (hx : x ∉ y.names) (c : Compilation) :
    refusals x ((collector m).stop s y c) = refusals x c := by
  have hle := refusals_stop_le (x := x) m s y c
  rw [List.count_eq_zero.mpr hx] at hle
  exact hle.antisymm (refusals_le (edits_reportsEarly.stop c m s y))

theorem refusals_head {h : Head} (hx : x ∉ h.names) (c : Compilation) :
    refusals x ((collector m).head s h c).2 = refusals x c := by
  have hle := refusals_head_le (x := x) m s h c
  rw [List.count_eq_zero.mpr hx] at hle
  exact hle.antisymm (refusals_le (edits_reportsEarly.head c m s h))

/-- Entering a module refuses no declaration. -/
theorem refusals_enter (key : String) (c : Compilation) :
    refusals x (collection.enter key c).2 = refusals x c := by
  change refusals x { c with
    context := (c.context.enter key .collected .collecting "symbol collection").2 } = _
  unfold Context.enter
  split
  · rfl
  · split
    · rfl
    · exact refusals_of_sameRefusals (sameRefusals_report c.context rfl)

/--
A declaration is refused with everything inside it, and all that is changed is the report; or it is
not refused.
-/
theorem declareWith_refuses {y : Declaration} (hname : y.name = x) (kind : SymbolKind)
    {names : List Ident} (hnames : x ∉ names) (c : Compilation) :
    ((declareWith m y kind names c).1 = none ∧ (declareWith m y kind names c).2.without x = c.without x ∧
        refusals x (declareWith m y kind names c).2 = refusals x c + 1) ∨
      refusals x (declareWith m y kind names c).2 = refusals x c := by
  have hself : (duplicateReport m y.name).refuses x = true := (refuses_duplicateReport m).mpr hname
  rw [declareWith]
  rcases declare_refuses m y.scope y.kind y.name c with h | h
  · rw [h]
    refine Or.inl ⟨rfl, ?_, ?_⟩
    · exact congrArg (Compilation.mk · c.loader) (report_recast_of_refuses hself)
    · exact (refusals_report c _).trans (by rw [hself]; rfl)
  · have hsame := h x
    generalize c.declare m y.scope y.kind y.name = r at hsame
    obtain ⟨_ | members, d⟩ := r
    · exact Or.inr hsame
    · exact Or.inr ((refusals_declareAll m members kind hnames d).trans hsame)

end

/-! ### Walks that come to a declaration -/

variable {walked : String}

/-- No edit takes a scope, a name or a program away. -/
theorem follows_retains : Follows fun c d => c.context.Retains d.context where
  refl c := .refl c.context
  trans := Retains.trans
  report _ _ _ := .of_modules rfl (.refl _)
  declare h := .of_modules rfl (ScopeForest.precedes_declare h)
  regraph _ _ := .of_modules rfl (.refl _)
  register c key file := by
    unfold register
    split
    · exact .refl _
    · next hfree =>
      rcases c.loader.load file with ⟨e | program, l⟩
      · exact .refl _
      · refine ⟨?_, fun hp => ?_⟩
        · dsimp only
          rw [addModule_eq (Bool.eq_false_iff.mpr hfree)]
          exact ScopeForest.precedes_openScope ..
        · obtain ⟨m, hm, rfl⟩ := Option.map_eq_some_iff.mp hp
          dsimp only
          rw [program?, module?_addModule (Bool.eq_false_iff.mpr hfree), hm, Option.some_or]
          rfl
  bind h := .of_modules rfl (ScopeForest.precedes_addImport h)
  setPhase c key := retains_setPhase c.context key _
  types _ _ hd := hd.retains
  problem _ _ _ := .of_modules rfl (.refl _)
  advance c key p := retains_setPhase c.context key p

/-- What collection enters is the module under the key. -/
theorem module?_of_enter {key : String} {m : Module}
    (h : collection.enter key c = (some m, d)) : d.context.module? key = some m := by
  rcases henter : c.context.enter key .collected .collecting "symbol collection" with ⟨m?, ctx⟩
  simp only [collection, henter, Prod.mk.injEq] at h
  obtain ⟨rfl, rfl⟩ := h
  obtain ⟨hm, -, rfl⟩ := enter_eq_some henter
  exact hm

/-- The walks over the module that declares a name pay for the visits that come to the name. -/
theorem pays_collection (x : Ident) (walked : String) : (collection.traced .collecting).Pays x
    (fun c => c.events.count (.walked .collecting walked))
    (fun c => c.state.context.Strays x walked) where
  stays := by
    have hevents : (collection.traced .collecting).Respects fun c d =>
        c.events.count (.walked .collecting walked) ≤ d.events.count (.walked .collecting walked) :=
      (collection.traced_grows .collecting).mono (fun _ => le_refl _) le_trans
        fun h => h.sublist.count_le _
    have hretains := follows_retains.collection.comap (collection.traced_projects .collecting)
    exact hevents.and (hretains.preserves Retains.strays)
  enter key c m hm := by
    simp only [Traversal.traced] at hm ⊢
    rcases henter : collection.enter key c.state with ⟨_ | m', d⟩
    · rw [henter] at hm
      cases hm
    · rw [henter] at hm
      obtain rfl : m' = m := Option.some.inj hm
      have hmodule := module?_of_enter henter
      by_cases hcount : m'.program.names.count x ≤ if key = walked then 1 else 0
      · refine Or.inl ?_
        simp only [Traced.note, Traced.put, List.count_append, List.count_singleton, beq_iff_eq,
          reduceCtorEq, if_false, Event.walked.injEq, true_and]
        omega
      · refine Or.inr ⟨key, m'.program, ?_, Nat.lt_of_not_le hcount⟩
        simp only [Traced.put, program?, hmodule, Option.map_some]

/-! ### Counted checks -/

/-- Checks that are traced, with the visits of a name counted. -/
def counter (x : Ident) : Ledger where
  Whole := Counted (Traced Compilation)
  Part := Traced Context
  whole c := c.state.state
  part := Traced.state
  put c d := ⟨c.state.put d, c.visits⟩
  focus c := c.state.put c.state.state.context
  restore c d := ⟨d.put { c.state.state with context := d.state }, c.visits⟩
  collection := (collection.traced .collecting).counted x
  traversal := Traversal.traced
  whole_put _ _ := rfl
  part_focus _ := rfl
  whole_restore _ _ := rfl
  collection_projects :=
    ((collection.traced .collecting).counted_projects x).trans (collection.traced_projects .collecting)
  traversal_projects := Traversal.traced_projects

/-- A counted check is traced. -/
theorem counter_collect (key : String) (c : Counted (Traced Compilation)) :
    ((counter x).collect key c).state = tracedCollect key c.state :=
  (((collection.traced .collecting).counted_projects x).runWithin _ key c).symm

theorem counter_andThen (t : Traversal Context) (pass : Pass) (key : String)
    (c : Counted (Traced Compilation)) :
    (counter x).andThen t pass key c = ⟨tracedThen t pass key c.state, c.visits⟩ := by
  by_cases hfatal : c.state.state.context.diagnostics.hasFatal = true
  · exact (if_pos hfatal).trans (congrArg (Counted.mk · c.visits) (if_pos hfatal).symm)
  · exact (if_neg hfatal).trans (congrArg (Counted.mk · c.visits) (if_neg hfatal).symm)

/-- The walks over a module have paid for all visits of a name, unless it is declared elsewhere. -/
structure Counts (x : Ident) (walked : String) (c : Counted (Traced Compilation)) : Prop where
  /-- No module has been walked twice. -/
  inOrder : InOrder c.state
  /-- The walks have paid for the visits. -/
  paid : c.visits ≤ c.state.events.count (.walked .collecting walked) ∨
    c.state.state.context.Strays x walked

variable {l : Loader} {needed : Path → Prop} {roots : String → Prop}
  {e : Counted (Traced Compilation)} {key : String}

/-- The passes behind collection come to no more declarations. -/
private theorem Counts.andThen (h : Counts x walked e) {visitor : Module → Visitor Context}
    {target p : Phase} {pass : Pass} {activity : String} (hv : ∀ m, Filling (visitor m))
    (hi : ∀ m, (visitor m).importing = nextModule target) (hgoal : pass.goal = target)
    (ht : target.previous? = some p) (hp : Phase.parsed ≤ p) (hl : e.state.state.context.Linked)
    (hle : p ≤ e.state.state.context.phase key) :
    Counts x walked ((counter x).andThen (traversal target pass activity visitor) pass key e) := by
  rw [counter_andThen]
  refine ⟨h.inOrder.passing hv hi hgoal ht hp hl hle, h.paid.imp (fun hpaid => ?_) ?_⟩
  · have hgrows : e.state.events <+:
        (tracedThen (traversal target pass activity visitor) pass key e.state).events := by
      unfold tracedThen
      split
      · exact List.prefix_rfl
      · exact ((traversal target pass activity visitor).traced_grows pass).runWithin _ key
          (e.state.put e.state.state.context)
    exact hpaid.trans (hgrows.sublist.count_le _)
  · have hstate : (tracedThen (traversal target pass activity visitor) pass key e.state).state =
        e.state.state.andThen (traverse (traversal target pass activity visitor) key) :=
      tracer.ledger.whole_andThen _ pass key e.state
    dsimp only
    rw [hstate]
    exact (follows_retains.stages.andThen key e.state.state target pass activity hv hi).strays

/-- The walks go on to pay for the visits along a check. -/
private theorem keeps_counts (hclosed : l.Closed needed) :
    (counter x).Keeps l needed roots (Counts x walked) where
  put {c d} h hd _ :=
    ⟨Traced.Orderly.put h.inOrder (fun _ _ hw => hw.trans (hd.onward.phase_le _))
      fun _ hk => hd.onward.hasModule hk, h.paid.imp_right hd.onward.retains.strays⟩
  collect {key c} h hready := by
    have hpays := (pays_collection x walked).runWithin
      (c.state.state.context.modules.length + c.state.state.loader.store.size + 1) key c
    change ((counter x).collect key c).visits + _ ≤
      _ + ((counter x).collect key c).state.events.count _ ∨
        ((counter x).collect key c).state.state.context.Strays x walked at hpays
    have horderly := h.inOrder.collect hclosed hready
    refine ⟨(counter_collect key c).symm ▸ horderly, ?_⟩
    rcases h.paid with hpaid | hstrays
    · exact hpays.imp_left fun hpays => by omega
    · have hretains := follows_retains.collect c.state.state key
      have hwhole : ((counter x).collect key c).state.state = c.state.state.collect key :=
        (counter x).whole_collect key c
      exact Or.inr (hwhole ▸ hretains.strays hstrays)
  resolve h hl hle := h.andThen filling_resolver (fun _ => rfl) rfl rfl (by decide) hl hle
  typecheck h hl hle := h.andThen filling_checker (fun _ => rfl) rfl rfl (by decide) hl hle

/-- Counted checks, from the start. -/
def countedCheckAll (x : Ident) (l : Loader) (entries : List Path) : Counted (Traced Compilation) :=
  (counter x).checkAll entries ⟨.start (new l), 0⟩

theorem state_countedCheckAll (x : Ident) (l : Loader) (entries : List Path) :
    (countedCheckAll x l entries).state.state = checkAll entries (new l) :=
  (counter x).whole_checkAll entries ⟨.start (new l), 0⟩

/-- Collection comes only once to a name that a module declares. -/
theorem visits_le_one (l : Loader) (entries : List Path) {m : Module}
    (hm : m ∈ (checkAll entries (new l)).context.modules) (hx : x ∈ m.program.names) :
    (countedCheckAll x l entries).visits ≤ 1 := by
  have hclosed : l.Closed fun _ => True := fun _ _ _ _ => trivial
  have hstart : Counts x m.key ⟨.start (new l), 0⟩ :=
    ⟨⟨rfl, by simp [Traced.start], by simp [Traced.start], by simp [Traced.start],
      by simp [Traced.start]⟩, Or.inl (Nat.zero_le _)⟩
  have hcounts := (keeps_counts hclosed).checkAll hstart (settled_new l _ fun _ => True) hclosed
    (fun _ => trivial) (fun _ => trivial) entries
  have hstrays : ¬ (countedCheckAll x l entries).state.state.context.Strays x m.key := by
    rw [state_countedCheckAll]
    exact (numbered_checkAll l entries).not_strays hm hx
  exact (hcounts.paid.resolve_right hstrays).trans (hcounts.inOrder.once ..)

end Compilation

end Sable
