import Sable.Proofs.Compilation.Counting

/-!
# Checks without a refused declaration

A check is run beside one of the same programs without a declaration. When collection comes to the
declaration it reports it as refused, and nothing else; the later passes come to it again, and find no
scope for what stands inside it, since no name is bound at its place. So both checks leave the same
behind but for the report. Otherwise the declaration has left a trace, which stays to the end.
-/

namespace Sable

namespace Compilation

open Context

variable {x : Ident} {c d : Compilation}

/-! ### Collection -/

/-- A compilation is another one without a declaration, which each visit has refused. -/
def Omitted (x : Ident) (c : Counted Compilation) (d : Compilation) : Prop :=
  d = c.state.without x ∧ refusals x c.state = c.visits

/-- A declaration has not been refused by some visit, or cannot be struck out. -/
def Kept (x : Ident) (c : Counted Compilation) : Prop :=
  refusals x c.state < c.visits ∨ c.state.context.Clings x

/-- No more declarations are refused than visited on the way, and nothing gets lost. -/
structure Paces (x : Ident) (c d : Counted Compilation) : Prop where
  /-- Each refusal is one of a visit. -/
  refused : refusals x d.state + c.visits ≤ refusals x c.state + d.visits
  /-- Scopes, names and programs stay. -/
  retains : c.state.context.Retains d.state.context

theorem Paces.trans {c d e : Counted Compilation} (h : Paces x c d) (h' : Paces x d e) :
    Paces x c e :=
  ⟨by have := h.refused; have := h'.refused; omega, h.retains.trans h'.retains⟩

/-- Where no visit is made and nothing is refused, the pace is kept. -/
theorem Paces.of_refusals {n : Nat} (hsame : refusals x d = refusals x c)
    (hd : c.context.Retains d.context) : Paces x ⟨c, n⟩ ⟨d, n⟩ := ⟨by rw [hsame], hd⟩

/-- What is kept stays so. -/
theorem Paces.kept {c d : Counted Compilation} (h : Paces x c d) (hkept : Kept x c) : Kept x d :=
  hkept.imp (fun hlt => by have := h.refused; omega) h.retains.clings

/-- Collection keeps the pace. -/
theorem respects_paces : (collection.counted x).Respects (Paces x) := by
  have hcounts : (collection.counted x).Respects fun c d =>
      refusals x d.state + c.visits ≤ refusals x c.state + d.visits := by
    constructor
    · exact fun _ => le_refl _
    · intro c d e h h'
      omega
    · exact fun key c => Nat.add_le_add_right (refusals_enter key c.state).le _
    · intro m s i c
      have himport := refusals_collectImport (x := x) m s i c.state
      have hvisited : (((collection.counted x).visitor m).importing s i c).2 =
          ⟨(collectImport m s i c.state).2, c.visits⟩ := rfl
      rw [hvisited]
      generalize collectImport m s i c.state = r at himport ⊢
      exact Nat.add_le_add_right himport.le c.visits
    · intro m s y c
      have hle := refusals_stop_le (x := x) m s y c.state
      have hstop : ((collection.counted x).visitor m).stop s y c =
        ⟨(collector m).stop s y c.state, c.visits + y.names.count x⟩ := Visitor.counted_stop s y c
      rw [hstop]
      dsimp only
      omega
    · intro m s h c
      have hle := refusals_head_le (x := x) m s h c.state
      have hhead : ((collection.counted x).visitor m).head s h c =
        ((collector m).head s h c.state).map id (⟨·, c.visits + h.names.count x⟩) :=
        Visitor.counted_head s h c
      rw [hhead]
      dsimp only [Prod.map]
      omega
    · exact fun key c => Nat.add_le_add_right (refusals_of_sameRefusals
        (sameRefusals_of_eq (diagnostics_setPhase ..))).le _
    · exact fun _ _ => le_refl _
  have hretains := follows_retains.collection.comap (collection.counted_projects x)
  exact (hcounts.and hretains).mono (fun c => ⟨le_refl _, .refl _⟩) Paces.trans
    fun h => ⟨h.1, h.2⟩

variable (m : Module) (s : ScopeId) {n : Nat}

/-- A place that declares other names is visited alike. -/
private theorem omitted_other (h : Omitted x ⟨c, n⟩ (c.without x)) {names : List Ident}
    (hx : x ∉ names) (hsame : refusals x d = refusals x c) :
    Omitted x ⟨d, n + names.count x⟩ (d.without x) :=
  ⟨rfl, by rw [List.count_eq_zero.mpr hx]; exact hsame.trans h.2⟩

/-- The place of the declaration is visited with the declaration refused, or it is kept. -/
private theorem omitted_self (h : Omitted x ⟨c, n⟩ d) {y : Declaration} (hname : y.name = x)
    (kind : SymbolKind) {names : List Ident} (hnames : x ∉ names) :
    ((declareWith m y kind names c).1 = none ∧
        Omitted x ⟨(declareWith m y kind names c).2, n + (x :: names).count x⟩ d) ∨
      Kept x ⟨(declareWith m y kind names c).2, n + (x :: names).count x⟩ := by
  obtain ⟨rfl, hcount⟩ := h
  rw [List.count_cons_self, List.count_eq_zero.mpr hnames]
  dsimp only at hcount
  rcases declareWith_refuses m hname kind hnames c with ⟨hnone, hwithout, hmore⟩ | hsame
  · exact Or.inl ⟨hnone, hwithout.symm, hmore.trans (congrArg (· + 1) hcount)⟩
  · exact Or.inr (Or.inl (by dsimp only; omega))

/-- The visits of collection keep the compilations in step. -/
private theorem omits_collector : ((collector m).counted x).Omits x (Omitted x) (Kept x)
    ((collectionWith (Program.without x)).visitor (m.without x)) where
  importing {s c d} i h := by
    obtain ⟨rfl, hcount⟩ := h
    change _ = (collectImportWith _ (m.without x) s i (c.state.without x)).1 ∧
      Omitted x _ (collectImportWith _ (m.without x) s i (c.state.without x)).2
    have hvisited : ((collector m).counted x).importing s i c =
        ((collectImport m s i c.state).1, ⟨(collectImport m s i c.state).2, c.visits⟩) := rfl
    have hrefusals := (refusals_collectImport (x := x) m s i c.state).trans hcount
    rw [collectImportWith_without, hvisited]
    generalize collectImport m s i c.state = r at hrefusals ⊢
    exact ⟨rfl, rfl, hrefusals⟩
  function {s c d name params} ret h hname hparams := by
    obtain ⟨rfl, hcount⟩ := h
    have hx : x ∉ (Head.mk none name params ret).names :=
      List.not_mem_cons_of_ne_of_not_mem hname.symm hparams
    change _ = (collectFunction (m.without x) s name params (c.state.without x)).1 ∧
      Omitted x _ (collectFunction (m.without x) s name params (c.state.without x)).2
    rw [collectFunction_recast m s hname hparams]
    exact ⟨rfl, omitted_other ⟨rfl, hcount⟩ hx (refusals_head m s hx c.state)⟩
  method {s c d receiver name params} ret h hname hparams := by
    obtain ⟨rfl, hcount⟩ := h
    have hx : x ∉ (Head.mk (some receiver) name params ret).names :=
      List.not_mem_cons_of_ne_of_not_mem hname.symm hparams
    change _ = (collectMethod (m.without x) s receiver name params (c.state.without x)).1 ∧
      Omitted x _ (collectMethod (m.without x) s receiver name params (c.state.without x)).2
    rw [collectMethod_recast m s hname hparams]
    exact ⟨rfl, omitted_other ⟨rfl, hcount⟩ hx (refusals_head m s hx c.state)⟩
  typeDecl {s c d D} h hname hfields := by
    obtain ⟨rfl, hcount⟩ := h
    have hx : x ∉ (Stop.typeDecl D).names :=
      List.not_mem_cons_of_ne_of_not_mem hname.symm hfields
    change Omitted x _ (collectTypeDecl (m.without x) s D (c.state.without x))
    rw [collectTypeDecl_recast m s hname hfields]
    exact omitted_other ⟨rfl, hcount⟩ hx (refusals_stop m s hx c.state)
  declaring {s c d targets} isConst values span h hx := by
    obtain ⟨rfl, hcount⟩ := h
    change Omitted x _ ((c.state.without x).declareAll (m.without x) s (varKind isConst)
      (targets.map VarBinder.name))
    rw [declareAll_recast m s (varKind isConst) hx]
    exact omitted_other ⟨rfl, hcount⟩ hx (refusals_declareAll m s (varKind isConst) hx c.state)
  declared _ _ h := h
  assigning _ _ _ h := h
  name _ h := h
  qualified _ _ h := h
  omittedFunction {s c d params} ret h hparams :=
    omitted_self m (y := ⟨s, .func, x⟩) h rfl .var hparams
  omittedMethod {s c d receiver params} ret h hparams := by
    change ((collectMethod m s receiver x params c.state).1 = none ∧
      Omitted x ⟨(collectMethod m s receiver x params c.state).2, _⟩ d) ∨
        Kept x ⟨(collectMethod m s receiver x params c.state).2, _⟩
    cases hmembers : receiverMembers c.state.context.scopes s receiver with
    | error y =>
      -- The receiver is rejected, so that the declaration itself is not refused.
      rw [collectMethod_error hmembers]
      refine Or.inr (Or.inl ?_)
      have hsame := refusals_reportIn (x := x) (c := c.state) m y.1
        (message_ne_of_receiverMembers hmembers)
      have hcount := h.2
      dsimp only
      rw [hsame, Head.names, List.count_cons_self]
      omega
    | ok members =>
      rw [collectMethod_eq hmembers]
      exact omitted_self m (y := ⟨members, .method, x⟩) h rfl .var hparams
  omittedType {s c d D} h hname hfields := by
    change InStepOr (Omitted x) (Kept x)
      ⟨collectTypeDecl m s D c.state, c.visits + (D.name :: D.fieldNames).count x⟩ d
    rw [collectTypeDecl_eq, hname]
    exact (omitted_self m (y := ⟨s, .type, x⟩) h rfl .field hfields).imp_left And.right

/-- Collection leaves the same behind, but for the report, or the declaration is kept. -/
theorem omits_collection : (collection.counted x).Omits x (Omitted x) (Kept x)
    (collectionWith (Program.without x)) where
  enter key c d h := by
    obtain ⟨rfl, hcount⟩ := h
    have hrecast : collection.enter key (c.state.without x) =
        ((collection.enter key c.state).1.map (Module.without x),
          (collection.enter key c.state).2.without x) := by
      have henter := @enter_recast x (fun _ => Program.without x) c.state.context
        key .collected .collecting "symbol collection"
      simp only [collection]
      exact congrArg (fun r => (r.1, Compilation.mk r.2 c.state.loader)) henter
    by_cases hinner : ∀ m ∈ (collection.enter key c.state).1, .inner x ∉ m.program.binders
    · refine Or.inl ⟨?_, congrArg Prod.fst hrecast, hinner⟩
      exact ⟨congrArg Prod.snd hrecast, (refusals_enter key c.state).trans hcount⟩
    · simp only [not_forall, not_not] at hinner
      obtain ⟨m, hm, hx⟩ := hinner
      have hmodule := module?_of_enter (d := (collection.enter key c.state).2) (Prod.ext hm rfl)
      exact Or.inr (Or.inr (Or.inr ⟨key, m.program, congrArg (Option.map Module.program) hmodule, hx⟩))
  visitor m := omits_collector m
  leave key c d h := by
    obtain ⟨rfl, hcount⟩ := h
    refine ⟨congrArg (Compilation.mk · c.state.loader) (setPhase_recast key .collected), ?_⟩
    exact (refusals_of_sameRefusals (sameRefusals_of_eq (diagnostics_setPhase ..))).trans hcount
  giveUp _ _ _ h := h
  off := respects_paces.preserves Paces.kept

/-! ### Whole checks -/

/-- A counted check without its trace. -/
def bare (e : Counted (Traced Compilation)) : Counted Compilation := ⟨e.state.state, e.visits⟩

variable {e : Counted (Traced Compilation)} {key : String} {entry : Path}

/-- A counted check collects as it would without a trace. -/
private theorem bare_collect (key : String) (e : Counted (Traced Compilation)) :
    bare ((counter x).collect key e) = (collection.counted x).runWithin
      (e.state.state.context.modules.length + e.state.state.loader.store.size + 1) key (bare e) :=
  (((collection.traced_projects .collecting).counted x).runWithin _ key e).symm

private theorem bare_andThen (t : Traversal Context) (pass : Pass) (key : String)
    (e : Counted (Traced Compilation)) :
    bare ((counter x).andThen t pass key e) =
      ⟨e.state.state.andThen (traverse t key), e.visits⟩ := by
  have hvisits : Counted.visits ((counter x).andThen t pass key e) = e.visits := by
    rw [counter_andThen]
  exact congrArg₂ Counted.mk ((counter x).whole_andThen t pass key e) hvisits

section

variable {visitor : Module → Visitor Context} (target : Phase) (pass : Pass) (activity : String)
  (hv : ∀ m, Filling (visitor m)) (hi : ∀ m, (visitor m).importing = nextModule target)
include hv hi

/-- A pass behind collection refuses no declaration. -/
private theorem refusals_andThen (key : String) (c : Compilation) :
    refusals x (c.andThen (traverse (traversal target pass activity visitor) key)) = refusals x c := by
  unfold Compilation.andThen
  split
  · rfl
  · exact refusals_of_sameRefusals (sameRefusals_traverse target pass activity hv hi key c.context)

private theorem paces_andThen (key : String) (e : Counted (Traced Compilation)) :
    Paces x (bare e)
      (bare ((counter x).andThen (traversal target pass activity visitor) pass key e)) := by
  rw [bare_andThen]
  exact .of_refusals (refusals_andThen target pass activity hv hi key e.state.state)
    (follows_retains.stages.andThen key e.state.state target pass activity hv hi)

/-- A pass behind collection leaves the same behind, or the declaration is kept. -/
private theorem Omitted.andThen {c : Counted Compilation} (h : Omitted x c d)
    (hvisits : ∀ m, (visitor m).Omits x (Context.Omitted x) (Clings x) (visitor (m.without x)))
    (key : String) : InStepOr (Omitted x) (Kept x)
      ⟨c.state.andThen (traverse (traversal target pass activity visitor) key), c.visits⟩
      (d.andThen (traverse (traversal target pass activity visitor) key)) := by
  obtain ⟨rfl, hcount⟩ := h
  have hrefusals := refusals_andThen (x := x) target pass activity hv hi key c.state
  have hlength : (c.state.without x).context.modules.length = c.state.context.modules.length :=
    List.length_map ..
  have hrun := (omits_traversal target pass activity hv hi hvisits).runWithin
    (c.state.context.modules.length + 1) key (Or.inl (rfl : Context.Omitted x c.state.context _))
  unfold Compilation.andThen at hrefusals ⊢
  by_cases hfatal : c.state.context.diagnostics.hasFatal = true
  · have hfatal' : (c.state.without x).context.diagnostics.hasFatal = true := hfatal
    rw [if_pos hfatal, if_pos hfatal']
    exact Or.inl ⟨rfl, hcount⟩
  · have hfatal' : ¬ (c.state.without x).context.diagnostics.hasFatal = true := hfatal
    rw [if_neg hfatal] at hrefusals
    rw [if_neg hfatal, if_neg hfatal']
    unfold Context.traverse at hrefusals ⊢
    rw [update, update, hlength]
    refine hrun.imp (fun homitted => ⟨?_, hrefusals.trans hcount⟩) Or.inr
    exact congrArg (Compilation.mk · c.state.loader) homitted

end

/-- Registering a module refuses no declaration. -/
private theorem refusals_register (key : String) (file : Path) (c : Compilation) :
    refusals x (c.register key file).2 = refusals x c := by
  unfold register
  split
  · rfl
  · next hfree =>
    rcases c.loader.load file with ⟨e | program, l⟩
    · rfl
    · dsimp only
      rw [addModule_eq (Bool.eq_false_iff.mpr hfree)]
      rfl

/-- Collection, counted, leaves the same behind, or the declaration is kept. -/
private theorem Omitted.collect (h : Omitted x (bare e) d) (key : String) :
    InStepOr (Omitted x) (Kept x) (bare ((counter x).collect key e))
      (d.collectWith (Program.without x) key) := by
  obtain ⟨rfl, hcount⟩ := h
  have hlength : ((bare e).state.without x).context.modules.length =
      e.state.state.context.modules.length := List.length_map ..
  rw [bare_collect, collectWith, hlength]
  exact omits_collection.runWithin _ key (Or.inl ⟨rfl, hcount⟩)

private theorem paces_collect (key : String) (e : Counted (Traced Compilation)) :
    Paces x (bare e) (bare ((counter x).collect key e)) := by
  rw [bare_collect]
  exact respects_paces.runWithin _ key (bare e)

/-- All passes together leave the same behind, or the declaration is kept. -/
private theorem Omitted.runPasses (h : Omitted x (bare e) d) (key : String) :
    InStepOr (Omitted x) (Kept x) (bare ((counter x).runPasses key e))
      (d.runPassesWith (Program.without x) key) := by
  have hcollected := h.collect key
  have hresolved : InStepOr (Omitted x) (Kept x)
      (bare ((counter x).andThen resolution .resolving key ((counter x).collect key e)))
      ((d.collectWith (Program.without x) key).andThen (resolve key)) := hcollected.elim
    (fun hA => (congrArg (InStepOr (Omitted x) (Kept x) · _) (bare_andThen ..)).mpr
      (hA.andThen .resolved .resolving "resolution" filling_resolver (fun _ => rfl)
        omits_resolver key))
    (paces_andThen .resolved .resolving "resolution" filling_resolver (fun _ => rfl) key _).kept
  exact hresolved.elim
    (fun hA => (congrArg (InStepOr (Omitted x) (Kept x) · _) (bare_andThen ..)).mpr
      (hA.andThen .typechecked .typechecking "type checking" filling_checker (fun _ => rfl)
        omits_checker key))
    (paces_andThen .typechecked .typechecking "type checking" filling_checker (fun _ => rfl)
      key _).kept

/-- A counted check goes on as the registration of its entry has ended. -/
private def countedFrom (x : Ident) (entry : Path) (key : String) (e : Counted (Traced Compilation)) :
    Except LoadError Unit × Compilation → Counted (Traced Compilation)
  | (.ok _, d) => (counter x).runPasses key ⟨e.state.put d, e.visits⟩
  | (.error (.read _), d) => ⟨e.state.put d, e.visits⟩
  | (.error (.grammar r), d) =>
    ⟨e.state.put (d.update fun ctx => ctx.report (loadReport entry (.grammar r))), e.visits⟩

private theorem counter_check (entry : Path) (e : Counted (Traced Compilation)) :
    (counter x).check entry e = countedFrom x entry (e.state.state.loader.moduleKey entry) e
      ((e.state.state.asked (e.state.state.loader.moduleKey entry)).register
        (e.state.state.loader.moduleKey entry) entry) := by
  change (match (e.state.state.asked (e.state.state.loader.moduleKey entry)).register
    (e.state.state.loader.moduleKey entry) entry with
    | (.ok _, d) => _ | (.error (.read _), d) => _ | (.error (.grammar r), d) => _) = _
  generalize (e.state.state.asked _).register _ entry = r
  obtain ⟨(_ | _) | _, d⟩ := r <;> rfl

/-- A check keeps the pace. -/
private theorem paces_check (entry : Path) (e : Counted (Traced Compilation)) :
    Paces x (bare e) (bare ((counter x).check entry e)) := by
  have hasked : Paces x (bare e)
      ⟨e.state.state.asked (e.state.state.loader.moduleKey entry), e.visits⟩ :=
    .of_refusals rfl (.of_modules rfl (.refl _))
  rcases hreg : (e.state.state.asked (e.state.state.loader.moduleKey entry)).register
    (e.state.state.loader.moduleKey entry) entry with ⟨r, d⟩
  have hregister : Paces x (bare e) ⟨d, e.visits⟩ := by
    refine hasked.trans (.of_refusals ?_ ?_)
    · exact (congrArg (refusals x) (congrArg Prod.snd hreg)).symm.trans (refusals_register ..)
    · obtain rfl : (_ : Compilation) = d := congrArg Prod.snd hreg
      exact follows_retains.register _ _ entry
  rw [counter_check, hreg]
  rcases r with (_ | r) | _
  · exact hregister
  · refine hregister.trans (.of_refusals ?_ (.of_modules rfl (.refl _)))
    exact refusals_of_sameRefusals (sameRefusals_report d.context rfl)
  · refine hregister.trans ((paces_collect (e.state.state.loader.moduleKey entry)
      ⟨e.state.put d, e.visits⟩).trans ?_)
    exact (paces_andThen .resolved .resolving "resolution" filling_resolver (fun _ => rfl) _ _).trans
      (paces_andThen .typechecked .typechecking "type checking" filling_checker (fun _ => rfl) _ _)

/-- A check leaves the same behind, or the declaration is kept. -/
private theorem Omitted.check (h : Omitted x (bare e) d) (entry : Path) :
    InStepOr (Omitted x) (Kept x) (bare ((counter x).check entry e))
      (d.checkWith (Program.without x) entry).2 := by
  obtain ⟨rfl, hcount⟩ := h
  rcases hreg : (e.state.state.asked (e.state.state.loader.moduleKey entry)).register
    (e.state.state.loader.moduleKey entry) entry with ⟨r, d⟩
  have hwithout := registerWith_without x (e.state.state.loader.moduleKey entry) entry
    (e.state.state.asked (e.state.state.loader.moduleKey entry))
  rw [hreg] at hwithout
  have hregister : Omitted x ⟨d, e.visits⟩ (d.without x) :=
    ⟨rfl, ((congrArg (refusals x) (congrArg Prod.snd hreg)).symm.trans
      (refusals_register ..)).trans hcount⟩
  have hcheck : ((bare e).state.without x).checkWith (Program.without x) entry =
      match ((e.state.state.asked (e.state.state.loader.moduleKey entry)).without x).registerWith
        (Program.without x) (e.state.state.loader.moduleKey entry) entry with
      | (.ok _, c) => (.ok (e.state.state.loader.moduleKey entry),
        c.runPassesWith (Program.without x) (e.state.state.loader.moduleKey entry))
      | (.error (.read r), c) => (.error r, c)
      | (.error (.grammar r), c) => (.ok (e.state.state.loader.moduleKey entry),
        c.update fun ctx => ctx.report (loadReport entry (.grammar r))) := rfl
  rw [counter_check, hreg, hcheck, hwithout]
  rcases r with (_ | r) | _
  · exact Or.inl hregister
  · refine Or.inl ⟨report_recast rfl, ?_⟩
    exact (refusals_of_sameRefusals (sameRefusals_report d.context rfl)).trans hregister.2
  · exact Omitted.runPasses (e := ⟨e.state.put d, e.visits⟩) hregister _

/-- Checks leave the same behind, or the declaration is kept. -/
private theorem omitted_checkAll (entries : List Path) (h : InStepOr (Omitted x) (Kept x) (bare e) d) :
    InStepOr (Omitted x) (Kept x) (bare ((counter x).checkAll entries e))
      (d.checkAllWith (Program.without x) entries) := by
  induction entries generalizing e d with
  | nil => exact h
  | cons entry entries ih =>
    exact ih (e := (counter x).check entry e)
      (h.elim (fun hA => hA.check entry) (paces_check entry e).kept)

/-! ### The declaration that is refused -/

/--
What a compilation leaves behind of the same programs without a declaration: the same but for the
declaration in the program of its module, and for the one report that it is refused.
-/
structure LeavesOut (m : Module) (x : Ident) (c d : Compilation) : Prop where
  /-- The scopes with all names and their types. -/
  scopes : d.context.scopes = c.context.scopes
  /-- The edges between modules. -/
  graph : d.context.graph = c.context.graph
  /-- The modules with their keys, files, scopes and phases. -/
  modules : d.context.modules = c.context.modules.map (Module.without x)
  /-- Only the module of the declaration has another program. -/
  others : ∀ m' ∈ c.context.modules, m' ≠ m → Module.without x m' = m'
  /-- The module that has been asked for. -/
  entry? : d.context.entry? = c.context.entry?
  /-- The names that a module is shown with. -/
  outline : ∀ key, Compilation.outline key d = Compilation.outline key c
  /-- The files that have been read. -/
  loader : d.loader = c.loader
  /-- The reports in the same order. -/
  reports : ∃ before after,
    c.context.diagnostics.items = before ++ duplicateReport m x :: after ∧
      d.context.diagnostics.items = before ++ after

/-- A name that is declared by a statement is declared by nothing else in its module. -/
private theorem not_mem_inner {m : Module} {D : Stmt} (hnodup : m.program.names.Nodup)
    (hD : .statement D x ∈ m.program.binders) : .inner x ∉ m.program.binders := by
  intro hinner
  have heq := List.inj_on_of_nodup_map hnodup hD hinner rfl
  cases heq

/-- Of the reports that a declaration is refused, one is left out. -/
private theorem items_without {m : Module} {c : Compilation} (hrefusals : refusals x c ≤ 1)
    (hmem : duplicateReport m x ∈ c.context.diagnostics.items) :
    ∃ before after, c.context.diagnostics.items = before ++ duplicateReport m x :: after ∧
      (c.without x).context.diagnostics.items = before ++ after := by
  obtain ⟨before, after, hitems⟩ := List.append_of_mem hmem
  have hrefuses : (duplicateReport m x).refuses x = true := (refuses_duplicateReport m).mpr rfl
  rw [refusals, hitems, List.countP_append, List.countP_cons_of_pos hrefuses] at hrefusals
  have hkeep : ∀ es : List Diagnostic, es.countP (Diagnostic.refuses x) = 0 →
      es.filter (fun e => !e.refuses x) = es := fun es hes =>
    List.filter_eq_self.mpr fun e he => by
      rw [Bool.eq_false_iff.mpr (List.countP_eq_zero.mp hes e he)]
      rfl
  refine ⟨before, after, hitems, ?_⟩
  change c.context.diagnostics.items.filter _ = _
  rw [hitems, List.filter_append, List.filter_cons_of_neg (by rw [hrefuses]; decide),
    hkeep before (by omega), hkeep after (by omega)]

/--
A declaration that is refused leaves no trace. If a module has a statement that declares a function,
a method or a type, at any depth, and the statement has been refused because the name is declared
already, then checks of the same files without that statement leave the same scopes, edges, modules and
phases behind, and the same reports but for the one that refuses the statement.
-/
theorem checkAll_without_refused (l : Loader) (entries : List Path) {m : Module} {D : Stmt}
    (hm : m ∈ (checkAll entries (new l)).context.modules)
    (hD : .statement D x ∈ m.program.binders)
    (hrefused : duplicateReport m x ∈ (checkAll entries (new l)).context.diagnostics.items) :
    LeavesOut m x (checkAll entries (new l)) (checkAllWith (Program.without x) entries (new l)) := by
  obtain ⟨hx, -, hbears⟩ := refused_checkAll l entries hm hrefused
  have hvisits := visits_le_one l entries hm hx
  have hnumbered := numbered_checkAll l entries
  have hstate : (bare (countedCheckAll x l entries)).state = checkAll entries (new l) :=
    state_countedCheckAll x l entries
  have hstart : InStepOr (Omitted x) (Kept x)
      (bare (⟨.start (new l), 0⟩ : Counted (Traced Compilation))) (new l) := Or.inl ⟨rfl, rfl⟩
  have hrun := omitted_checkAll entries hstart
  change InStepOr (Omitted x) (Kept x) (bare (countedCheckAll x l entries)) _ at hrun
  have hpos : 0 < refusals x (checkAll entries (new l)) :=
    List.countP_pos_iff.mpr ⟨_, hrefused, (refuses_duplicateReport m).mpr rfl⟩
  have hnotKept : ¬ Kept x (bare (countedCheckAll x l entries)) := by
    rintro (hlt | hbears' | ⟨key, p, hp, hinner⟩)
    · rw [hstate] at hlt
      have hlt' := hlt.trans_le hvisits
      omega
    · exact hbears (hstate ▸ hbears')
    · rw [hstate] at hp
      obtain ⟨m', hm', rfl⟩ := Option.map_eq_some_iff.mp hp
      obtain rfl := hnumbered.eq_of_mem_names hm (mem_of_module? hm').1 hx
        (List.mem_map_of_mem hinner)
      exact not_mem_inner (hnumbered.nodup_names hm) hD hinner
  obtain ⟨hd, hcount⟩ := hrun.resolve_right hnotKept
  rw [hstate] at hd hcount
  have hone : refusals x (checkAll entries (new l)) ≤ 1 := hcount.le.trans hvisits
  rw [hd]
  exact {
    scopes := rfl
    graph := rfl
    modules := rfl
    others := fun m' hm' hne => by
      have hfree : x ∉ m'.program.names := fun hx' =>
        hne (hnumbered.eq_of_mem_names hm hm' hx hx').symm
      rw [Module.without, Program.without_eq_self hfree]
    entry? := rfl
    outline := fun key => by
      simp only [Compilation.outline, registered, recast, update, module?_recast]
      cases (checkAll entries (new l)).context.module? key <;> rfl
    loader := rfl
    reports := items_without hone hrefused }

/-- The file `a.sbl`, in which the second function is refused with all that stands inside it. -/
def refusedFunction : Loader := .new (.ofRoot ⟨""⟩)
  (.memory [(⟨"a.sbl"⟩, "fn f() { } fn g() { fn f() { } fn f(p: q) { gone; } }")])

/-- The inner one of two functions of the same name is refused, and may as well be struck out. -/
theorem exists_leavesOut_refusedFunction : ∃ m D x,
    m ∈ (checkAll [⟨"a.sbl"⟩] (new refusedFunction)).context.modules ∧
    .statement D x ∈ m.program.binders ∧
    duplicateReport m x ∈
      (checkAll [⟨"a.sbl"⟩] (new refusedFunction)).context.diagnostics.items ∧
    LeavesOut m x (checkAll [⟨"a.sbl"⟩] (new refusedFunction))
      (checkAllWith (Program.without x) [⟨"a.sbl"⟩] (new refusedFunction)) := by
  have hfound : ((checkAll [⟨"a.sbl"⟩] (new refusedFunction)).context.modules.any fun m =>
      m.program.binders.any fun b => b.isStatement &&
        (checkAll [⟨"a.sbl"⟩] (new refusedFunction)).context.diagnostics.items.contains
          (duplicateReport m b.name)) = true := by decide +kernel
  obtain ⟨m, hm, hbinders⟩ := List.any_eq_true.mp hfound
  obtain ⟨D | _, hD, hcontains⟩ := List.any_eq_true.mp hbinders
  · have hrefused := List.contains_iff_mem.mp (Bool.and_eq_true_iff.mp hcontains).2
    exact ⟨m, D, _, hm, hD, hrefused,
      checkAll_without_refused refusedFunction [⟨"a.sbl"⟩] hm hD hrefused⟩
  · cases hcontains

end Compilation

end Sable
