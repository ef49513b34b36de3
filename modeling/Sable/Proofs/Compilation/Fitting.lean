import Sable.Proofs.Compilation.Recording
import Sable.Proofs.Context.Attaching
import Sable.Proofs.Context.Fitting

/-!
# Initial values behind a check

As long as nothing is reported, every written type of a variable means something. So a variable
with an annotation has a type in each module that has been resolved, and type checking compares
each of its initial values with this type. What a check without errors leaves behind fits, but
for values whose types become known too late.
-/

namespace Sable

namespace Context

/-- The variables of a module that have an annotation and are bound by it have a type. -/
def Annotated (ctx : Context) (m : Module) : Prop :=
  ∀ s targets values, .stop s (.declared targets values) ∈ ctx.scopes.itinerary m →
    ∀ target ∈ targets, target.ty?.isSome → ctx.scopes.binds s target.name = true →
      (ctx.scopes.typeOf? s target.name.name).isSome

/-- Unless an error has been reported, the variables of resolved modules are annotated. -/
def Annotates (ctx : Context) : Prop :=
  ctx.diagnostics.hasErrors = false → ∀ m, ctx.Knows m → Phase.resolved ≤ ctx.phase m.key →
    ctx.Annotated m

variable {ctx d : Context} {m : Module} {key : String}

/-- A module that was there was known, with another phase. -/
theorem Knows.before (h : d.Knows m) (hd : ctx.Extends d) (hmod : ctx.hasModule m.key = true) :
    ∃ q, ctx.Knows { m with phase := q } := by
  obtain ⟨m₀, hm₀⟩ := exists_of_hasModule hmod
  obtain ⟨-, hkey⟩ := mem_of_module? hm₀
  obtain ⟨p, -, hm⟩ := h
  obtain ⟨p₀, -, hd₀⟩ := hd.modules (knows_of_module? hm₀)
  rw [hkey, hm, Option.some.injEq] at hd₀
  refine ⟨m₀.phase, ?_⟩
  have hsame : m₀ = { m with phase := m₀.phase } := by
    cases m
    cases m₀
    simp_all
  exact hsame ▸ knows_of_module? hm₀

/-- What has not been reported later has not been reported before. -/
theorem Extends.clean (h : ctx.Extends d) (hd : d.diagnostics.hasErrors = false) :
    ctx.diagnostics.hasErrors = false := by
  obtain ⟨es, hes⟩ := h.reports
  rw [Diagnostics.hasErrors, ← hes, List.any_append, Bool.or_eq_false_iff] at hd
  exact hd.1

/-- Where the declarations stay, and names go on to have types, variables stay annotated. -/
theorem Annotated.later (h : ctx.Annotated m) (hl : ctx.Linked) (hd : ctx.Extends d)
    (hl' : d.Linked) (hspares : ctx.Spares d) (hm : ctx.Knows m)
    (hphase : Phase.collected ≤ ctx.phase m.key)
    (htyped : ∀ s name, (ctx.scopes.typeOf? s name).isSome → (d.scopes.typeOf? s name).isSome) :
    d.Annotated m := by
  obtain ⟨m₀, hm₀, hkey, hroot, -, hprogram⟩ := hm.exists_mem
  have hparent : ctx.scopes.parent? m.root = some 0 := hroot ▸ hl.root m₀ hm₀
  have hplaces : ∀ p ∈ m.program.places, p.Parsed := hprogram ▸ hl.places m₀ hm₀
  have hsame : ∀ s, m.root ∈ ctx.scopes.chain s →
      d.scopes.declarations s = ctx.scopes.declarations s :=
    fun s hs => hspares.2 m s ⟨hm, hs⟩ hphase
  intro s targets values hmem target htarget hwritten hbinds
  rw [ScopeForest.itinerary_eq_of_precedes hl.scopes hparent hplaces hl'.scopes hd.scopes hspares.1
    hsame] at hmem
  have hs := ScopeForest.mem_chain_of_itinerary hl.scopes hparent hplaces hmem
  rw [ScopeForest.binds_of_declarations (hsame s hs)] at hbinds
  exact htyped _ _ (h s targets values hmem target htarget hwritten hbinds)

/-- Variables stay annotated if no more modules are resolved. -/
theorem Annotates.later (h : ctx.Annotates) (hl : ctx.Linked) (hd : ctx.Extends d)
    (hl' : d.Linked) (hspares : ctx.Spares d)
    (hphases : ∀ k, Phase.resolved ≤ d.phase k → Phase.resolved ≤ ctx.phase k)
    (htyped : ∀ s name, (ctx.scopes.typeOf? s name).isSome → (d.scopes.typeOf? s name).isSome) :
    d.Annotates := by
  intro hclean m hm hphase
  have hbefore := hphases m.key hphase
  obtain ⟨q, hm'⟩ := hm.before hd (hasModule_of_parsed_le (le_trans (by decide) hbefore))
  have hannotated := h (hd.clean hclean) _ hm' hbefore
  exact hannotated.later hl hd hl' hspares hm' (le_trans (by decide) hbefore) htyped

/-- Resolution annotates the variables of the modules that it leads on. -/
theorem Annotates.resolve (h : ctx.Annotates) (hl : ctx.Linked)
    (hle : Phase.collected ≤ ctx.phase key) : (Context.resolve key ctx).Annotates := by
  obtain ⟨M, hM, hclosed⟩ := exists_resolves hl hle
  have hleads := hM.leads hM.start_mem
  have hext := hleads.toExtends hl
  intro hclean m hm hphase
  rcases hclosed m.key with hsame | ⟨m', hkey, hm', hmade⟩
  · have hbefore : Phase.resolved ≤ ctx.phase m.key := hsame ▸ hphase
    obtain ⟨q, hq⟩ := hm.before hext (hasModule_of_parsed_le (le_trans (by decide) hbefore))
    have hannotated := h (hext.clean hclean) _ hq hbefore
    exact hannotated.later hl hext (hleads.linked hl) (.of_untyped hleads.untyped) hq
      (le_trans (by decide) hbefore) fun _ _ => hleads.typed
  · obtain ⟨p, -, hmod⟩ := hm
    obtain ⟨p', -, hmod'⟩ := hm'
    rw [hkey, hmod, Option.some.injEq, Module.mk.injEq] at hmod'
    obtain ⟨-, -, hprogram, hroot, -⟩ := hmod'
    intro s targets values hmem target htarget hwritten hbinds
    have hitinerary : ctx.scopes.itinerary m = ctx.scopes.itinerary m' := by
      rw [ScopeForest.itinerary, ScopeForest.itinerary, hprogram, hroot]
    rw [ScopeForest.itinerary_congr hleads.untyped, hitinerary] at hmem
    obtain ⟨isConst, span, hfront⟩ :=
      ScopeForest.exists_declaring m'.program.paired_steps hmem
    obtain ⟨m'', c, hc, hd⟩ := hmade s _ hfront
    rw [ScopeForest.binds_congr (hM.leads hc).untyped] at hbinds
    have hrest : (c.resolveTargets m'' s targets).Leads .resolved (Context.resolve key ctx) := by
      refine Leads.trans ?_ (hM.leads hd)
      simp only [Visitor.stop, resolver]
      split
      · exact Leads.refl _ _
      · exact (types_resolveArity ..).leads
    exact hrest.typed (typed_resolveTargets (hrest.clean hclean) htarget hwritten hbinds)

/--
What checks have to say about the initial values that they have looked at since another context,
in this order.
-/
structure Fitted (old : Context) (W : List InitialValue) (d : Context) : Prop where
  /-- Each module that has been checked since then has had all its initial values looked at. -/
  all : ∀ m ∈ d.modules, old.phase m.key < .typechecked → m.phase = .typechecked →
    W.filter (fun a => a.key = m.key) =
      (d.scopes.itinerary m).flatMap (Visit.initialValues m.key)
  /-- A variable with an annotation has a type, which its value fits, if it is not too late. -/
  fits : ∀ before a after, W = before ++ a :: after → a.target.ty?.isSome →
    d.scopes.binds a.scope a.target.name = true →
      ∃ expected, d.scopes.typeOf? a.scope a.target.name.name = some expected ∧
        ∀ u, infer d.scopes a.scope a.value = some u →
          expected.accepts u = true ∨ Late d.scopes after a.scope a.value

/-- What has been said since a context can be said since an earlier one. -/
theorem Fitted.since {old : Context} {W : List InitialValue} (h : Fitted ctx W d)
    (hphases : ∀ k, old.phase k < .typechecked → ctx.phase k < .typechecked) : Fitted old W d :=
  ⟨fun m hm hold => h.all m hm (hphases _ hold), h.fits⟩

/-- If no module has been led through type checking, nothing has to be said. -/
theorem fitted_nil (hl : d.Linked)
    (hphases : ∀ k, ctx.phase k < .typechecked → d.phase k < .typechecked) : Fitted ctx [] d where
  all m hm hold hphase := by
    have hlt := hphases m.key hold
    rw [phase_of_module? (hl.module?_of_mem hm), hphase] at hlt
    exact absurd hlt (lt_irrefl _)
  fits _ _ _ h := by simp at h

/-- An initial value that has been looked at belongs to a declaration on an itinerary. -/
theorem exists_of_mem_initialValues {W : List Entry} {a : InitialValue}
    (h : a ∈ Entry.initialValues W) : ∃ m targets values, m.key = a.key ∧ a.target ∈ targets ∧
      .visited m (.stop a.scope (.declared targets values)) ∈ W := by
  obtain ⟨x, hx, ha⟩ := List.mem_flatMap.mp h
  cases x with
  | closed m => cases ha
  | visited m v =>
    unfold Visit.initialValues at ha
    dsimp only at ha
    split at ha
    · next s targets values =>
      obtain ⟨⟨target, value⟩, hpair, rfl⟩ := List.mem_map.mp ha
      exact ⟨m, targets, values, rfl, (List.of_mem_zip hpair).1, hx⟩
    · cases ha

/-- What type checking leaves behind without errors fits. -/
theorem Annotates.fitted (h : ctx.Annotates) (hl : ctx.Linked)
    (hle : Phase.resolved ≤ ctx.phase key)
    (hclean : (Context.check key ctx).diagnostics.hasErrors = false) :
    ∃ W, Fitted ctx W (Context.check key ctx) := by
  obtain ⟨W, hW, hrecounts, hclosed, hvisited⟩ :=
    exists_history filling_checker (fun _ => rfl) rfl (by decide) hl hle
  have hchecks := checks_of_history hW
  have hleads := hrecounts.leads
  have hext := hleads.toExtends hl
  have hl' := hleads.linked hl
  refine ⟨Entry.initialValues W, fun m hm hbefore hphase => ?_,
    fun before a after hsplit hwritten hbinds => ?_⟩
  · rcases hrecounts.closed m.key with hsame | ⟨m', hm', hkey⟩
    · rw [phase_of_module? (hl'.module?_of_mem hm), hphase] at hsame
      exact absurd hbefore hsame.le.not_gt
    · obtain ⟨p, -, hmod⟩ := hrecounts.knows hm'
      rw [hkey, hl'.module?_of_mem hm, Option.some.injEq] at hmod
      obtain ⟨hitinerary, -⟩ := hclosed m' hm'
      have hsame : (Context.check key ctx).scopes.itinerary m = ctx.scopes.itinerary m :=
        ScopeForest.itinerary_congr hleads.untyped m
      rw [Entry.filter_initialValues, ← hkey, hitinerary, hsame, hmod]
      rfl
  · have hmem : a ∈ Entry.initialValues W := hsplit ▸ by simp
    obtain ⟨m, targets, values, hkey, htarget, hvisit⟩ := exists_of_mem_initialValues hmem
    have hm := hvisited m _ hvisit
    obtain ⟨hitinerary, hphase⟩ := hclosed m hm
    have hresolved : Phase.resolved ≤ ctx.phase m.key := by
      rcases hleads.phases m.key with hsame | ⟨hprevious, -⟩
      · exact le_trans (by decide) (hsame ▸ hphase)
      · exact (Option.some.inj hprevious).le
    obtain ⟨q, hq⟩ := (hrecounts.knows hm).before hext
      (hasModule_of_parsed_le (le_trans (by decide) hresolved))
    have hstop : .stop a.scope (.declared targets values) ∈ ctx.scopes.itinerary m :=
      hitinerary ▸ Entry.mem_visitsOf.mpr ⟨m, rfl, hvisit⟩
    have htyped := h (hext.clean hclean) _ hq hresolved _ _ _ hstop a.target htarget hwritten
      ((ScopeForest.binds_congr hleads.untyped ..).symm.trans hbinds)
    obtain ⟨expected, hexpected⟩ := Option.isSome_iff_exists.mp htyped
    exact ⟨expected, hchecks.typeOf?_eq hexpected, fun u hu =>
      hchecks.fits hclean hsplit hbinds hexpected hu⟩

end Context

namespace Compilation

open Context

variable {l : Loader} {needed : Path → Prop} {roots : String → Prop}

/-- Between checks, the variables of resolved modules are annotated, unless there are errors. -/
theorem keeps_annotates (hclosed : l.Closed needed) :
    Recorder.plain.Keeps l needed roots fun c => c.context.Linked ∧ c.context.Annotates where
  put h hd _ := by
    have hlinked := hd.linked h.1
    exact ⟨hlinked, h.2.later h.1 hd.onward hlinked hd.spares
      (fun k => (hd.le_phase_iff (by decide) k).mp) fun s name hsome =>
        (ScopeForest.typeOf?_congr (hd.symbols s) name).symm ▸ hsome⟩
  collect {key c} h hready := by
    obtain ⟨-, hadvances, -⟩ := collect_spec hclosed hready
    have hlinked := hadvances.linked h.1
    refine ⟨hlinked, h.2.later h.1 hadvances.onward hlinked hadvances.spares (fun k hk => ?_)
      fun s name hsome => (hadvances.types s name).symm ▸ hsome⟩
    rcases hadvances.phases k with hsame | hle
    · exact hsame ▸ hk
    · exact absurd (hk.trans hle) (by decide)
  resolve {key c} h hl hle := by
    rcases Recorder.plain.andThen_cases resolution .resolving key c with he | ⟨d, rfl, he⟩
    · rw [he]
      exact h
    · rw [he]
      exact ⟨(resolve_spec hl hle).1.walking.linked, h.2.resolve hl hle⟩
  typecheck {key c} h hl hle := by
    rcases Recorder.plain.andThen_cases typing .typechecking key c with he | ⟨d, rfl, he⟩
    · rw [he]
      exact h
    · rw [he]
      obtain ⟨W, hW, -⟩ := exists_history filling_checker (fun _ => rfl) rfl (by decide) hl hle
      have hleads := (checks_of_history hW).leads
      have hlinked := hleads.linked hl
      refine ⟨hlinked, h.2.later hl (hleads.toExtends hl) hlinked (.of_untyped hleads.untyped)
        (fun k hk => ?_) fun _ _ => hleads.typed⟩
      rcases hleads.phases k with hsame | ⟨hprevious, -⟩
      · exact hsame ▸ hk
      · exact (Option.some.inj hprevious).le

/-- A check that leaves no error behind has run all passes. -/
theorem runPasses_of_clean {c : Compilation} {key : String} (hl : (c.collect key).context.Linked)
    (hle : Phase.collected ≤ (c.collect key).context.phase key)
    (hclean : (c.runPasses key).context.diagnostics.hasErrors = false) :
    (c.runPasses key).context =
      Context.check key (Context.resolve key (c.collect key).context) := by
  cases hfatal : (c.collect key).context.diagnostics.hasFatal with
  | true =>
    have hskip : c.runPasses key = c.collect key := by simp [runPasses, andThen, hfatal]
    rw [Diagnostics.hasFatal_eq] at hfatal
    obtain ⟨r, hr, hsev⟩ := List.any_eq_true.mp hfatal
    have herrors : (c.collect key).context.diagnostics.hasErrors = true :=
      List.any_eq_true.mpr ⟨r, hr, Severity.isError_of_isFatal hsev⟩
    rw [hskip, herrors] at hclean
    cases hclean
  | false =>
    have hfatal' := (resolve_spec hl hle).1.since.hasFatal_eq.trans hfatal
    simp [runPasses, andThen, hfatal, hfatal', update]

/-- What the passes leave behind without errors fits. -/
theorem exists_fitted_runPasses {c : Compilation} {key : String} (hclosed : l.Closed needed)
    (hannotates : c.context.Annotates) (hready : (collecting l needed roots).Ready [] key c)
    (hclean : (c.runPasses key).context.diagnostics.hasErrors = false) :
    ∃ W, Fitted c.context W (c.runPasses key).context := by
  obtain ⟨hcollecting, hadvances, hkey⟩ := collect_spec hclosed hready
  have hl := hcollecting.walking.linked
  have hcollected : (c.collect key).context.Annotates :=
    ((keeps_annotates hclosed).collect ⟨hready.1.linked, hannotates⟩ hready).2
  have hresolved := hcollected.resolve hl hkey
  obtain ⟨hr, hrkey⟩ := resolve_spec hl hkey
  have hall := runPasses_of_clean hl hkey hclean
  rw [hall] at hclean ⊢
  obtain ⟨W, hW⟩ := hresolved.fitted hr.walking.linked hrkey hclean
  refine ⟨W, hW.since fun k hk => ?_⟩
  have hcollect : (c.collect key).context.phase k < .typechecked := by
    rcases hadvances.phases k with hsame | hle
    · exact hsame.trans_lt hk
    · exact hle.trans_lt (by decide)
  rcases hr.since.phases k with hsame | ⟨-, hphase⟩
  · exact hsame.trans_lt hcollect
  · exact hphase.trans_lt (by decide)

/--
After any checks, a check that leaves no error behind has looked at the initial values of each
module that it has led through all passes, in the order in which they stand there. Each variable
with an annotation has a type, and its initial value has no type or one that this type accepts;
unless the value is a name whose variable has no annotation and is looked at later.
-/
theorem check_fitted (l : Loader) (entries : List Path) (entry : Path)
    (hclean : ((checkAll entries (new l)).check entry).2.context.diagnostics.hasErrors = false) :
    ∃ W, Fitted (checkAll entries (new l)).context W
      ((checkAll entries (new l)).check entry).2.context := by
  have hclosed : l.Closed fun _ => True := fun _ _ _ _ => trivial
  have hnew := settled_new l (fun _ => True) fun _ => True
  have h := hnew.checkAll hclosed (fun _ => trivial) (fun _ => trivial) entries
  have hbefore : (checkAll entries (new l)).context.Annotates := by
    have hstart : (new l).context.Linked ∧ (new l).context.Annotates := by
      refine ⟨hnew.linked, fun _ m hm => ?_⟩
      obtain ⟨m', hm', -⟩ := hm.exists_mem
      cases hm'
    exact (Recorder.checkAll_plain entries (new l) ▸ (keeps_annotates hclosed).checkAll hstart hnew
      hclosed (fun _ => trivial) (fun _ => trivial) entries).2
  generalize checkAll entries (new l) = c at h hbefore hclean ⊢
  have henter := h.enter (some (l.moduleKey entry))
  have henrols := enrols_enter c.context (some (l.moduleKey entry))
  have hkey := h.like.moduleKey_eq entry
  rcases hreg : (c.update fun ctx => { ctx with entry? := some (l.moduleKey entry) }).register
    (l.moduleKey entry) entry with ⟨e | u, d⟩
  · obtain ⟨-, -, hd⟩ := register_error henter.like hreg
    cases e with
    | read e =>
      -- The entry cannot be read, so nothing is looked at.
      simp only [Compilation.check, hkey, hreg, hd]
      exact ⟨[], fitted_nil henter.linked fun _ => id⟩
    | grammar e =>
      simp only [Compilation.check, hkey, hreg] at hclean
      simp [update, report, loadReport, Diagnostics.hasErrors, Severity.isError] at hclean
  · obtain ⟨hlike, hd⟩ := register_ok henter.linked henter.grounded henter.like trivial rfl hreg
    have hready := ready_of_registers henter.accounted henter.inStep trivial hlike hd
    have hregistered := henrols.trans (hd.enrols hreg)
    have hannotates : d.context.Linked ∧ d.context.Annotates :=
      (keeps_annotates hclosed : Recorder.plain.Keeps l _ (fun _ => True) _).put (c := c)
        ⟨h.linked, hbefore⟩ hregistered hd.imports
    simp only [Compilation.check, hkey, hreg] at hclean ⊢
    obtain ⟨W, hW⟩ := exists_fitted_runPasses hclosed hannotates.2 hready hclean
    refine ⟨W, hW.since fun k hk => ?_⟩
    rcases hregistered.phases k with hsame | ⟨-, hnew⟩
    · exact hsame.trans_lt hk
    · exact hnew.trans_lt (by decide)

/-- The file `a.sbl`, in which the value of one variable is the name of another one. -/
def twoVariables : Loader :=
  .new (.ofRoot ⟨""⟩) (.memory [(⟨"a.sbl"⟩, "let a := 1; let b: i32 = a;")])

/-- The check of the two variables leaves no error behind, so their values fit. -/
theorem exists_fitted_twoVariables :
    ((checkAll [] (new twoVariables)).check ⟨"a.sbl"⟩).2.context.diagnostics.hasErrors = false ∧
      ∃ W, Fitted (checkAll [] (new twoVariables)).context W
        ((checkAll [] (new twoVariables)).check ⟨"a.sbl"⟩).2.context := by
  have hclean : ((checkAll [] (new twoVariables)).check ⟨"a.sbl"⟩).2.context.diagnostics.hasErrors =
      false := by decide +kernel
  exact ⟨hclean, check_fitted twoVariables [] ⟨"a.sbl"⟩ hclean⟩

end Compilation

end Sable
