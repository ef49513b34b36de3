import Sable.Proofs.Compilation.Binding
import Sable.Proofs.Compilation.Isolation
import Sable.Proofs.Compilation.Numbered
import Sable.Proofs.Compilation.Outcomes
import Sable.Proofs.Scope.Binding

/-!
# Refused declarations

What collection leaves behind of the declarations of a module stays behind for good: the tree of the
module has been filled by them, and those of them that are refused have been reported once each.
Since no name is declared twice in all modules, a declaration that has been reported as refused is
nowhere what a name is bound to.
-/

namespace Sable.Compilation

open Context

variable {l : Loader} {needed : Path → Prop} {roots : String → Prop} {c d : Compilation}
  {ctx ctx' : Context} {m : Module} {D : List Declaration} {x : Ident} {key : String} {entry : Path}

/-! ### Reports of refused declarations -/

/-- As many declarations are reported as refused. -/
def SameRefusals (ctx ctx' : Context) : Prop := ∀ m name,
  ctx'.diagnostics.items.count (duplicateReport m name) =
    ctx.diagnostics.items.count (duplicateReport m name)

theorem SameRefusals.trans {ctx'' : Context} (h : SameRefusals ctx ctx')
    (h' : SameRefusals ctx' ctx'') : SameRefusals ctx ctx'' :=
  fun m name => (h' m name).trans (h m name)

/-- What else is reported makes no difference. -/
private theorem sameRefusals_of_append {es : List Diagnostic}
    (hitems : ctx'.diagnostics.items = ctx.diagnostics.items ++ es)
    (hes : ∀ e ∈ es, ∀ m name, e ≠ duplicateReport m name) : SameRefusals ctx ctx' := by
  intro m name
  rw [hitems, List.count_append, List.count_eq_zero.mpr fun hmem => hes _ hmem m name rfl,
    Nat.add_zero]

theorem sameRefusals_of_eq (h : ctx'.diagnostics = ctx.diagnostics) : SameRefusals ctx ctx' :=
  fun _ _ => by rw [h]

/-- A fatal report refuses no declaration. -/
theorem sameRefusals_report (ctx : Context) {r : Diagnostic} (hr : r.severity.isFatal = true) :
    SameRefusals ctx (ctx.report r) := by
  refine sameRefusals_of_append rfl (List.forall_mem_singleton.mpr fun m name heq => ?_)
  rw [heq] at hr
  cases hr

/-- Neither do reports of the later passes. -/
theorem sameRefusals_types (h : ctx.Types ctx') : SameRefusals ctx ctx' := by
  obtain ⟨es, hitems, hlate⟩ := h.late
  refine sameRefusals_of_append hitems fun e he m name heq => ?_
  have hpass := hlate e he
  rw [heq] at hpass
  rcases hpass with h | h <;> cases h

/-- A pass behind the first one refuses no declaration. -/
theorem sameRefusals_traverse {visitor : Module → Visitor Context} (target : Phase) (pass : Pass)
    (activity : String) (hv : ∀ m, Filling (visitor m))
    (hi : ∀ m, (visitor m).importing = nextModule target) (key : String) (ctx : Context) :
    SameRefusals ctx (traverse (traversal target pass activity visitor) key ctx) := by
  have hrespects : (traversal target pass activity visitor).Respects SameRefusals :=
    respects_traversal hv hi (fun _ _ _ => rfl) SameRefusals.trans sameRefusals_types
      (fun ctx _ hr => sameRefusals_report ctx hr)
      fun _ _ _ => sameRefusals_of_eq (diagnostics_setPhase ..)
  exact hrespects.runWithin _ key ctx

/-! ### Records of declarations -/

/-- What is left behind of the declarations of a module that have been walked. -/
structure Records (c : Compilation) (m : Module) (D : List Declaration) : Prop where
  /-- The tree of the module has been filled by them. -/
  holds : c.context.scopes.untyped.Holds m.root D
  /-- Those of them that are refused have been reported once each. -/
  reports : ∀ name, c.context.diagnostics.items.count (duplicateReport m name) =
    (Declaration.refusedFrom [] D).count name
  /-- They have names that the module declares. -/
  names : (D.map Declaration.name).Sublist m.program.names
  /-- Before the module is collected, there are none. -/
  early : ¬ Phase.collected ≤ c.context.phase m.key → D = []

/-- All modules have left behind what they declare, and nothing else has been refused. -/
structure Recorded (c : Compilation) : Prop where
  /-- What is refused is refused in the file of some module. -/
  files : ∀ m' : Module, (∀ m ∈ c.context.modules, m.file.text ≠ m'.file.text) → ∀ name,
    c.context.diagnostics.items.count (duplicateReport m' name) = 0
  /-- Each module has left its declarations behind. -/
  modules : ∀ m ∈ c.context.modules, ∃ D, Records c m D

/-- A module under a key that no visit is noted of has not been visited. -/
private theorem visitsOf_eq_nil {W : List Entry} (h : ∀ m' v, .visited m' v ∈ W → m'.key ≠ key) :
    Entry.visitsOf key W = [] := by
  refine List.eq_nil_iff_forall_not_mem.mpr fun v hv => ?_
  obtain ⟨m', hkey, hmem⟩ := Entry.mem_visitsOf.mp hv
  exact h m' v hmem hkey

/-- A module that is registered in the end, and had been before, is the same but for its phase. -/
private theorem exists_before (hl : ctx'.Linked) (hd : ctx.Extends ctx') (hm : m ∈ ctx'.modules)
    (hhas : ctx.hasModule m.key = true) : ∃ m₀ ∈ ctx.modules, ∃ p, m = { m₀ with phase := p } := by
  obtain ⟨m₀, hm₀⟩ := exists_of_hasModule hhas
  obtain ⟨hmem, hkey⟩ := mem_of_module? hm₀
  obtain ⟨p, -, hknown⟩ := hd.modules (knows_of_module? hm₀)
  refine ⟨m₀, hmem, p, Option.some.inj ?_⟩
  rw [← hl.module?_of_mem hm, ← hkey, hknown]

/-- A file of which no module has been read was not that of one before. -/
private theorem other_before (hl : ctx.Linked) (hd : ctx.Extends ctx') {m' : Module}
    (hnew : ∀ m ∈ ctx'.modules, m.file.text ≠ m'.file.text) :
    ∀ m ∈ ctx.modules, m.file.text ≠ m'.file.text := by
  intro m hm he
  obtain ⟨m₁, hm₁, -, -, hfile, -⟩ :=
    (hd.modules (knows_of_module? (hl.module?_of_mem hm))).exists_mem
  exact hnew m₁ hm₁ (hfile ▸ he)

/-- Before a module is registered, nothing is refused in its file. -/
private theorem Recorded.count_new (h : Recorded c) (hl : c.context.Linked)
    (hd : c.context.Extends ctx) (hg : ctx.Grounded l needed)
    (hm : m ∈ ctx.modules) (hfree : c.context.hasModule m.key = false) (name : Ident) :
    c.context.diagnostics.items.count (duplicateReport m name) = 0 := by
  refine h.files m (fun m₀ hm₀ he => ?_) name
  obtain ⟨m₁, hm₁, hkey, -, hfile, -⟩ :=
    (hd.modules (knows_of_module? (hl.module?_of_mem hm₀))).exists_mem
  have hhas := hasModule_of_mem hm₀
  rw [← hkey, hg.key_eq hm₁ hm (hfile ▸ he), hfree] at hhas
  cases hhas

/-- Before a module is collected, nothing is refused in its file. -/
private theorem Recorded.count_early (h : Recorded c) (hl : c.context.Linked) (hl' : ctx.Linked)
    (hd : c.context.Extends ctx) (hg : ctx.Grounded l needed) (hm : m ∈ ctx.modules)
    (hnot : ¬ Phase.collected ≤ c.context.phase m.key) (name : Ident) :
    c.context.diagnostics.items.count (duplicateReport m name) = 0 := by
  cases hhas : c.context.hasModule m.key with
  | false => exact h.count_new hl hd hg hm hhas name
  | true =>
    obtain ⟨m₀, hm₀, p, rfl⟩ := exists_before hl' hd hm hhas
    obtain ⟨D₀, hD₀⟩ := h.modules m₀ hm₀
    obtain rfl := hD₀.early hnot
    exact hD₀.reports name

theorem recorded_new (l : Loader) : Recorded (new l) :=
  ⟨fun _ _ _ => rfl, fun _ hm => absurd hm List.not_mem_nil⟩

namespace Recorded

/-- A module that has not been collected binds no name. -/
theorem bare (h : Recorded c) : c.context.Bare := by
  intro m hm hnot
  obtain ⟨D, hD⟩ := h.modules m hm
  obtain rfl := hD.early hnot
  refine .nil fun t ht name => ?_
  have hnone := hD.holds.isSome_eq ((ScopeForest.chain_untyped ..).symm ▸ ht) name
  rw [ScopeForest.symbol?_untyped, Option.isSome_map] at hnone
  exact Option.isNone_iff_eq_none.mp (by simpa [Declaration.first?] using hnone)

/-- Where no scope and no module changes, nothing has to be recorded. -/
theorem same (h : Recorded c) (hscopes : d.context.scopes = c.context.scopes)
    (hmodules : d.context.modules = c.context.modules)
    (hsame : SameRefusals c.context d.context) : Recorded d where
  files m' hnew name := (hsame m' name).trans (h.files m' (hmodules ▸ hnew) name)
  modules m hm := by
    obtain ⟨D, hD⟩ := h.modules m (hmodules ▸ hm)
    exact ⟨D, hscopes ▸ hD.holds, fun name => (hsame m name).trans (hD.reports name), hD.names,
      phase_congr hmodules m.key ▸ hD.early⟩

/-- Modules may be registered. -/
theorem enrols (h : Recorded c) (hl : c.context.Linked) (hd : c.context.Enrols d.context)
    (hg : d.context.Grounded l needed) (hsame : SameRefusals c.context d.context) :
    Recorded d where
  files m' hnew name :=
    (hsame m' name).trans (h.files m' (other_before hl hd.onward hnew) name)
  modules m hm := by
    rcases hd.mem_cases hl hm with ⟨m₀, hm₀, p, rfl⟩ | ⟨hnew, hfree⟩
    · obtain ⟨D, hD⟩ := h.modules m₀ hm₀
      exact ⟨D, hD.holds.congr (hd.keepsTree hl hm₀).untyped,
        fun name => (hsame m₀ name).trans (hD.reports name), hD.names,
        fun hnot => hD.early fun hle => hnot (hle.trans (hd.onward.phase_le _))⟩
    · refine ⟨[], (hd.holds_new hl hnew).untyped, fun name => ?_, List.nil_sublist _, fun _ => rfl⟩
      exact (hsame m name).trans (h.count_new hl hd.onward hg hm hfree name)

/-- A pass behind the first one leaves everything as it has been recorded. -/
theorem leads (h : Recorded c) (hl : c.context.Linked) {target : Phase}
    (hd : c.context.Leads target d.context) (hsame : SameRefusals c.context d.context) :
    Recorded d where
  files m' hnew name :=
    (hsame m' name).trans (h.files m' (other_before hl (hd.toPasses.toExtends hl) hnew) name)
  modules m hm := by
    obtain ⟨m₀, hm₀, p, -, rfl⟩ := hd.toPasses.exists_mem hl hm
    obtain ⟨D, hD⟩ := h.modules m₀ hm₀
    exact ⟨D, hd.untyped.symm ▸ hD.holds, fun name => (hsame m₀ name).trans (hD.reports name),
      hD.names, fun hnot => hD.early fun hle => hnot (hle.trans (hd.toPasses.phase_le _))⟩

/-- Collection records the declarations of the modules that it leads on. -/
theorem collect (h : Recorded c) (hclosed : l.Closed needed)
    (hready : (collecting l needed roots).Ready [] key c) : Recorded (c.collect key) := by
  obtain ⟨W, hW, hcloses, hvisited⟩ := exists_history_collect hclosed hready
  obtain ⟨hcollecting, hadvances, -⟩ := collect_spec hclosed hready
  have htells := tells_of_history hclosed h.bare hW
  have hl := hready.1.linked
  have hl' := hcollecting.walking.linked
  have hg := hcollecting.grounded
  constructor
  · intro m' hnew name
    refine (htells.files m' (fun m hm he => absurd he (hnew m hm)) name).trans ?_
    exact h.files m' (other_before hl hadvances.onward hnew) name
  intro m hm
  by_cases hold : Phase.collected ≤ c.context.phase m.key
  · -- What has been recorded of a module that had been collected before stays.
    have hhas := hasModule_of_parsed_le (le_trans (by decide) hold)
    obtain ⟨m₀, hm₀, p, rfl⟩ := exists_before hl' hadvances.onward hm hhas
    obtain ⟨D, hD⟩ := h.modules m₀ hm₀
    refine ⟨D, hD.holds.congr (htells.spares _ hm hold).untyped, fun name => ?_, hD.names,
      fun hnot => absurd (hold.trans (hadvances.onward.phase_le _)) hnot⟩
    refine (htells.files _ (fun m' hm' he => ?_) name).trans (hD.reports name)
    exact hg.key_eq hm' hm he ▸ hold
  · obtain ⟨D, hD⟩ := htells.tallies _ (.refl _) hl'.scopes m hm hold
    have hzero := h.count_early hl hl' hadvances.onward hg hm hold
    have hleads := hD.leads
    refine ⟨D, hD.holds.untyped, fun name => by rw [hD.reports, hzero, Nat.zero_add], ?_,
      fun hnot => ?_⟩
    · by_cases hwalked : ∃ m', .closed m' ∈ W ∧ m'.key = m.key
      · -- The visits of a walk that has been closed spell the script of the module.
        obtain ⟨m', hclosed', hkey⟩ := hwalked
        obtain ⟨m₁, hm₁, hkey₁, hroot, -, hprogram⟩ := (htells.closed hclosed').exists_mem
        obtain rfl := hl'.eq_of_key hm₁ hm (hkey₁.trans hkey)
        have hspells := hcloses.spells hclosed'
        rw [← hroot, ← hprogram, hkey] at hspells
        exact hleads.names_of_spells hspells
      · rw [visitsOf_eq_nil fun m' v hv hkey => hwalked ⟨m', hvisited m' v hv, hkey⟩] at hleads
        cases hleads
        exact List.nil_sublist _
    · have hnone : ∀ m' v, .visited m' v ∈ W → m'.key ≠ m.key := fun m' v hv hkey =>
        hnot (hkey ▸ hcloses.finished (hvisited m' v hv))
      rw [visitsOf_eq_nil hnone] at hleads
      cases hleads
      rfl

end Recorded

/-! ### Checks and refused declarations -/

/-- What holds between checks and is kept by their parts, of which only collection refuses names. -/
structure Persists (l : Loader) (needed : Path → Prop) (roots : String → Prop)
    (I : Compilation → Prop) : Prop where
  /-- Problems may be reported. -/
  same : ∀ {c d}, I c → d.context.scopes = c.context.scopes →
    d.context.modules = c.context.modules → SameRefusals c.context d.context → I d
  /-- Modules may be registered. -/
  enrols : ∀ {c d}, I c → c.context.Linked → c.context.Enrols d.context →
    d.context.Grounded l needed → SameRefusals c.context d.context → I d
  /-- A module may be collected. -/
  collect : ∀ {c key}, I c → (collecting l needed roots).Ready [] key c → I (c.collect key)
  /-- A pass behind the first one may be run. -/
  leads : ∀ {c d target p}, I c → c.context.Linked → target.previous? = some p →
    Phase.collected ≤ p → c.context.Leads target d.context → SameRefusals c.context d.context → I d

namespace Persists

variable {I : Compilation → Prop} (h : Persists l needed roots I)
include h

/-- A pass behind the first one keeps what persists, whether it is started or not. -/
theorem andThen (hc : I c) {visitor : Module → Visitor Context} {target p : Phase} {pass : Pass}
    {activity : String} (hv : ∀ m, Filling (visitor m))
    (hi : ∀ m, (visitor m).importing = nextModule target) (ht : target.previous? = some p)
    (hp : Phase.collected ≤ p) (hl : c.context.Linked)
    (hle : c.context.diagnostics.hasFatal = false → p ≤ c.context.phase key) :
    I (c.andThen (traverse (traversal target pass activity visitor) key)) := by
  unfold Compilation.andThen
  split
  · exact hc
  · next hmild =>
    have hparsed : Phase.parsed ≤ p := le_trans (by decide) hp
    obtain ⟨W, hW⟩ : ∃ W, Recounts target c.context W
        (traverse (traversal target pass activity visitor) key c.context) :=
      (exists_history hv hi ht hparsed hl (hle (Bool.eq_false_of_not_eq_true hmild))).imp
        fun _ h => h.2.1
    exact h.leads hc hl ht hp hW.leads
      (sameRefusals_traverse target pass activity hv hi key c.context)

/-- The passes keep what persists. -/
theorem runPasses (hc : I c) (hclosed : l.Closed needed)
    (hready : (collecting l needed roots).Ready [] key c) : I (c.runPasses key) := by
  obtain ⟨hcollecting, -, hkey⟩ := collect_spec hclosed hready
  have hcollected := h.collect hc hready
  unfold Compilation.runPasses
  generalize c.collect key = d at hcollecting hkey hcollected
  have hl := hcollecting.walking.linked
  have hresolved : I (d.andThen (Context.resolve key)) :=
    h.andThen hcollected filling_resolver (fun _ => rfl) rfl le_rfl hl fun _ => hkey
  have hnext : (d.andThen (Context.resolve key)).context.Linked ∧
      ((d.andThen (Context.resolve key)).context.diagnostics.hasFatal = false →
        Phase.resolved ≤ (d.andThen (Context.resolve key)).context.phase key) := by
    unfold Compilation.andThen
    split
    · next hfatal => exact ⟨hl, fun hmild => absurd (hfatal.symm.trans hmild) (by decide)⟩
    · obtain ⟨hr, hrkey⟩ := resolve_spec hl hkey
      exact ⟨hr.walking.linked, fun _ => hrkey⟩
  exact h.andThen hresolved filling_checker (fun _ => rfl) rfl (by decide) hnext.1 hnext.2

/-- A check keeps what persists. -/
theorem check (hc : I c) (hsettled : Settled l needed roots c) (hclosed : l.Closed needed)
    (hneeded : needed entry) (hroot : roots (l.moduleKey entry)) : I (c.check entry).2 := by
  have houtcome := check_outcome entry c
  rw [hsettled.like.moduleKey_eq] at houtcome
  generalize (c.check entry).1 = r, (c.check entry).2 = d at houtcome
  cases houtcome with
  | unreadable => exact h.same hc rfl rfl fun _ _ => rfl
  | malformed => exact h.same hc rfl rfl (sameRefusals_report c.context rfl)
  | @passed d hreg =>
    obtain ⟨hready, henrols⟩ := hsettled.ready hneeded hroot hreg
    have hd : d.context.diagnostics = c.context.diagnostics := by
      have hsame := diagnostics_register (l.moduleKey entry) entry (c.asked (l.moduleKey entry))
      rwa [hreg] at hsame
    exact h.runPasses (h.enrols hc hsettled.linked henrols hready.2.2.1 (sameRefusals_of_eq hd))
      hclosed hready

/-- Any number of checks keep what persists. -/
theorem checkAll (hc : I c) (hsettled : Settled l needed roots c) (hclosed : l.Closed needed)
    (hneeded : ∀ p, needed p) (hroot : ∀ k, roots k) (entries : List Path) :
    I (checkAll entries c) := by
  induction entries generalizing c with
  | nil => exact hc
  | cons entry entries ih =>
    exact ih (h.check hc hsettled hclosed (hneeded entry) (hroot _))
      (hsettled.check hclosed (hneeded entry) (hroot _))

end Persists

/-- What the modules have left behind persists. -/
theorem persists_recorded (hclosed : l.Closed needed) : Persists l needed roots Recorded where
  same h := h.same
  enrols h hl hd hg := h.enrols hl hd hg
  collect h := h.collect hclosed
  leads h hl _ _ := h.leads hl

/-! ### Walks that have been made -/

/-- A walk over a module has made the declarations that its tree has been filled by. -/
structure Retraces (F : ScopeForest) (c : Compilation) (m : Module) (L : List Visit)
    (D : List Declaration) : Prop where
  /-- The walk spells the script of the module. -/
  spells : Spells m.root m.program.steps L
  /-- It leads to the declarations. -/
  leads : Visit.Leads F [] L D
  /-- The tree of the module has been filled by them. -/
  holds : c.context.scopes.untyped.Holds m.root D
  /-- Those of them that are refused have been reported once each. -/
  reports : ∀ name, c.context.diagnostics.items.count (duplicateReport m name) =
    (Declaration.refusedFrom [] D).count name

/-- All modules that have been collected have been walked, as any later tables have it. -/
def Retraced (c : Compilation) : Prop :=
  ∀ m ∈ c.context.modules, Phase.collected ≤ c.context.phase m.key → ∀ F,
    c.context.scopes.Precedes F → F.Sound → ∃ L D, Retraces F c m L D

theorem retraced_new (l : Loader) : Retraced (new l) := fun _ hm => absurd hm List.not_mem_nil

namespace Retraced

/-- What has been walked before has been walked later, where its tree has been left alone. -/
private theorem later (h : Retraced c) (hd : c.context.Extends d.context)
    (hm : m ∈ c.context.modules) (hphase : Phase.collected ≤ c.context.phase m.key)
    (htree : c.context.scopes.untyped.KeepsTree m.root d.context.scopes.untyped)
    (hsame : ∀ name, d.context.diagnostics.items.count (duplicateReport m name) =
      c.context.diagnostics.items.count (duplicateReport m name)) {F : ScopeForest}
    (hF : d.context.scopes.Precedes F) (hsound : F.Sound) : ∃ L D, Retraces F d m L D := by
  obtain ⟨L, D, hL⟩ := h m hm hphase F (hd.scopes.trans hF) hsound
  exact ⟨L, D, hL.spells, hL.leads, hL.holds.congr htree,
    fun name => (hsame name).trans (hL.reports name)⟩

/-- Where no scope and no module changes, nothing has been walked. -/
theorem same (h : Retraced c) (hscopes : d.context.scopes = c.context.scopes)
    (hmodules : d.context.modules = c.context.modules)
    (hsame : SameRefusals c.context d.context) : Retraced d := by
  intro m hm hphase F hF hsound
  rw [hmodules] at hm
  rw [phase_congr hmodules] at hphase
  rw [hscopes] at hF
  obtain ⟨L, D, hL⟩ := h m hm hphase F hF hsound
  exact ⟨L, D, hL.spells, hL.leads, hscopes ▸ hL.holds,
    fun name => (hsame m name).trans (hL.reports name)⟩

/-- Modules that are registered have not been collected. -/
theorem enrols (h : Retraced c) (hl : c.context.Linked) (hd : c.context.Enrols d.context)
    (hsame : SameRefusals c.context d.context) : Retraced d := by
  intro m hm hphase F hF hsound
  have hbefore := (hd.le_phase_iff (by decide) m.key).mp hphase
  have hhas := hasModule_of_parsed_le (le_trans (by decide) hbefore)
  obtain ⟨m₀, hm₀, p, rfl⟩ := exists_before (hd.linked hl) hd.onward hm hhas
  obtain ⟨L, D, hL⟩ := h.later hd.onward hm₀ hbefore (hd.keepsTree hl hm₀).untyped
    (fun name => hsame m₀ name) hF hsound
  exact ⟨L, D, hL.spells, hL.leads, hL.holds, hL.reports⟩

/-- A pass behind the first one collects no module. -/
theorem leads (h : Retraced c) (hl : c.context.Linked) {target p : Phase}
    (ht : target.previous? = some p) (hp : Phase.collected ≤ p)
    (hd : c.context.Leads target d.context) (hsame : SameRefusals c.context d.context) :
    Retraced d := by
  intro m hm hphase F hF hsound
  obtain ⟨m₀, hm₀, q, -, rfl⟩ := hd.toPasses.exists_mem hl hm
  have hbefore : Phase.collected ≤ c.context.phase m₀.key := by
    rcases hd.phases m₀.key with heq | ⟨hprevious, -⟩
    · exact heq ▸ hphase
    · exact hp.trans_eq (Option.some.inj (ht.symm.trans hprevious))
  obtain ⟨L, D, hL⟩ := h.later (hd.toPasses.toExtends hl) hm₀ hbefore (hd.untyped ▸ .refl ..)
    (fun name => hsame m₀ name) hF hsound
  exact ⟨L, D, hL.spells, hL.leads, hL.holds, hL.reports⟩

/-- Collection walks the modules that it leads on. -/
theorem collect (h : Retraced c) (hbare : c.context.Bare) (hrecorded : Recorded c)
    (hclosed : l.Closed needed) (hready : (collecting l needed roots).Ready [] key c) :
    Retraced (c.collect key) := by
  obtain ⟨W, hW, hcloses, -⟩ := exists_history_collect hclosed hready
  obtain ⟨hcollecting, hadvances, -⟩ := collect_spec hclosed hready
  have htells := tells_of_history hclosed hbare hW
  have hl := hready.1.linked
  have hl' := hcollecting.walking.linked
  have hg := hcollecting.grounded
  intro m hm hphase F hF hsound
  by_cases hold : Phase.collected ≤ c.context.phase m.key
  · have hhas := hasModule_of_parsed_le (le_trans (by decide) hold)
    obtain ⟨m₀, hm₀, p, rfl⟩ := exists_before hl' hadvances.onward hm hhas
    have hfiles : ∀ name, (c.collect key).context.diagnostics.items.count
        (duplicateReport m₀ name) = c.context.diagnostics.items.count (duplicateReport m₀ name) :=
      htells.files m₀ fun m' hm' he => hg.key_eq hm' hm he ▸ hold
    obtain ⟨L, D, hL⟩ := h.later hadvances.onward hm₀ hold (htells.spares _ hm hold).untyped hfiles
      hF hsound
    exact ⟨L, D, hL.spells, hL.leads, hL.holds, hL.reports⟩
  · obtain ⟨D, hD⟩ := htells.tallies F hF hsound m hm hold
    obtain ⟨m', hclosed', hkey⟩ := ((htells.led m.key).mp hphase).resolve_left hold
    obtain ⟨m₁, hm₁, hkey₁, hroot, -, hprogram⟩ := (htells.closed hclosed').exists_mem
    obtain rfl := hl'.eq_of_key hm₁ hm (hkey₁.trans hkey)
    have hspells := hcloses.spells hclosed'
    rw [← hroot, ← hprogram, hkey] at hspells
    have hzero := hrecorded.count_early hl hl' hadvances.onward hg hm hold
    exact ⟨_, D, hspells, hD.leads, hD.holds.untyped,
      fun name => by rw [hD.reports, hzero, Nat.zero_add]⟩

end Retraced

/-- The walks over modules persist, beside what they have left behind. -/
theorem persists_retraced (hclosed : l.Closed needed) :
    Persists l needed roots fun c => Recorded c ∧ Retraced c where
  same h hscopes hmodules hsame :=
    ⟨h.1.same hscopes hmodules hsame, h.2.same hscopes hmodules hsame⟩
  enrols h hl hd hg hsame := ⟨h.1.enrols hl hd hg hsame, h.2.enrols hl hd hsame⟩
  collect h hready := ⟨h.1.collect hclosed hready, h.2.collect h.1.bare h.1 hclosed hready⟩
  leads h hl ht hp hd hsame := ⟨h.1.leads hl hd hsame, h.2.leads hl ht hp hd hsame⟩

/-! ### What is refused is not bound -/

/-- The names of builtin types stand nowhere. -/
private theorem span_initial : ∀ s < 14, ∀ y ∈ initial.scopes.symbols s, y.span = Span.nowhere := by
  decide +kernel

/--
Behind any checks, a declaration that has been reported as refused has been reported once, is one of
the module in whose file it is reported, and is what no name is bound to in any scope.
-/
theorem refused_checkAll (l : Loader) (entries : List Path) {m : Module}
    (hm : m ∈ (checkAll entries (new l)).context.modules)
    (hx : duplicateReport m x ∈ (checkAll entries (new l)).context.diagnostics.items) :
    x ∈ m.program.names ∧
      (checkAll entries (new l)).context.diagnostics.items.count (duplicateReport m x) = 1 ∧
      ¬ (checkAll entries (new l)).context.scopes.Bears x := by
  have hclosed : l.Closed fun _ => True := fun _ _ _ _ => trivial
  have hnew := settled_new l (fun _ => True) fun _ => True
  have hl := (hnew.checkAll hclosed (fun _ => trivial) (fun _ => trivial) entries).linked
  have h := (persists_recorded hclosed).checkAll (recorded_new l) hnew hclosed (fun _ => trivial)
    (fun _ => trivial) entries
  have hnumbered := numbered_checkAll l entries
  obtain ⟨W, hisolated⟩ := isolated_checkAll l entries
  generalize checkAll entries (new l) = c at *
  obtain ⟨D, hD⟩ := h.modules m hm
  have hnodup : (D.map Declaration.name).Nodup := (hnumbered.nodup_names hm).sublist hD.names
  have hrefused : ∀ {D}, Records c m D → x ∈ Declaration.refusedFrom [] D := fun hD => by
    rw [← List.count_pos_iff, ← hD.reports, List.count_pos_iff]
    exact hx
  have hsub := Declaration.refusedFrom_sublist [] D
  have hname := hD.names.subset (hsub.subset (hrefused hD))
  refine ⟨hname, ?_, ?_⟩
  · rw [hD.reports, List.count_eq_one_of_mem (hnodup.sublist hsub) (hrefused hD)]
  rintro ⟨s, y, hy, hspan⟩
  obtain ⟨hmem, -⟩ := ScopeForest.mem_symbols_of_symbol? hy
  by_cases hbuiltin : Builtin s
  · rw [hisolated.builtin s hbuiltin] at hmem
    rw [builtin_iff, size_initial] at hbuiltin
    exact hnumbered.span_ne hm hname (hspan ▸ span_initial s hbuiltin y hmem)
  · -- The scope lies in the tree of a module, which declares the name, so it is the same module.
    rw [builtin_iff, not_lt] at hbuiltin
    obtain ⟨m', hm', htree⟩ := hisolated.housed s hbuiltin (ScopeForest.lt_size_of_symbol? hy)
    obtain ⟨m₁, hm₁, -, hroot, -⟩ := hm'.exists_mem
    obtain ⟨D₁, hD₁⟩ := h.modules m₁ hm₁
    have hbinds := hD₁.holds.binds s (by rwa [ScopeForest.chain_untyped, hroot]) x.name
    rw [ScopeForest.symbol?_untyped, hy, Option.map_some] at hbinds
    generalize hfirst : Declaration.first? D₁ s x.name = e at hbinds
    cases hbinds with
    | @some e _ hbinds =>
      obtain ⟨hmem₁, -, htext⟩ := Declaration.of_first? hfirst
      have he : e.name = x := Ident.mk.injEq .. ▸ ⟨htext, hbinds.span.symm.trans hspan⟩
      have hname₁ : x ∈ m₁.program.names := he ▸ hD₁.names.subset (List.mem_map_of_mem hmem₁)
      obtain rfl := hnumbered.eq_of_mem_names hm₁ hm hname₁ hname
      have hnodup₁ := (hnumbered.nodup_names hm).sublist hD₁.names
      exact Declaration.first?_ne_of_refused (D := []) hnodup₁ (hrefused hD₁) hfirst he

end Sable.Compilation
