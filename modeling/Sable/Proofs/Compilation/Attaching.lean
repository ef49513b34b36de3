import Sable.Proofs.Compilation.Owning
import Sable.Proofs.Compilation.Recording
import Sable.Proofs.Context.Attaching
import Sable.Proofs.Context.Fitting

/-!
# Types behind resolution

Collection gives no types, and the passes behind it give types only to names of the modules that
they lead on. So when resolution comes to a module, no name of the module has a type yet, and each
type behind resolution is one that a declaration in the module has been seen to give.
-/

namespace Sable

namespace Context

/-- Only builtin types and the names of resolved modules have types. -/
def Awaits (ctx : Context) : Prop :=
  ∀ u name, (ctx.scopes.typeOf? u name).isSome →
    u = 0 ∨ ∃ m, ctx.Encloses m u ∧ Phase.resolved ≤ ctx.phase m.key

variable {ctx d : Context} {key : String}

/-- Whatever gives no types leaves names without types. -/
theorem Awaits.later (h : ctx.Awaits) (hd : ctx.Extends d)
    (htypes : ∀ u name, d.scopes.typeOf? u name = ctx.scopes.typeOf? u name) : d.Awaits := by
  intro u name hu
  rw [htypes] at hu
  refine (h u name hu).imp_right ?_
  rintro ⟨m, hm, hle⟩
  exact ⟨m, hm.later hd, hle.trans (hd.phase_le _)⟩

theorem Awaits.enrols (h : ctx.Awaits) (hd : ctx.Enrols d) : d.Awaits :=
  h.later hd.onward fun u name => ScopeForest.typeOf?_congr (hd.symbols u) name

/-- Resolution gives types to names of the modules that it leads on. -/
theorem Awaits.resolve (h : ctx.Awaits) (hl : ctx.Linked) (hle : Phase.collected ≤ ctx.phase key) :
    (Context.resolve key ctx).Awaits := by
  obtain ⟨M, hM, -⟩ := exists_resolves hl hle
  have hext := (hM.leads hM.start_mem).toExtends hl
  intro u name hu
  obtain ⟨t, ht⟩ := Option.isSome_iff_exists.mp hu
  rcases hM.attached hl ht with hold | ⟨m, s, y, hm, -, hencloses, -⟩
  · refine (h u name (Option.isSome_iff_exists.mpr ⟨t, hold⟩)).imp_right ?_
    rintro ⟨m, hm, hphase⟩
    exact ⟨m, hm.later hext, hphase.trans (hext.phase_le _)⟩
  · exact Or.inr ⟨m, hencloses, hm⟩

/--
A context behind resolution: a run of steps has led to it from the context before, the types in the
trees of modules that had only been collected are attached, and those in the trees of modules that
had been resolved are what they were.
-/
def Attaches (ctx d : Context) : Prop :=
  ∃ M, Resolves ctx (fun m => Phase.resolved ≤ d.phase m.key) (d :: M) ∧
    ∀ m ∈ ctx.modules, ∀ u, m.root ∈ d.scopes.chain u → ∀ name,
      (m.phase = .collected → ∀ t, d.scopes.typeOf? u name = some t →
        ∃ s y, m.root ∈ d.scopes.chain s ∧ y.Occurs m.program.steps ∧
          Attached d.scopes (d :: M) s y u name t) ∧
      (Phase.resolved ≤ m.phase → d.scopes.typeOf? u name = ctx.scopes.typeOf? u name)

/-- A name in the tree of a module that has not been resolved has no type. -/
theorem Awaits.typeOf?_eq_none (h : ctx.Awaits) (hl : ctx.Linked) {m : Module} {u : ScopeId}
    (hm : ctx.Encloses m u) (hphase : ctx.phase m.key = .collected) (name : String) :
    ctx.scopes.typeOf? u name = none := by
  by_contra hsome
  rcases h u name (Option.isSome_iff_ne_none.mpr hsome) with rfl | ⟨m', hm', hle⟩
  · exact ScopeForest.ne_zero_of_mem_chain hl.scopes (hm.root hl) hm.2 rfl
  · obtain ⟨hkey, -⟩ := hm.same hl hm'
    rw [hkey, hphase] at hle
    exact absurd hle (by decide)

/-- Resolution gives types as declarations say. -/
theorem Awaits.attaches (h : ctx.Awaits) (hl : ctx.Linked) (hle : Phase.collected ≤ ctx.phase key) :
    ctx.Attaches (Context.resolve key ctx) := by
  obtain ⟨M, hM, -⟩ := exists_resolves hl hle
  have hleads := hM.leads hM.start_mem
  refine ⟨M, hM, fun m hm u hu name => ?_⟩
  have hm' : ctx.Encloses m u := ⟨knows_of_module? (hl.module?_of_mem hm),
    ScopeForest.chain_of_untyped hleads.untyped u ▸ hu⟩
  have hphase := phase_of_module? (hl.module?_of_mem hm)
  refine ⟨fun hcollected t ht => ?_, fun hresolved => ?_⟩
  · rcases hM.attached hl ht with hold | ⟨m', s, y, -, hs, hu', hy, hgiven⟩
    · rw [h.typeOf?_eq_none hl hm' (hphase.trans hcollected)] at hold
      cases hold
    · obtain ⟨-, hroot, hprogram⟩ := (hm'.later (hleads.toExtends hl)).same (hleads.linked hl) hu'
      exact ⟨s, y, hroot ▸ hs.2, hprogram ▸ hy, hgiven⟩
  · exact hM.typeOf?_eq hl hm' (hphase ▸ hresolved) name

/-- Type checking gives types to names of modules that have been resolved. -/
theorem Awaits.check (h : ctx.Awaits) (hl : ctx.Linked) (hle : Phase.resolved ≤ ctx.phase key) :
    (Context.check key ctx).Awaits := by
  obtain ⟨W, hW, -⟩ := exists_history filling_checker (fun _ => rfl) rfl (by decide) hl hle
  have hchecks := checks_of_history hW
  have hext := hchecks.leads.toExtends hl
  intro u name hu
  rcases hchecks.encloses_of_typeOf? hl hu with hold | hnew
  · refine (h u name hold).imp_right ?_
    rintro ⟨m, hm, hphase⟩
    exact ⟨m, hm.later hext, hphase.trans (hext.phase_le _)⟩
  · exact Or.inr hnew

end Context

namespace Compilation

open Context

variable {l : Loader} {needed : Path → Prop} {roots : String → Prop}

/-- At first, only builtin types have types. -/
theorem awaits_new (l : Loader) : (new l).context.Awaits := by
  intro u name hu
  by_contra hnot
  obtain ⟨hzero, -⟩ := not_or.mp hnot
  have hnone : (new l).context.scopes.declarations u = [] := declarations_initial hzero
  have hsymbol := ScopeForest.isSome_symbol?_of_typeOf? hu
  rw [ScopeForest.symbol?_eq_find?, List.map_eq_nil_iff.mp hnone] at hsymbol
  cases hsymbol

/-- Between checks, only names of resolved modules have types. -/
theorem keeps_awaits (hclosed : l.Closed needed) :
    Recorder.plain.Keeps l needed roots fun c => c.context.Awaits where
  put h hd _ := h.enrols hd
  collect h hready := by
    obtain ⟨-, hadvances, -⟩ := collect_spec hclosed hready
    exact h.later hadvances.onward hadvances.types
  resolve {key c} h hl hle := by
    rcases Recorder.plain.andThen_cases resolution .resolving key c with he | ⟨d, rfl, he⟩
    · rw [he]
      exact h
    · rw [he]
      exact h.resolve hl hle
  typecheck {key c} h hl hle := by
    rcases Recorder.plain.andThen_cases typing .typechecking key c with he | ⟨d, rfl, he⟩
    · rw [he]
      exact h
    · rw [he]
      exact h.check hl hle

/--
After any checks, when the next entry has been collected, graph, bindings and modules agree, the
entry may be resolved, and no name has a type but those of resolved modules.
-/
theorem awaits_collect {entries : List Path} {entry : Path} {c : Compilation}
    (hreg : ((checkAll entries (new l)).update fun ctx =>
        { ctx with entry? := some (l.moduleKey entry) }).register (l.moduleKey entry) entry =
      (.ok (), c)) :
    (c.collect (l.moduleKey entry)).context.Linked ∧
      Phase.collected ≤ (c.collect (l.moduleKey entry)).context.phase (l.moduleKey entry) ∧
      (c.collect (l.moduleKey entry)).context.Awaits := by
  have hclosed : l.Closed fun _ => True := fun _ _ _ _ => trivial
  have hnew := settled_new l (fun _ => True) fun _ => True
  have h := hnew.checkAll hclosed (fun _ => trivial) (fun _ => trivial) entries
  have hawaits : (checkAll entries (new l)).context.Awaits :=
    Recorder.checkAll_plain entries (new l) ▸ (keeps_awaits hclosed).checkAll (awaits_new l) hnew
      hclosed (fun _ => trivial) (fun _ => trivial) entries
  have henter := h.enter (some (l.moduleKey entry))
  obtain ⟨hlike, hd⟩ := register_ok henter.linked henter.grounded henter.like trivial rfl hreg
  have hready := ready_of_registers henter.accounted henter.inStep trivial hlike hd
  obtain ⟨hcollecting, hadvances, hkey⟩ := collect_spec hclosed hready
  have henrols := (enrols_enter _ (some (l.moduleKey entry))).trans (hd.enrols hreg)
  exact ⟨hcollecting.walking.linked, hkey,
    (hawaits.enrols henrols).later hadvances.onward hadvances.types⟩

/--
After any checks, when the next entry has been collected, resolution gives types as declarations
say. It makes a run of steps of which each gives one type or reports one problem. Behind it, every
type in the tree of a module that had only been collected is attached: either the declaration that
the name is bound by has been seen to mean it, or the name is a member of a declared type and takes
the type of a field that the declaration of the type does not state for it. A name of which neither
can be said has no type. What has been resolved before stays as it is.
-/
theorem resolve_attaches (l : Loader) (entries : List Path) (entry : Path) {c : Compilation}
    (hreg : ((checkAll entries (new l)).update fun ctx =>
        { ctx with entry? := some (l.moduleKey entry) }).register (l.moduleKey entry) entry =
      (.ok (), c)) :
    (c.collect (l.moduleKey entry)).context.Attaches
      (Context.resolve (l.moduleKey entry) (c.collect (l.moduleKey entry)).context) := by
  obtain ⟨hlinked, hkey, hawaits⟩ := awaits_collect hreg
  exact hawaits.attaches hlinked hkey

/-- The file `a.sbl`, which declares one type with one field. -/
def oneType : Loader :=
  .new (.ofRoot ⟨""⟩) (.memory [(⟨"a.sbl"⟩, "type T struct { .x: i8 }")])

/-- The file can be parsed, so what resolution leaves behind is attached. -/
theorem exists_attaches_oneType : ∃ c, ((checkAll [] (new oneType)).update fun ctx =>
      { ctx with entry? := some (oneType.moduleKey ⟨"a.sbl"⟩) }).register
        (oneType.moduleKey ⟨"a.sbl"⟩) ⟨"a.sbl"⟩ = (.ok (), c) ∧
      (c.collect (oneType.moduleKey ⟨"a.sbl"⟩)).context.Attaches
        (Context.resolve (oneType.moduleKey ⟨"a.sbl"⟩)
          (c.collect (oneType.moduleKey ⟨"a.sbl"⟩)).context) := by
  obtain ⟨c, hreg⟩ := @exists_register_ok oneType ⟨"a.sbl"⟩ (by decide +kernel)
    (oneType.moduleKey ⟨"a.sbl"⟩)
  exact ⟨c, hreg, resolve_attaches oneType [] ⟨"a.sbl"⟩ hreg⟩

end Compilation

end Sable
