import Sable.Proofs.Compilation.Checking
import Sable.Proofs.Compilation.Narrating

/-!
# What is told behind any checks

All that is told of the modules is true behind any checks of any files, if imports come first in
them: from the empty compilation on it is kept by registering an entry, by collection and by each of
the later passes. Where nothing stops the passes, a module that has been collected is reached from
an entry, and if no two paths share a key, an entry that is a module has gone through all passes.
-/

namespace Sable

open Context

variable {l : Loader} {needed : Path → Prop} {roots : String → Prop} {es : List Path}

namespace Context

variable {c d : Context} {k key : String}

/-- Nothing is told of modules where something stops the passes. -/
theorem Told.of_fatal (hproper : c.Proper) (hfatal : c.diagnostics.hasFatal = true) :
    Told l es k c :=
  ⟨hproper, fun hmild => absurd (hmild.symm.trans hfatal) (by decide),
    fun hmild => absurd (hmild.symm.trans hfatal) (by decide)⟩

/-- Modules that are reached may be registered. -/
theorem told_enrols (h : ∀ k, Told l es k c) (hc : c.Grounded l needed) (hg : d.Grounded l needed)
    (hd : c.Enrols d)
    (hreports : d.diagnostics = c.diagnostics)
    (himports : ∀ s, d.scopes.imports s = c.scopes.imports s)
    (hnew : ∀ {m}, d.Knows m → c.hasModule m.key = false → d.Reached l es m.key) (k : String) :
    Told l es k d := by
  have hproper := hd.proper (h k).proper
  have hmild (hd : d.diagnostics.hasFatal = false) : c.diagnostics.hasFatal = false := hreports ▸ hd
  -- No module imports anything, so the step concerns none; any other key will do.
  have hne : k ≠ k ++ "." := fun he => absurd (congrArg String.length he) (by simp)
  refine (h k).skirted hne hproper (fun hd' r hr => ?_) hd.onward (fun _ => ?_)
    fun hd' m hm _ hfree => ?_
  · obtain ⟨m, hm, hfile⟩ := (h k).attributed (hmild hd') r (hreports ▸ hr)
    exact ⟨m, hd.onward.modules hm, hfile⟩
  · have hitems : d.diagnostics.items = c.diagnostics.items ++ [] := by simp [hreports]
    exact hd.skirts (h k).proper (fun _ _ _ _ => himports _) hitems fun _ _ => nofun
  · refine hd.tells (h k).proper.linked hm hfree (Or.inl (hnew hm hfree)) (himports _) ?_
    have hsame : d.reportsIn m.file.text = c.reportsIn m.file.text := by
      rw [reportsIn, hreports, reportsIn]
    rw [hsame]
    refine ((h k).attributed (hmild hd')).reportsIn_of_free hc ?_
    rw [← hg.key_of_knows hm]
    exact hfree

/-- A pass behind the first one keeps all that is told up to date. -/
theorem told_traverse {v : Module → Visitor Context} {p target : Phase} (hv : LaterPass v p target)
    (hg : c.Grounded l needed) (hstep : c.InStep [])
    (hstory : ∀ m, Chronicle l m target = Advanced v target (Chronicle l m p) m)
    (hkeeps : ∀ {m c}, c.Proper → c.Grounded l needed → c.Knows m → Chronicle l m.blank p c →
      ∀ {q : Phase}, Phase.resolved ≤ q → q ≤ p →
        c.scopes.ReadsAs q.Settles m.root ((v m).walkBody m c).scopes m.root)
    (hfirst : ∀ p program, l.Parses p program → program.ImportsFirst) (pass : Pass)
    (activity : String) (hl : c.Linked) (hle : p ≤ c.phase key) (h : ∀ k, Told l es k c)
    (k : String) : Told l es k (traverse (traversal target pass activity v) key c) := by
  have hparsed : Phase.parsed ≤ p := le_trans (by decide) hv.collected
  have hobeys : (traversal target pass activity v).Obeys (passing target p c) :=
    obeys_passing hv.filling hv.importing hv.previous hparsed c
  exact ((narrates_passing hv hg hstep hstory hkeeps hfirst pass activity).runWithin hobeys
    (once_passing hv.previous hparsed c) (c.modules.length + 1) (ready_passing hl hle)
    (by simp [passing]) trivial fun k _ => h k).1 k List.not_mem_nil

/-- What is told stays true along resolution. -/
theorem told_resolve (hg : c.Grounded l needed) (hstep : c.InStep [])
    (hfirst : ∀ p program, l.Parses p program → program.ImportsFirst) (hl : c.Linked)
    (hle : Phase.collected ≤ c.phase key) (h : ∀ k, Told l es k c) (k : String) :
    Told l es k (Context.resolve key c) :=
  told_traverse laterPass_resolver hg hstep (fun _ => rfl)
    (fun _ _ _ _ _ hq hle => absurd (hq.trans hle) (by decide)) hfirst _ _ hl hle h k

/-- What is told stays true along type checking. -/
theorem told_check (hg : c.Grounded l needed) (hstep : c.InStep [])
    (hfirst : ∀ p program, l.Parses p program → program.ImportsFirst) (hl : c.Linked)
    (hle : Phase.resolved ≤ c.phase key) (h : ∀ k, Told l es k c) (k : String) :
    Told l es k (Context.check key c) := by
  refine told_traverse laterPass_checker hg hstep (fun _ => rfl) ?_ hfirst _ _ hl hle h k
  intro m c hproper hgrounded hknows hchronicle q hq hle
  -- What resolution has settled are types of type declarations, and no variable is one.
  obtain rfl : q = .resolved := le_antisymm hle hq
  obtain ⟨text, n, -, hparse⟩ := hgrounded.parses_of_knows hknows
  have hresolved : Resolved l m.blank c := hchronicle
  have hstated : c.Stated m.blank := Resolved.stated hresolved hproper hknows.blank
  exact (typesInside_walkBody m m.phase c).readsAs hparse hstated (hproper.encloses_root hknows).2

end Context

namespace Compilation

variable {c d : Compilation} {key : String} {entry : Path}

/-- Before the first check there is nothing to tell. -/
theorem told_new (l : Loader) (es : List Path) (k : String) : Told l es k (new l).context where
  proper :=
    { toSheltered := isolated_initial.toSheltered
      linked := (settled_new l (fun _ => True) fun _ => True).linked
      parents := fun _ _ => rfl
      symbols := fun _ _ => rfl }
  attributed _ _ hr := absurd hr List.not_mem_nil
  tells := by
    rintro - m ⟨p, -, hm⟩
    cases hm

/-- What is told stays true along the passes. -/
theorem told_runPasses (hclosed : l.Closed needed)
    (hfirst : ∀ p program, l.Parses p program → program.ImportsFirst)
    (hready : (collecting l needed roots).Ready [] key c)
    (hreached : c.context.diagnostics.hasFatal = false → c.context.Reached l es key)
    (h : ∀ k, Told l es k c.context) (k : String) : Told l es k (c.runPasses key).context := by
  obtain ⟨hc, -, hkey⟩ := collect_spec hclosed hready
  have hl := hc.walking.linked
  have hcollected : ∀ k, Told l es k (c.collect key).context := fun k =>
    ((narrates_collecting l es needed roots hclosed hfirst).runWithin (obeys_collecting hclosed)
      once_collecting _ hready (limit_le hready) hreached fun k _ => h k).1 k List.not_mem_nil
  have hresolved := told_resolve hc.grounded hc.inStep hfirst hl hkey hcollected
  obtain ⟨hr, hrkey⟩ := resolve_spec hl hkey
  have hgrounded := hr.grounded rfl le_rfl hc.grounded
  have hstep := hr.inStep rfl hc.grounded hc.inStep
  have hchecked := told_check hgrounded hstep hfirst hr.walking.linked hrkey hresolved
  cases hfatal : (c.collect key).context.diagnostics.hasFatal with
  | true =>
    have hends : c.runPasses key = c.collect key := by simp [runPasses, andThen, hfatal]
    exact hends ▸ hcollected k
  | false =>
    have hfatal' := hr.since.hasFatal_eq.trans hfatal
    have hends : (c.runPasses key).context =
        Context.check key (Context.resolve key (c.collect key).context) := by
      simp [runPasses, andThen, hfatal, hfatal', update]
    exact hends ▸ hchecked k

/-- What is told stays true along a check. -/
theorem told_checkEntry (h : Settled l needed roots c) (hclosed : l.Closed needed)
    (hfirst : ∀ p program, l.Parses p program → program.ImportsFirst) (hneeded : needed entry)
    (hroot : roots (l.moduleKey entry)) (hentry : entry ∈ es) (htold : ∀ k, Told l es k c.context)
    (k : String) : Told l es k (c.check entry).2.context := by
  have houtcome := check_outcome entry c
  rw [h.like.moduleKey_eq] at houtcome
  have hasked : ∀ k, Told l es k (c.asked (l.moduleKey entry)).context :=
    told_enrols htold h.grounded (h.enter _).grounded
      (enrols_enter c.context (some (l.moduleKey entry))) rfl (fun _ => rfl)
      fun hm hfree => absurd (hfree.symm.trans hm.hasModule) (by decide)
  generalize (c.check entry).1 = x, (c.check entry).2 = d at houtcome
  cases houtcome with
  | unreadable => exact hasked k
  | malformed =>
    refine .of_fatal ((enrols_report ..).proper (hasked k).proper) ?_
    simp [Context.report, loadReport, Severity.isFatal]
  | @passed d hreg =>
    obtain ⟨hready, -⟩ := h.ready hneeded hroot hreg
    have h' := h.enter (some (l.moduleKey entry))
    obtain ⟨-, hd⟩ := register_ok h'.linked h'.grounded h'.like hneeded rfl hreg
    obtain ⟨target, htarget⟩ := hd.target
    have hreached : d.context.Reached l es (l.moduleKey entry) :=
      ⟨entry, hentry, by simp [hasModule, htarget], .refl⟩
    have hreports := diagnostics_register (l.moduleKey entry) entry (c.asked (l.moduleKey entry))
    rw [hreg] at hreports
    refine told_runPasses hclosed hfirst hready (fun _ => hreached) ?_ k
    refine told_enrols hasked h'.grounded hd.grounded (hd.enrols hreg) hreports hd.imports
      fun hm hfree => ?_
    -- The only module that may be new is that of the entry.
    obtain ⟨m', hm', hkey, -⟩ := hm.exists_mem
    rcases hd.modules with hsame | ⟨-, -, hnew⟩
    · rw [hsame] at hm'
      exact absurd ((hkey ▸ hasModule_of_mem hm').symm.trans hfree) (by decide)
    · rcases hnew m' hm' with hold | hkey'
      · exact absurd ((hkey ▸ hasModule_of_mem hold).symm.trans hfree) (by decide)
      · rw [← hkey, hkey']
        exact hreached

/-- What is told stays true along any checks. -/
private theorem told_checkAll (h : Settled l needed roots c) (hclosed : l.Closed needed)
    (hneeded : ∀ p, needed p) (hroot : ∀ k, roots k)
    (hfirst : ∀ p program, l.Parses p program → program.ImportsFirst)
    (htold : ∀ k, Told l es k c.context) {entries : List Path} (hsub : entries ⊆ es) (k : String) :
    Told l es k (checkAll entries c).context := by
  induction entries generalizing c with
  | nil => exact htold k
  | cons entry entries ih =>
    rw [List.cons_subset] at hsub
    exact ih (h.check hclosed (hneeded entry) (hroot _))
      (told_checkEntry h hclosed hfirst (hneeded entry) (hroot _) hsub.1 htold) hsub.2

/-- A check of a program yields a key. -/
private theorem check_of_parses (h : Settled l needed roots c) {program : Program}
    (hparses : l.Parses entry program) : (c.check entry).1 = .ok (l.moduleKey entry) := by
  have houtcome := check_outcome entry c
  rw [h.like.moduleKey_eq] at houtcome
  generalize (c.check entry).1 = x, (c.check entry).2 = d at houtcome
  cases houtcome with
  | unreadable _ hload =>
    obtain ⟨text, n, hread, -⟩ := hparses
    have hread' : c.loader.read entry = .ok text := by
      rw [Loader.read, h.like.store]
      exact hread
    simp [Loader.load, hread', Except.mapError] at hload
    split at hload <;> simp at hload
  | malformed => rfl
  | passed => rfl

/-- An entry that is a program has gone through all passes behind any checks that nothing stops. -/
private theorem typechecked_entry
    (hmild : (checkAll es (new l)).context.diagnostics.hasFatal = false) (hentry : entry ∈ es)
    {program : Program} (hparses : l.Parses entry program) :
    (checkAll es (new l)).context.phase (l.moduleKey entry) = .typechecked := by
  have hclosed : l.Closed fun _ => True := fun _ _ _ _ => trivial
  obtain ⟨before, after, rfl⟩ := List.append_of_mem hentry
  have h := (settled_new l (fun _ => True) fun _ => True).checkAll hclosed
    (fun _ => trivial) (fun _ => trivial) before
  have hchecked : Settled l (fun _ => True) (fun _ => True)
      ((checkAll before (new l)).check entry).2 := h.check hclosed trivial trivial
  have hext := hchecked.extends_checkAll hclosed (fun _ => trivial) (fun _ => trivial) after
  rw [checkAll_append] at hmild ⊢
  have hkey := h.check_typechecked hclosed trivial trivial (check_of_parses h hparses)
    (hext.mild hmild)
  exact phase_eq_typechecked (hkey ▸ hext.phase_le _)

end Compilation

/-! ### Behind all checks -/

namespace Context

/-- All that is told of a context behind checks of entry files that nothing stops. -/
structure Annals (l : Loader) (es : List Path) (c : Context) : Prop where
  /-- Modules are kept apart. -/
  proper : c.Proper
  /-- What the context holds has its ground. -/
  grounded : c.Grounded l fun _ => True
  /-- No module is ahead of its imports. -/
  inStep : c.InStep []
  /-- Every report is in the file of a module. -/
  attributed : c.Attributed
  /-- This is told of each module. -/
  tells : ∀ {m}, c.Knows m → Account l es m.blank c
  /-- An entry that is a program has gone through all passes. -/
  entered : ∀ e ∈ es, ∀ program, l.Parses e program → c.phase (l.moduleKey e) = .typechecked

/-- All this is told of checks of files that import first. -/
theorem annals_checkAll (hfirst : ∀ p program, l.Parses p program → program.ImportsFirst)
    (hmild : (Compilation.checkAll es (.new l)).context.diagnostics.hasFatal = false) :
    Annals l es (Compilation.checkAll es (.new l)).context := by
  have hclosed : l.Closed fun _ => True := fun _ _ _ _ => trivial
  have hnew := Compilation.settled_new l (fun _ => True) fun _ => True
  have hsettled := hnew.checkAll hclosed (fun _ => trivial) (fun _ => trivial) es
  have htold := Compilation.told_checkAll hnew hclosed (fun _ => trivial) (fun _ => trivial) hfirst
    (Compilation.told_new l es) (List.Subset.refl es)
  exact ⟨(htold "").proper, hsettled.grounded, hsettled.inStep, (htold "").attributed hmild,
    fun hm => (htold _).tells hmild hm rfl,
    fun _ he _ hparses => Compilation.typechecked_entry hmild he hparses⟩

namespace Annals

variable {m : Module} {k : String} (h : Annals l es c)
include h

/-- The imports of a module that has been collected have been followed. -/
theorem followed (hm : c.Knows m) (hle : Phase.collected ≤ c.phase m.key) : Followed l m c := by
  have hfollowed := (h.tells hm).chronicle.followed hle
  exact ⟨hfollowed.root, hfollowed.imports, hfollowed.located⟩

/-- A module that has been collected imports what its foreword binds. -/
theorem edge_iff (hm : c.Knows m) (hle : Phase.collected ≤ c.phase m.key) :
    c.graph.Edge m.key k ↔ ∃ b ∈ (l.foreword m.file m.program.preface).1, b.key = k := by
  have hfollowed := h.followed hm hle
  obtain ⟨m', hm', hkey, hroot, -⟩ := hm.exists_mem
  rw [← hkey, h.proper.linked.edge_iff m' hm', hroot, ← hfollowed.imports]
  constructor
  · rintro ⟨s, b, hs, hb, hbkey⟩
    obtain rfl := hfollowed.root hs hb
    exact ⟨b.unrooted, List.mem_map_of_mem hb, hbkey⟩
  · rintro ⟨b, hb, hbkey⟩
    obtain ⟨b', hb', rfl⟩ := List.mem_map.mp hb
    exact ⟨m.root, b', (h.proper.encloses_root hm).2, hb', hbkey⟩

/-- A module that is not reached has only been parsed. -/
theorem phase_of_not_reached (hm : c.Knows m) (hk : ¬ c.Reached l es m.key) :
    c.phase m.key = .parsed := by
  obtain ⟨m', hm', hkey, -⟩ := hm.exists_mem
  have hle := h.proper.linked.parsed m' hm'
  rw [← phase_of_module? (h.proper.linked.module?_of_mem hm'), hkey] at hle
  have hlt : ¬ Phase.collected ≤ c.phase m.key := fun hle => hk ((h.tells hm).reached hle)
  generalize c.phase m.key = p at hle hlt
  cases p with
  | notStarted => exact absurd hle (by decide)
  | parsed => rfl
  | _ => exact absurd (by decide) hlt

variable (hfiles : ∀ e ∈ es, ∀ {m}, c.Knows m → m.key = l.moduleKey e → m.file = e)
include hfiles

/-- A module that is reached has gone through all passes, if its key stands for one file. -/
theorem phase_of_reached (hk : c.Reached l es k) : c.phase k = .typechecked := by
  obtain ⟨e, he, hhas, hway⟩ := hk
  induction hway with
  | refl =>
    obtain ⟨m, hm⟩ := exists_of_hasModule hhas
    have hknows := knows_of_module? hm
    refine h.entered e he m.program ?_
    rw [← hfiles e he hknows (mem_of_module? hm).2]
    exact h.grounded.parses_of_knows hknows
  | @tail u v _ hedge ih =>
    obtain ⟨m, hm, rfl⟩ := h.proper.linked.source hedge
    have hmodule := h.proper.linked.module?_of_mem hm
    have hknows := knows_of_module? hmodule
    obtain ⟨s, b, hs, hb, rfl⟩ := (h.proper.linked.edge_iff m hm v).mp hedge
    obtain rfl := (h.followed hknows (ih.ge.trans' (by decide))).root hs hb
    have hle := h.inStep.outer m hm b hb
    rw [← phase_of_module? hmodule, ih] at hle
    exact phase_eq_typechecked hle

end Annals

end Context

end Sable
