import Sable.Proofs.Compilation.Telling
import Sable.Proofs.Compilation.Pointing
import Sable.Proofs.Context.Bypassing
import Sable.Proofs.Module.Secluded

/-!
# Telling of modules along the passes

The walk over the body of a module that imports first turns to no other module. Whichever pass it
belongs to, all that it does concerns the tree of the module and the reports in its file.

What is told of the modules stays up to date along each pass. Collection follows the preface of a
module import by import, and then collects its body. The later passes walk the body of a module
behind all modules that it imports, so what they read of these has been settled.
-/

namespace Sable

namespace Context

variable {m : Module}

/-- Reports at the sites of the steps of a module are reports in its file. -/
theorem filed_of_points {σ : Type} {v : Visitor σ} {f : σ → Context}
    (hstop : ∀ s x c, (f c).Points m x.sites (f (v.stop s x c)))
    (hhead : ∀ s hd c, (f c).Points m hd.sites (f (v.head s hd c).2)) (c : σ) :
    ∃ es, (f (v.walkBody m c)).diagnostics.items = (f c).diagnostics.items ++ es ∧
      ∀ r ∈ es, r.file = m.file.text := by
  have hpoints : (f c).Points m m.program.sites (f (v.walkBody m c)) :=
    Visitor.walkBody_respects (R := fun c d => (f c).Points m m.program.sites (f d))
      (fun c => .refl m _ (f c)) (fun h h' => h.trans h')
      (fun hx s c => (hstop s _ c).mono hx.sites_subset)
      (fun hx s c => (hhead s _ c).mono hx.sites_subset) c
  obtain ⟨es, hes, hnew⟩ := hpoints.added
  exact ⟨es, hes, fun r hr => (hnew r hr).1⟩

/-! ### Passes behind the first one -/

/-- A context that another one can turn into by giving types to names in the tree of a module. -/
structure TypesIn (m : Module) (c d : Context) : Prop extends c.Types d where
  /-- Outside the tree no name changes. -/
  outside : ∀ t, m.root ∉ c.scopes.chain t → d.scopes.symbols t = c.scopes.symbols t

namespace TypesIn

variable {c d e : Context}

theorem refl (m : Module) (c : Context) : c.TypesIn m c := ⟨.refl c, fun _ _ => rfl⟩

theorem trans (h : c.TypesIn m d) (h' : d.TypesIn m e) : c.TypesIn m e := by
  refine ⟨h.toTypes.trans h'.toTypes, fun t ht => (h'.outside t ?_).trans (h.outside t ht)⟩
  rwa [ScopeForest.chain_of_untyped h.untyped]

/-- No scope is opened, so with reports in the file of the module nothing else is concerned. -/
theorem works (h : c.TypesIn m d) (hfiled : ∃ es, d.diagnostics.items = c.diagnostics.items ++ es ∧
    ∀ r ∈ es, r.file = m.file.text) : c.Works m d where
  toFills := h.toFills
  outside t ht := h.outside t (ScopeForest.chain_of_untyped h.untyped t ▸ ht)
  opened t ht ht' := by
    have hsize : d.scopes.size = c.scopes.size := by
      rw [← ScopeForest.size_untyped, h.untyped, ScopeForest.size_untyped]
    exact absurd (hsize ▸ ht') ht.not_gt
  filed := hfiled

end TypesIn

/-- A pass gives types to names in the tree of the module. -/
theorem typesIn_walkBody {target p : Phase} {v : Module → Visitor Context} {c₀ c : Context}
    {stack : List String} (hv : ∀ m, Filling (v m)) (hlocal : ∀ m, Local (v m))
    (hfirst : m.program.ImportsFirst) (hc : (passing target p c₀).At stack m m.root c) :
    c.TypesIn m ((v m).walkBody m c) := by
  have hvisits : (v m).Visits ((passing target p c₀).Admits m) ((passing target p c₀).Stands m)
      ((passing target p c₀).At stack m) (TypesIn m) :=
    ((visits_types hv c₀ stack m).and (visits_local hv hlocal c₀ stack m)).imp
      fun _ hd => ⟨hd.1, hd.2⟩
  refine Visitor.walkBody_keeps hvisits (.refl m) .trans (fun h hs => ?_) hfirst
    (fun _ hq => hq) hc
  have hfills := h.toFills
  exact ⟨hs.1.fills hfills, hfills.linked hs.2.1, hs.2.2.later (hfills.toExtends hs.2.1)⟩

end Context

/-! ### The first pass -/

namespace Compilation

open Context

variable {l : Loader} {needed : Path → Prop} {roots : String → Prop} {stack : List String}
  {c : Compilation} {m : Module}

/-- Collection declares names in the tree of the module, and reports problems in its file. -/
theorem works_collectBody (hfirst : m.program.ImportsFirst)
    (hc : (collecting l needed roots).At stack m m.root c) :
    c.context.Works m ((collector m).walkBody m c).context := by
  -- One walk may follow another where graph, bindings and modules agree.
  have hwalk : c.context.Linked → c.Fills m ((collector m).walkBody m c) := by
    have hvisits : (collector m).Visits ((collecting l needed roots).Admits m)
        ((collecting l needed roots).Stands m) ((collecting l needed roots).At stack m)
        fun c d => c.context.Linked → c.Fills m d := (visits_fills stack m).imp fun _ hd _ => hd
    refine Visitor.walkBody_keeps hvisits (fun c _ => .refl m c) (fun h h' hl => ?_)
      (fun h hs => ?_) hfirst (fun _ hq => hq) hc
    · exact (h hl).trans hl (h' ((h hl).context.linked hl))
    · have hfills := h hs.2.1
      exact ⟨hs.1.fills hfills, hfills.context.linked hs.2.1, hfills.encloses hs.2.1 hs.2.2⟩
  have hfills := hwalk hc.2.1
  refine ⟨hfills.context, hfills.outside, hfills.opened, ?_⟩
  exact filed_of_points (f := context) (fun _ _ _ => points_stop_collector _)
    (fun _ _ _ => points_head_collector _) c

end Compilation

open Context

namespace Context

variable {l : Loader} {es : List Path} {needed : Path → Prop} {c y : Context} {m : Module}
  {target : Phase}

/-! ### Leaving a module -/

/-- The body of a module is walked, and then the walk over the module is closed. -/
structure Leaves (l : Loader) (needed : Path → Prop) (m : Module) (target : Phase)
    (c y : Context) : Prop where
  /-- In front of the body, modules are kept apart. -/
  proper : c.Proper
  /-- The module is known. -/
  knows : c.Knows m
  /-- What the context holds has its ground. -/
  grounded : c.Grounded l needed
  /-- The walk concerns the module only. -/
  works : c.Works m y
  /-- The module is led on. -/
  leads : y.Leads target (y.setPhase m.key target)
  /-- No other one moves. -/
  phase : ∀ k, (y.setPhase m.key target).phase k = if k = m.key then target else y.phase k
  /-- What had been settled of the module goes on to be read. -/
  reads : c.diagnostics.hasFatal = false → ∀ {p : Phase}, Phase.resolved ≤ p →
    p ≤ c.phase m.key → c.scopes.ReadsAs p.Settles m.root y.scopes m.root

namespace Leaves

variable (h : Leaves l needed m target c y)
include h

theorem onward : c.Extends (y.setPhase m.key target) :=
  (h.works.toFills.toExtends h.proper.linked).trans
    (h.leads.toPasses.toExtends (h.works.linked h.proper.linked))

theorem proper_left : (y.setPhase m.key target).Proper := by
  have hl := h.works.linked h.proper.linked
  exact (h.works.proper h.proper h.knows).later (h.leads.linked hl) (h.leads.shelters hl)
    fun s _ => by rw [scopes_setPhase]

theorem skirts (hmild : (y.setPhase m.key target).diagnostics.hasFatal = false) :
    c.Skirts m.key (y.setPhase m.key target) :=
  h.works.skirts h.proper h.knows (fun hu hne => h.grounded.file_ne hu h.knows hne)
    h.leads.toPasses (scopes_setPhase ..) (diagnostics_setPhase ..) h.phase
    (h.reads (h.onward.mild hmild))

/-- What the walk has come to is what there is of the module. -/
theorem remains : Remains m.blank c y (y.setPhase m.key target) where
  proper := h.proper
  knows := h.knows.blank
  works := ⟨h.works.toFills, h.works.outside, h.works.opened, h.works.filed⟩
  bypasses := .of_same h.leads.modules (scopes_setPhase ..) (diagnostics_setPhase ..)

theorem attributed (hc : c.diagnostics.hasFatal = false → c.Attributed)
    (hmild : (y.setPhase m.key target).diagnostics.hasFatal = false) :
    (y.setPhase m.key target).Attributed := by
  obtain ⟨rs, hrs, hfile⟩ := h.works.filed
  exact (hc (h.onward.mild hmild)).append h.onward (by rw [diagnostics_setPhase, hrs]) hfile
    (h.onward.modules h.knows)

/-- No module is registered. -/
private theorem not_new {u : Module} (hu : (y.setPhase m.key target).Knows u) :
    c.hasModule u.key ≠ false := by
  obtain ⟨u', hu', hkey, -⟩ := hu.exists_mem
  obtain ⟨u₀, hu₀, p, -, rfl⟩ := h.leads.toPasses.exists_mem (h.works.linked h.proper.linked) hu'
  rw [h.works.modules] at hu₀
  have hhas := hasModule_of_mem hu₀
  rw [show u₀.key = u.key from hkey] at hhas
  rw [hhas]
  decide

theorem told_other (hc : c.diagnostics.hasFatal = false → c.Attributed) {k : String}
    (hk : k ≠ m.key) (htold : Told l es k c) : Told l es k (y.setPhase m.key target) :=
  htold.skirted hk h.proper_left (h.attributed hc) h.onward h.skirts
    fun _ _ hu _ hfree => absurd hfree (h.not_new hu)

theorem begun_other (hc : c.diagnostics.hasFatal = false → c.Attributed) {u : Module}
    {is : List Import} (hne : u.key ≠ m.key) (hbegun : Begun l es is u c) :
    Begun l es is u (y.setPhase m.key target) :=
  hbegun.skirted hne h.proper_left (h.attributed hc) h.onward h.skirts

theorem told (hc : c.diagnostics.hasFatal = false → c.Attributed)
    (hown : (y.setPhase m.key target).diagnostics.hasFatal = false →
      Account l es m.blank (y.setPhase m.key target)) :
    Told l es m.key (y.setPhase m.key target) where
  proper := h.proper_left
  attributed := h.attributed hc
  tells hmild _ hu hkey := (h.onward.modules h.knows).blank_eq hu hkey.symm ▸ hown hmild

theorem tells
    (hreached : Phase.collected ≤ target → (y.setPhase m.key target).Reached l es m.key)
    (hnamed : (y.setPhase m.key target).Named l es m.key)
    (hchronicle : Chronicle l m.blank target (y.setPhase m.key target)) :
    Account l es m.blank (y.setPhase m.key target) := by
  have hphase := h.phase m.key
  rw [if_pos rfl] at hphase
  refine ⟨fun hle => hreached ?_, hnamed, ?_⟩
  · rwa [Module.key_blank, hphase] at hle
  · rwa [Module.key_blank, hphase]

end Leaves

/-! ### Passes behind the first one -/

/-- A pass behind the first one leads modules from phase to phase by giving types to names. -/
structure LaterPass (v : Module → Visitor Context) (p target : Phase) : Prop where
  /-- There is no phase in between. -/
  previous : target.previous? = some p
  /-- The modules have been collected. -/
  collected : Phase.collected ≤ p
  /-- Imports are followed by their aliases. -/
  importing : ∀ m, (v m).importing = nextModule target
  /-- Visits give types to names. -/
  filling : ∀ m, Filling (v m)
  /-- They do so where they are made. -/
  bounded : ∀ m, Local (v m)
  /-- Problems at places that stay in their scopes are reported in the file of the module. -/
  stops : ∀ m s x c, Points m x.sites c ((v m).stop s x c)
  /-- So are problems at heads of functions. -/
  heads : ∀ m s hd c, Points m hd.sites c ((v m).head s hd c).2

theorem laterPass_resolver : LaterPass resolver .collected .resolved where
  previous := rfl
  collected := le_rfl
  importing _ := rfl
  filling := filling_resolver
  bounded := local_resolver
  stops _ _ x _ := points_stop_resolver x
  heads _ _ hd _ := points_head_resolver hd

theorem laterPass_checker : LaterPass checker .resolved .typechecked where
  previous := rfl
  collected := by decide
  importing _ := rfl
  filling := filling_checker
  bounded := local_checker
  stops _ _ x _ := points_stop_checker x
  heads _ _ hd _ := points_head_checker hd

section

variable {v : Module → Visitor Context} {p : Phase} {c₀ : Context} {stack : List String}
  (hv : LaterPass v p target) (hg : c₀.Grounded l needed) (hstep : c₀.InStep [])
  (hstory : ∀ m, Chronicle l m target = Advanced v target (Chronicle l m p) m)
  (hkeeps : ∀ {m c}, c.Proper → c.Grounded l needed → c.Knows m → Chronicle l m.blank p c →
    ∀ {q : Phase}, Phase.resolved ≤ q → q ≤ p →
      c.scopes.ReadsAs q.Settles m.root ((v m).walkBody m c).scopes m.root)

include hv hg hkeeps in
/-- A module is led on by the walk over its body. -/
private theorem leaves_passing (hfirst : m.program.ImportsFirst)
    (hs : (passing target p c₀).At stack m m.root c) (htold : Told l es m.key c)
    (hknows : c.Knows m) (hend : (passing target p c₀).At stack m m.root ((v m).walkBody m c)) :
    Leaves l needed m target c ((v m).walkBody m c) := by
  obtain ⟨-, hleads, hphase⟩ := hend.1.walking.leave hend.2.2.1 hv.previous
  have hgrounded := hs.1.grounded hv.previous hv.collected hg
  have hcame := hs.1.walking.phases m.key (List.mem_cons_self ..)
  refine ⟨htold.proper, hknows, hgrounded, ?_, hleads, hphase, fun hmild _ hq hle => ?_⟩
  · exact (typesIn_walkBody hv.filling hv.bounded hfirst hs).works
      (filed_of_points (f := id) (hv.stops m) (hv.heads m) c)
  · have hchronicle := (htold.tells hmild hknows rfl).chronicle
    rw [Module.key_blank, hcame] at hchronicle
    exact hkeeps htold.proper hgrounded hknows hchronicle hq (hcame ▸ hle)

include hstep hg hv in
/-- What the walk has read of imported modules is what is read of them still. -/
private theorem reads_passing (h : Leaves l needed m target c ((v m).walkBody m c))
    (hmild : (((v m).walkBody m c).setPhase m.key target).diagnostics.hasFatal = false)
    (hinv : Passing target p c₀ stack (((v m).walkBody m c).setPhase m.key target)) :
    ∀ b ∈ c.scopes.imports m.root,
      target ≤ (((v m).walkBody m c).setPhase m.key target).phase b.key ∧
      c.scopes.ReadsAs target.Settles b.root
        (((v m).walkBody m c).setPhase m.key target).scopes b.root := by
  intro b hb
  obtain ⟨m', hm', hkey, hroot, -⟩ := (h.onward.modules h.knows).exists_mem
  refine ⟨?_, ?_⟩
  · have hphase := phase_of_module? (hinv.walking.linked.module?_of_mem hm')
    rw [hkey, h.phase, if_pos rfl] at hphase
    refine hphase.le.trans ((hinv.inStep hv.previous hg hstep).outer m' hm' b ?_)
    rw [hroot, scopes_setPhase, h.works.scopes.imports]
    exact hb
  · -- No module imports itself, so the imported one has been left alone.
    obtain ⟨u, hknows, -, hroot, hne⟩ := h.proper.exists_of_import h.knows hb
    rw [← hroot]
    exact .of_symbols (((h.skirts hmild).bypasses hknows hne).symbols (h.proper.sees_root hknows))

include hv hg hstep hstory hkeeps in
/-- A pass behind the first one keeps what is told of the modules up to date. -/
theorem narrates_passing (hfirst : ∀ p program, l.Parses p program → program.ImportsFirst)
    (pass : Pass) (activity : String) :
    (passing target p c₀).Narrates (Told l es) (fun _ m c => Told l es m.key c ∧ c.Knows m)
      (fun _ _ => True) (traversal target pass activity v) where
  enter {stack key c} hready := by
    rcases he : (traversal target pass activity v).enter key c with ⟨m?, d⟩
    exact (hready.1.enter_cases hv.previous (le_trans (by decide) hv.collected) he).1
  begins {stack m c} hready he := by
    obtain ⟨-, hm, -⟩ := hready.1.enter_cases hv.previous (le_trans (by decide) hv.collected) he
    have hknows := knows_of_module? hm
    have hgrounded := hready.2.grounded hv.previous hv.collected hg
    exact ⟨hfirst _ _ (hgrounded.parses_of_knows hknows), fun _ htold => ⟨htold, hknows⟩⟩
  imports {stack m is i c key? d} _ _ _ he hbegun := by
    have hsame : c = d := by
      rw [show ((traversal target pass activity v).visitor m).importing = nextModule target from
        hv.importing m] at he
      exact (Prod.mk.inj he).2
    subst hsame
    exact ⟨hbegun, ⟨fun _ _ => id, fun _ _ _ => id⟩, fun _ _ => trivial⟩
  leaves {stack m c} hfirst _ hs hbegun hend hinv := by
    obtain ⟨htold, hknows⟩ := hbegun
    have h := leaves_passing hv hg hkeeps hfirst hs htold hknows hend
    have hcame := hs.1.walking.phases m.key (List.mem_cons_self ..)
    have hother : ∀ k ≠ m.key, Told l es k c →
        Told l es k (((v m).walkBody m c).setPhase m.key target) :=
      fun k hk htold' => h.told_other htold.attributed hk htold'
    refine ⟨h.told htold.attributed fun hmild => ?_, hother, fun _ u hne hu =>
      ⟨hother u.key hne hu.1, h.onward.modules hu.2⟩⟩
    have htells := htold.tells (h.onward.mild hmild) hknows rfl
    have hchronicle := htells.chronicle
    rw [Module.key_blank, hcame] at hchronicle
    refine h.tells (fun _ => (htells.reached ?_).later h.onward) (htells.named.later h.onward) ?_
    · rw [Module.key_blank, hcame]
      exact hv.collected
    · rw [hstory]
      have htypes := (typesIn_walkBody hv.filling hv.bounded hfirst hs).toTypes
      have hreads := reads_passing hv hg hstep h hmild hinv
      exact ⟨m.phase, c, hchronicle, h.remains, htypes, hreads⟩

end

end Context

namespace Compilation

variable {l : Loader} {es : List Path} {needed : Path → Prop} {roots : String → Prop}
  {stack : List String} {c d : Compilation} {m : Module} {is : List Import} {i : Import}
  {key : String} {key? : Option String}

/-! ### Collection -/

section Import

variable (hclosed : l.Closed needed) (hi : m.Holds m.root i)
  (hs : (collecting l needed roots).At stack m m.root c) (hmem : i ∈ m.program.preface)
  (hc : collectImport m m.root i c = (key?, d)) (hbegun : Begun l es is m c.context)

include hclosed hi hs hc

/-- An import that does not stop the passes leads to a module, and is bound or refused. -/
private theorem heeds_import (hmild : d.context.diagnostics.hasFatal = false) :
    ∃ key, l.Leads m.file i key ∧ c.context.Heeds m.file m.root i key d.context := by
  obtain ⟨m', hm', -, -, -, hfile, hprogram⟩ := hs.2.2.exists_mem
  obtain ⟨hneeded, -, hparses⟩ := hs.1.grounded.loaded m' hm'
  rw [hfile] at hneeded hparses
  rw [hprogram] at hparses
  exact heeds_collectImport hs.2.1 hs.1.grounded hs.1.like
    (ScopeForest.lt_size_of_mem_chain hs.2.2.2)
    (fun f hf => hclosed hneeded hparses hi.1 hf) hc hmild

include hbegun

private theorem attributed_import (hmild : d.context.diagnostics.hasFatal = false) :
    d.context.Attributed := by
  have himported := hs.1.imported hclosed hs.2.2 hi hc
  obtain ⟨key, -, hheeds⟩ := heeds_import hclosed hi hs hc hmild
  obtain ⟨rs, hrs, hfile⟩ := hheeds.reports
  exact (hbegun.attributed (himported.onward.mild hmild)).append himported.onward hrs hfile
    (himported.onward.modules hbegun.knows)

private theorem skirts_import (hmild : d.context.diagnostics.hasFatal = false) :
    c.context.Skirts m.key d.context := by
  obtain ⟨key, -, hheeds⟩ := heeds_import hclosed hi hs hc hmild
  exact hheeds.skirts hbegun.proper hbegun.knows hs.1.grounded
    ((hs.1.imported hclosed hs.2.2 hi hc).enrols hc)

include hmem

/-- A module that is registered on the way is imported by the module whose walk was opened last. -/
private theorem tells_imported (hmild : d.context.diagnostics.hasFatal = false) {u : Module}
    (hu : d.context.Knows u) (hne : u.key ≠ m.key) (hfree : c.context.hasModule u.key = false) :
    Account l es u.blank d.context := by
  have himported := hs.1.imported hclosed hs.2.2 hi hc
  have henrols := himported.enrols hc
  have hm := himported.onward.modules hbegun.knows
  obtain ⟨key, hleads, hheeds⟩ := heeds_import hclosed hi hs hc hmild
  obtain rfl := hheeds.only u.key hfree hu.hasModule
  have hreached := (hbegun.reached (himported.onward.mild hmild)).later himported.onward
  have hroot : u.root ≠ m.root := fun he =>
    hne ((henrols.proper hbegun.proper).key_eq_of_root hu hm he)
  obtain ⟨rs, hrs, hfile⟩ := hheeds.reports
  have hfiles := himported.grounded.file_ne hu hm hne
  refine henrols.tells hs.2.1 hu hfree (Or.inr ⟨m, i, hm, hreached, hmem, hleads⟩)
    (hheeds.elsewhere _ hroot) ?_
  rw [reportsIn_append hrs fun r hr he => hfiles (he.symm.trans (hfile r hr))]
  refine (hbegun.attributed (himported.onward.mild hmild)).reportsIn_of_free hs.1.grounded ?_
  rw [← himported.grounded.key_of_knows hu]
  exact hfree

/-- An import is told of. -/
private theorem told_import :
    Begun l es (is ++ [i]) m d.context ∧
      SparesTold (fun k c => Told l es k c.context) (fun is m c => Begun l es is m c.context)
        m.key c d ∧
      ∀ key ∈ key?, d.context.diagnostics.hasFatal = false → d.context.Reached l es key := by
  have himported := hs.1.imported hclosed hs.2.2 hi hc
  have henrols := himported.enrols hc
  have hproper := henrols.proper hbegun.proper
  have hattributed := attributed_import hclosed hi hs hc hbegun
  have hskirts := skirts_import hclosed hi hs hc hbegun
  have hreached : d.context.diagnostics.hasFatal = false → d.context.Reached l es m.key :=
    fun hmild => (hbegun.reached (himported.onward.mild hmild)).later himported.onward
  refine ⟨⟨hproper, himported.onward.modules hbegun.knows, hattributed, hreached, fun hmild => ?_⟩,
    ⟨fun k hk htold => ?_, fun js u hne hjs => ?_⟩, fun key hkey hmild => ?_⟩
  · obtain ⟨key, hleads, hheeds⟩ := heeds_import hclosed hi hs hc hmild
    exact (hbegun.prefaced (himported.onward.mild hmild)).follow hbegun.proper
      hbegun.knows.blank henrols hleads hheeds
  · exact htold.skirted hk hproper hattributed himported.onward hskirts fun hmild _ hu hne hfree =>
      tells_imported hclosed hi hs hmem hc hbegun hmild hu hne hfree
  · exact hjs.skirted hne hproper hattributed himported.onward hskirts
  · obtain ⟨e, he, hhas, hway⟩ := hreached hmild
    exact ⟨e, he, hhas, hway.tail (himported.turn key hkey)⟩

end Import

/-- Behind its preface, the body of a module has been collected. -/
private theorem told_collected (hfirst : m.program.ImportsFirst)
    (hs : (collecting l needed roots).At stack m m.root c)
    (hbegun : Begun l es m.program.preface m c.context)
    (hend : (collecting l needed roots).At stack m m.root ((collector m).walkBody m c)) :
    Told l es m.key (collection.leave m.key ((collector m).walkBody m c)).context ∧
      SparesTold (fun k c => Told l es k c.context) (fun is m c => Begun l es is m c.context)
        m.key c (collection.leave m.key ((collector m).walkBody m c)) := by
  have hleaves : Leaves l needed m .collected c.context ((collector m).walkBody m c).context := by
    obtain ⟨-, hleads, hphase⟩ := hend.1.walking.leave hend.2.2.1
      (show Phase.collected.previous? = some .parsed from rfl)
    refine ⟨hbegun.proper, hbegun.knows, hs.1.grounded, works_collectBody hfirst hs, hleads, hphase,
      fun _ _ hp hle => ?_⟩
    -- Nothing has been settled of a module that has only been parsed.
    rw [hs.1.walking.phases m.key (List.mem_cons_self ..)] at hle
    exact absurd (hp.trans hle) (by decide)
  refine ⟨hleaves.told hbegun.attributed fun hmild => ?_,
    fun k hk htold => hleaves.told_other hbegun.attributed hk htold,
    fun is u hne his => hleaves.begun_other hbegun.attributed hne his⟩
  have hreached := (hbegun.reached (hleaves.onward.mild hmild)).later hleaves.onward
  exact hleaves.tells (fun _ => hreached) (Or.inl hreached)
    ⟨m.phase, c, hbegun.prefaced (hleaves.onward.mild hmild), hleaves.remains⟩

variable (l es needed roots) in
/-- Collection keeps what is told of the modules up to date. -/
theorem narrates_collecting (hclosed : l.Closed needed)
    (hfirst : ∀ p program, l.Parses p program → program.ImportsFirst) :
    (collecting l needed roots).Narrates (fun k c => Told l es k c.context)
      (fun is m c => Begun l es is m c.context)
      (fun k c => c.context.diagnostics.hasFatal = false → c.context.Reached l es k)
      collection where
  enter := enter_eq
  begins {stack m c} hready he := by
    obtain ⟨-, hm, hphase⟩ := enter_collection hready.1 he
    have hknows := knows_of_module? hm
    refine ⟨hfirst _ _ (hready.2.2.1.parses_of_knows hknows), fun hasked htold =>
      ⟨htold.proper, hknows, htold.attributed, hasked, fun hmild => ?_⟩⟩
    have hchronicle := (htold.tells hmild hknows rfl).chronicle
    rw [Module.key_blank, phase_of_module? hm, hphase] at hchronicle
    exact hchronicle
  imports hi hs hmem hc hbegun := told_import hclosed hi hs hmem hc hbegun
  leaves hfirst _ hs hbegun hend _ := told_collected hfirst hs hbegun hend

end Compilation

end Sable
