import Sable.Proofs.Compilation.Declared
import Sable.Proofs.Compilation.Recording
import Sable.Proofs.Context.Attaching
import Sable.Proofs.Syntax.OneFile

/-!
# Runs of collection and the declarations they bind

The log of a run of collection says which declarations have been walked so far, module by module. Each
visit fills the tree of its own module and leaves the trees of the others, and the numbers of their
reports, as they were. So behind the run the tree of every module that has been collected is filled
by the declarations of the module.
-/

namespace Sable

open Context

/-- A module that has not been collected binds no name. -/
def Context.Bare (ctx : Context) : Prop :=
  ∀ m ∈ ctx.modules, ¬ Phase.collected ≤ ctx.phase m.key → ctx.scopes.Holds m.root []

variable {l : Loader} {needed : Path → Prop} {roots : String → Prop} {c₀ c d : Compilation}
  {ctx ctx' : Context} {m m' : Module} {s : ScopeId} {D E : List Declaration} {F : ScopeForest}
  {W : List Entry} {v : Visit} {key : String}

/-! ### Registered modules -/

/-- Registering and importing modules leaves the trees of modules as they were. -/
theorem Context.Enrols.keepsTree (h : ctx.Enrols ctx') (hl : ctx.Linked) (hm : m ∈ ctx.modules) :
    ctx.scopes.KeepsTree m.root ctx'.scopes :=
  ⟨fun _ ht => h.onward.chains ht, fun t ht => ⟨h.mem_chain hl hm ht, h.symbols t⟩⟩

/-- What was there goes on to be filled as it was. -/
theorem Context.Enrols.holds (h : ctx.Enrols ctx') (hl : ctx.Linked) (hm : m ∈ ctx.modules)
    (hD : ctx.scopes.Holds m.root D) : ctx'.scopes.Holds m.root D := hD.congr (h.keepsTree hl hm)

/-- A module that is registered binds no name. -/
theorem Context.Enrols.holds_new (h : ctx.Enrols ctx') (hl : ctx.Linked)
    (hnew : ctx.scopes.size ≤ m.root) : ctx'.scopes.Holds m.root [] := by
  refine .nil fun t ht name => ?_
  have hle := hnew.trans (ScopeForest.le_of_mem_chain (h.linked hl).scopes ht)
  rw [ScopeForest.symbol?_eq_find?, h.symbols, ← ScopeForest.symbol?_eq_find?, ScopeForest.symbol?,
    ScopeForest.scope?_eq_none hle, Option.bind_none]

theorem Context.Bare.enrols (h : ctx.Bare) (hl : ctx.Linked) (hd : ctx.Enrols ctx') :
    ctx'.Bare := by
  intro m hm hnot
  rcases hd.mem_cases hl hm with ⟨m₀, hm₀, p, rfl⟩ | ⟨hnew, -⟩
  · have hold : ctx'.scopes.Holds m₀.root [] := hd.holds hl hm₀
      (h m₀ hm₀ fun hle => hnot (hle.trans (hd.onward.phase_le _)))
    exact hold
  · exact hd.holds_new hl hnew

/-- The passes behind the first one bind no names. -/
theorem Context.Bare.leads (h : ctx.Bare) (hl : ctx.Linked) {target : Phase}
    (hd : ctx.Leads target ctx') : ctx'.Bare := by
  intro m hm hnot
  obtain ⟨m₀, hm₀, p, -, rfl⟩ := hd.toPasses.exists_mem hl hm
  have hold := h m₀ hm₀ fun hle => hnot (hle.trans (hd.toPasses.phase_le _))
  refine .nil fun t ht name => ?_
  rw [ScopeForest.chain_of_untyped hd.untyped] at ht
  have hnone := hold.isSome_eq ht name
  have hsame := congrArg (fun G => (G.symbol? t name).isSome) hd.untyped
  simp only [ScopeForest.symbol?_untyped, Option.isSome_map] at hsame
  exact Option.not_isSome_iff_eq_none.mp (by rw [hsame, hnone]; exact Bool.false_ne_true)

namespace Compilation

/-! ### Imports -/

/-- What is wrong with an import is not that a name is declared twice. -/
theorem message_ne_of_import (e : ImportError) (y : DuplicateSymbol) : e.message ≠ y.message := by
  refine fun heq => absurd (congrArg (fun text => text.toList.head?) heq) ?_
  unfold Sable.ImportError.message
  cases e <;> simp [DuplicateSymbol.message]

/-- An import is never reported as a name that is declared twice. -/
theorem count_collectImport (m : Module) (s : ScopeId) (i : Import) (c : Compilation)
    (m' : Module) (name : Ident) :
    (collectImport m s i c).2.context.diagnostics.items.count (duplicateReport m' name) =
      c.context.diagnostics.items.count (duplicateReport m' name) := by
  have hadd : ∀ (ds : Diagnostics) {x : Diagnostic}, x ≠ duplicateReport m' name →
      (ds.add x).items.count (duplicateReport m' name) =
        ds.items.count (duplicateReport m' name) := by
    intro ds x hx
    rw [Diagnostics.items_add, List.count_append, List.count_singleton, if_neg (by simpa using hx),
      Nat.add_zero]
  have hsevere : ∀ {x : Diagnostic}, x.severity ≠ .semanticError → x ≠ duplicateReport m' name :=
    fun hx h => hx (congrArg Diagnostic.severity h)
  unfold collectImport
  split
  · exact hadd _ (hsevere (by simp [unresolvedReport]))
  · next file _ =>
    dsimp only
    split
    · exact hadd _ (hsevere (by simp [cycleReport]))
    · next g _ =>
      have hreg := diagnostics_register (c.loader.moduleKey file) file
        (c.update fun ctx => { ctx with graph := g })
      unfold bindImport
      generalize (c.update fun ctx => { ctx with graph := g }).register
        (c.loader.moduleKey file) file = r at hreg ⊢
      obtain ⟨e | u, b⟩ := r
      · simp only [forgetEdge_eq]
        refine (hadd _ fun h => ?_).trans
          ((hadd _ (hsevere (by simp [loadReport]))).trans (by rw [hreg]; rfl))
        have hfirst := congrArg (fun x => x.message.toList.head?) h
        simp [duplicateReport, DuplicateSymbol.message] at hfirst
      · dsimp only
        split
        · simp only [forgetEdge_eq]
          rw [hreg]
          rfl
        · split
          · simp only [forgetEdge_eq]
            refine (hadd _ fun h => ?_).trans (by rw [hreg]; rfl)
            exact message_ne_of_import _ _ (congrArg Diagnostic.message h)
          · exact congrArg (fun ds : Diagnostics => ds.items.count (duplicateReport m' name)) hreg

/-! ### Logs -/

/-- What the log of a run says of the declarations of a module. -/
structure Tallies (F : ScopeForest) (c₀ : Compilation) (W : List Entry) (c : Compilation)
    (m : Module) (D : List Declaration) : Prop where
  /-- The visits noted of the module lead to the declarations. -/
  leads : Visit.Leads F [] (Entry.visitsOf m.key W) D
  /-- The tree of the module has been filled by them. -/
  holds : c.context.scopes.Holds m.root D
  /-- Those of them that are refused have been reported once each. -/
  reports : ∀ name, c.context.diagnostics.items.count (duplicateReport m name) =
    c₀.context.diagnostics.items.count (duplicateReport m name) +
      (Declaration.refusedFrom [] D).count name

/-- What the log of a run of collection says. -/
structure Tells (c₀ : Compilation) (W : List Entry) (c : Compilation) : Prop where
  /-- A module that is visited is known. -/
  visited : ∀ {m v}, .visited m v ∈ W → c.context.Knows m
  /-- A module whose walk is closed is known. -/
  closed : ∀ {m}, .closed m ∈ W → c.context.Knows m
  /-- A module that has been led on has been walked. -/
  led : ∀ k, Phase.collected ≤ c.context.phase k ↔
    Phase.collected ≤ c₀.context.phase k ∨ ∃ m, .closed m ∈ W ∧ m.key = k
  /-- No file has been reported but those of modules that had not been collected. -/
  files : ∀ m', (∀ m ∈ c.context.modules, m.file.text = m'.file.text →
      Phase.collected ≤ c₀.context.phase m.key) → ∀ name,
    c.context.diagnostics.items.count (duplicateReport m' name) =
      c₀.context.diagnostics.items.count (duplicateReport m' name)
  /-- The trees of the others have been left alone. -/
  spares : ∀ m ∈ c.context.modules, Phase.collected ≤ c₀.context.phase m.key →
    c₀.context.scopes.KeepsTree m.root c.context.scopes
  /-- The declarations that have been walked have been bound. -/
  tallies : ∀ F, c.context.scopes.Precedes F → F.Sound → ∀ m ∈ c.context.modules,
    ¬ Phase.collected ≤ c₀.context.phase m.key → ∃ D, Tallies F c₀ W c m D

theorem tells_start (h : c₀.context.Bare) : Tells c₀ [] c₀ where
  visited := nofun
  closed := nofun
  led _ := by simp
  files _ _ _ := rfl
  spares _ _ _ := .refl ..
  tallies _ _ _ m hm hnot := ⟨[], .nil, h m hm hnot, fun _ => by
    rw [Declaration.refusedFrom, List.count_nil, Nat.add_zero]⟩

/-- What is declared in the tree of a module leaves the trees of the others as they were. -/
theorem keepsTree_of_fills (hl : c.context.Linked) (hd : c.Fills m d) (hm : c.context.Knows m)
    (hm' : m' ∈ c.context.modules) (hne : m'.root ≠ m.root) :
    c.context.scopes.KeepsTree m'.root d.context.scopes := by
  have hl' := hd.context.linked hl
  have hgrows := hd.context.scopes
  obtain ⟨m₁, hm₁, -, hroot, -⟩ := hm.exists_mem
  refine ⟨fun t ht => hgrows.mem_chain hl.scopes ht, fun t ht => ?_⟩
  have houtside : m.root ∉ d.context.scopes.chain t := fun hmem =>
    hne (ScopeForest.root_unique hl'.scopes (hl'.root m' (hd.context.modules ▸ hm'))
      (hroot ▸ hl'.root m₁ (hd.context.modules ▸ hm₁)) ht hmem)
  refine ⟨?_, hd.outside t houtside⟩
  have hlt : t < c.context.scopes.size := by
    by_contra hge
    exact houtside (hd.opened t (Nat.le_of_not_lt hge) (ScopeForest.lt_size_of_mem_chain ht))
  rwa [← hgrows.chain_eq hl.scopes hlt]

namespace Tells

/-- A visit is noted with what it declares. -/
theorem visit (h : Tells c₀ W c) (hl : c.context.Linked) (hg : c.context.Grounded l needed)
    (hm : c.context.Knows m) (hphase : c.context.phase m.key = .parsed) (hfills : c.Fills m d)
    (hdeclares : ∀ F, d.context.scopes.Precedes F → F.Sound → ∀ D,
      c.context.scopes.Holds m.root D → ∃ E, Visit.Leads F D [v] (D ++ E) ∧ Declares m D c E d) :
    Tells c₀ (W ++ [.visited m v]) d := by
  have hmodules := hfills.context.modules
  obtain ⟨m₁, hm₁, hkey, hroot, hfile, -⟩ := hm.exists_mem
  -- The module has not been collected before, and what is reported names its file.
  have hearly : ¬ Phase.collected ≤ c₀.context.phase m₁.key := fun hle => by
    have hlater := (h.led _).mpr (Or.inl hle)
    rw [hkey, hphase] at hlater
    exact absurd hlater (by decide)
  have hothers : ∀ m' : Module, m.file.text ≠ m'.file.text → ∀ name,
      d.context.diagnostics.items.count (duplicateReport m' name) =
        c.context.diagnostics.items.count (duplicateReport m' name) := by
    obtain ⟨D, hD⟩ := h.tallies _ hfills.context.scopes.toPrecedes
      (hfills.context.linked hl).scopes m₁ hm₁ hearly
    obtain ⟨E, -, hdeclared⟩ := hdeclares _ (.refl _) (hfills.context.linked hl).scopes D
      (hroot ▸ hD.holds)
    obtain ⟨R, hitems, hfiles, -⟩ := hdeclared.reports
    intro m' hne name
    have hnone : R.count (duplicateReport m' name) = 0 :=
      List.count_eq_zero.mpr fun hmem => hne (hfiles _ hmem).symm
    rw [hitems, List.count_append, hnone, Nat.add_zero]
  have hroots : ∀ m' ∈ c.context.modules, m' ≠ m₁ → m'.root ≠ m.root := fun m' hm' hne he =>
    hne (List.inj_on_of_nodup_map hl.roots_nodup hm' hm₁ (he.trans hroot.symm))
  refine ⟨fun hmem => ?_, fun hmem => ?_, fun k => ?_, fun m' hnew name => ?_,
    fun m' hm' hle => ?_, fun F hF hsound m' hm' hnot => ?_⟩
  · rw [knows_congr hmodules]
    rcases List.mem_append.mp hmem with hmem | hmem
    · exact h.visited hmem
    · exact (Entry.visited.inj (List.mem_singleton.mp hmem)).1 ▸ hm
  · rw [knows_congr hmodules]
    exact h.closed ((List.mem_append.mp hmem).resolve_right (by simp))
  · rw [phase_congr hmodules, h.led k]
    simp
  · rw [hmodules] at hnew
    refine (hothers m' (fun he => hearly ?_) name).trans (h.files m' hnew name)
    exact hnew m₁ hm₁ (hfile ▸ he)
  · rw [hmodules] at hm'
    refine (h.spares m' hm' hle).trans (keepsTree_of_fills hl hfills hm hm' (hroots m' hm' ?_))
    rintro rfl
    exact hearly hle
  rw [hmodules] at hm'
  obtain ⟨D, hD⟩ := h.tallies F (hfills.context.scopes.toPrecedes.trans hF) hsound m' hm' hnot
  by_cases hsame : m' = m₁
  · -- The module that is visited is filled further.
    subst hsame
    obtain ⟨E, hleads, hdeclared⟩ := hdeclares F hF hsound D (hroot ▸ hD.holds)
    obtain ⟨R, hitems, -, hcount⟩ := hdeclared.reports
    refine ⟨D ++ E, ?_, hroot ▸ hdeclared.holds, fun name => ?_⟩
    · rw [hkey, Entry.visitsOf_append, Entry.visitsOf_visited]
      exact Visit.leads_append.mpr ⟨D, hkey ▸ hD.leads, hleads⟩
    · have hreport : duplicateReport m' name = duplicateReport m name := by
        simp only [duplicateReport, hfile]
      rw [hitems, List.count_append, hD.reports, hreport, hcount, Declaration.refusedFrom_append,
        List.count_append, List.nil_append, Nat.add_assoc]
  · -- Any other module has its own tree and its own file.
    have hkeys : m'.key ≠ m.key := fun he => hsame (hl.eq_of_key hm' hm₁ (he.trans hkey.symm))
    have htexts : m.file.text ≠ m'.file.text := fun he =>
      hkeys (hkey ▸ hg.key_eq hm' hm₁ (hfile ▸ he.symm))
    have htree := keepsTree_of_fills hl hfills hm hm' (hroots m' hm' hsame)
    refine ⟨D, ?_, hD.holds.congr htree,
      fun name => (hothers m' htexts name).trans (hD.reports name)⟩
    have hnone : Entry.visitsOf m'.key [.visited m v] = [] := by
      simp [Entry.visitsOf, Ne.symm hkeys]
    rw [Entry.visitsOf_append, hnone, List.append_nil]
    exact hD.leads

/-- An import is noted, with the module that it registers. -/
theorem importing (h : Tells c₀ W c) (hl : c.context.Linked) (hm : c.context.Knows m)
    (hd : c.context.Enrols d.context) (hg : d.context.Grounded l needed) {i : Import}
    (hcount : ∀ m name, d.context.diagnostics.items.count (duplicateReport m name) =
      c.context.diagnostics.items.count (duplicateReport m name)) :
    Tells c₀ (W ++ [.visited m (.importing s i)]) d := by
  have hvisited : ∀ {m' v}, .visited m' v ∈ W ++ [Entry.visited m (.importing s i)] →
      c.context.Knows m' := by
    intro m' v hmem
    rcases List.mem_append.mp hmem with hmem | hmem
    · exact h.visited hmem
    · exact (Entry.visited.inj (List.mem_singleton.mp hmem)).1 ▸ hm
  have hkept : ∀ {m₀}, m₀ ∈ c.context.modules →
      ∃ m₁ ∈ d.context.modules, m₁.key = m₀.key ∧ m₁.file = m₀.file := by
    intro m₀ hm₀
    obtain ⟨m₁, hm₁, hkey, -, hfile, -⟩ :=
      (hd.onward.modules (knows_of_module? (hl.module?_of_mem hm₀))).exists_mem
    exact ⟨m₁, hm₁, hkey, hfile⟩
  refine ⟨fun hmem => hd.onward.modules (hvisited hmem), fun hmem => ?_, fun k => ?_,
    fun m' hnew name => ?_, fun m' hm' hle => ?_, fun F hF hsound m' hm' hnot => ?_⟩
  · exact hd.onward.modules (h.closed ((List.mem_append.mp hmem).resolve_right (by simp)))
  · rw [hd.le_phase_iff (by decide), h.led k]
    simp
  · refine (hcount m' name).trans (h.files m' (fun m₀ hm₀ he => ?_) name)
    obtain ⟨m₁, hm₁, hkey, hfile⟩ := hkept hm₀
    exact hkey ▸ hnew m₁ hm₁ (hfile ▸ he)
  · rcases hd.mem_cases hl hm' with ⟨m₀, hm₀, p, rfl⟩ | ⟨-, hfree⟩
    · exact (h.spares m₀ hm₀ hle).trans (hd.keepsTree hl hm₀)
    · have hhas := hasModule_of_parsed_le (le_trans (by decide) ((h.led _).mpr (Or.inl hle)))
      rw [hfree] at hhas
      cases hhas
  rcases hd.mem_cases hl hm' with ⟨m₀, hm₀, p, rfl⟩ | ⟨hnew, hfree⟩
  · obtain ⟨D, hD⟩ := h.tallies F (hd.onward.scopes.trans hF) hsound m₀ hm₀ hnot
    have hholds : d.context.scopes.Holds m₀.root D := hd.holds hl hm₀ hD.holds
    refine ⟨D, ?_, hholds, fun name => (hcount m₀ name).trans (hD.reports name)⟩
    dsimp only
    rw [Entry.visitsOf_append]
    refine Visit.leads_append.mpr ⟨D, hD.leads, ?_⟩
    by_cases hkey : m.key = m₀.key
    · rw [← hkey, Entry.visitsOf_visited]
      exact .importing .nil
    · have hnone : Entry.visitsOf m₀.key [.visited m (.importing s i)] = [] := by
        simp [Entry.visitsOf, hkey]
      exact hnone ▸ .nil
  · -- A module that is new has not been visited, and its file is new as well.
    have hnone : Entry.visitsOf m'.key (W ++ [.visited m (.importing s i)]) = [] := by
      refine List.eq_nil_iff_forall_not_mem.mpr fun v hv => ?_
      obtain ⟨m₁, hkey, hmem⟩ := Entry.mem_visitsOf.mp hv
      have hhas := (hvisited hmem).hasModule
      rw [hkey, hfree] at hhas
      cases hhas
    refine ⟨[], hnone ▸ .nil, hd.holds_new hl hnew, fun name => ?_⟩
    refine (hcount m' name).trans (h.files m' (fun m₀ hm₀ he => ?_) name)
    obtain ⟨m₁, hm₁, hkey, hfile⟩ := hkept hm₀
    have hhas := hasModule_of_mem hm₀
    rw [← hkey, hg.key_eq hm₁ hm' (hfile ▸ he), hfree] at hhas
    cases hhas

/-- A module that is led on is noted. -/
theorem close (h : Tells c₀ W c) (hl : c.context.Linked) (hm : c.context.Knows m)
    (hphase : c.context.phase m.key = .parsed) :
    Tells c₀ (W ++ [.closed m]) (collection.leave m.key c) := by
  obtain ⟨q, -, hmod⟩ := id hm
  have hq : Phase.collected.previous? = some q := by
    rw [phase_of_module? hmod] at hphase
    exact congrArg some hphase.symm
  have hpasses : c.context.Passes .collected (c.context.setPhase m.key .collected) :=
    passes_setPhase hmod hq
  have hreports : (c.context.setPhase m.key .collected).diagnostics = c.context.diagnostics := by
    rw [setPhase_eq hmod (Phase.previous_lt hq)]
  refine ⟨fun hmem => ?_, fun hmem => ?_, fun k => ?_, fun m' hnew name => ?_,
    fun m' hm' hle => ?_, fun F hF hsound m' hm' hnot => ?_⟩
  · exact hpasses.modules (h.visited ((List.mem_append.mp hmem).resolve_right (by simp)))
  · rcases List.mem_append.mp hmem with hmem | hmem
    · exact hpasses.modules (h.closed hmem)
    · exact hpasses.modules (Entry.closed.inj (List.mem_singleton.mp hmem) ▸ hm)
  · have hphases : (collection.leave m.key c).context.phase k =
        if k = m.key then .collected else c.context.phase k :=
      phase_setPhase hmod (Phase.previous_lt hq) k
    rw [hphases]
    split
    · next hk => exact iff_of_true le_rfl (Or.inr ⟨m, by simp, hk.symm⟩)
    · next hk =>
      rw [h.led k]
      refine or_congr_right (exists_congr fun m' => ?_)
      rw [List.mem_append, List.mem_singleton, Entry.closed.injEq]
      refine and_congr_left fun hkey => (or_iff_left ?_).symm
      rintro rfl
      exact hk hkey.symm
  · refine Eq.trans (congrArg (fun ds : Diagnostics => ds.items.count _) hreports)
      (h.files m' (fun m₀ hm₀ he => ?_) name)
    obtain ⟨m₁, hm₁, hkey, -, hfile, -⟩ :=
      (hpasses.modules (knows_of_module? (hl.module?_of_mem hm₀))).exists_mem
    exact hkey ▸ hnew m₁ hm₁ (hfile ▸ he)
  · obtain ⟨m₀, hm₀, p, -, rfl⟩ := hpasses.exists_mem hl hm'
    have hscopes : (collection.leave m.key c).context.scopes = c.context.scopes :=
      scopes_setPhase c.context m.key .collected
    exact hscopes.symm ▸ h.spares m₀ hm₀ hle
  · have hscopes := scopes_setPhase c.context m.key .collected
    obtain ⟨m₀, hm₀, p, -, rfl⟩ := hpasses.exists_mem hl hm'
    obtain ⟨D, hD⟩ := h.tallies F (hscopes ▸ hF) hsound m₀ hm₀ hnot
    refine ⟨D, ?_, hscopes.symm ▸ hD.holds, fun name => ?_⟩
    · rw [Entry.visitsOf_append, Entry.visitsOf_closed, List.append_nil]
      exact hD.leads
    · exact Eq.trans (congrArg (fun ds : Diagnostics => ds.items.count _) hreports)
        (hD.reports name)

end Tells

/-- A name in a module that has been read is not empty. -/
theorem name_ne_of_mem_sites (hg : c.context.Grounded l needed) (hm : c.context.Knows m)
    {name : Ident} (hname : .name name ∈ m.program.sites) : name.name ≠ "" := by
  obtain ⟨m₁, hm₁, -, -, -, hprogram⟩ := hm.exists_mem
  obtain ⟨-, -, text, n, -, hparse⟩ := hg.loaded m₁ hm₁
  have hstands : (Site.name name).Stands n := oneFile_of_parse hparse _ (hprogram ▸ hname)
  exact Ident.Stands.name hstands

/-- The log of a run of collection is true. -/
theorem tells_of_history (hclosed : l.Closed needed) (h : c₀.context.Bare)
    (hW : collection.History (collecting l needed roots) c₀ W c) : Tells c₀ W c := by
  induction hW with
  | start => exact tells_start h
  | enter _ hready ih =>
    rw [enter_eq hready]
    exact ih
  | @importing W c _ m s i _ hs hi _ ih =>
    rw [importing_collection]
    rcases hc : collectImport m s i c with ⟨key?, d⟩
    have himported := hs.1.imported hclosed hs.2.2 hi hc
    refine ih.importing hs.2.1 hs.2.2.1 (himported.enrols hc) himported.grounded fun m' name => ?_
    have hcount := count_collectImport m s i c m' name
    rwa [hc] at hcount
  | @stop W c _ m s x _ hs hocc ih =>
    rw [show collection.visitor m = collector m from rfl]
    refine ih.visit hs.2.1 hs.1.grounded hs.2.2.1 (hs.1.walking.phases _ (List.mem_cons_self ..))
      (fills_stop hs x) fun F hF _ D hD => ⟨_, .stop .nil, declares_stop hs.2.1 hs.2.2 hD ?_ hF⟩
    exact fun name hname => name_ne_of_mem_sites hs.1.grounded hs.2.2.1 (hocc.sites_subset hname)
  | @head W c _ m s hd _ _ hs hocc ih =>
    rw [show collection.visitor m = collector m from rfl]
    refine ih.visit hs.2.1 hs.1.grounded hs.2.2.1 (hs.1.walking.phases _ (List.mem_cons_self ..))
      (opens_head hs hocc).1 fun F hF hsound D hD => ?_
    obtain ⟨hdeclares, hbody⟩ := declares_head hs.2.1 hs.2.2 hD
      (fun name hname => name_ne_of_mem_sites hs.1.grounded hs.2.2.1 (hocc.sites_subset hname))
      (fun receiver hr => namesNoBuiltin_of_occurs hs.2.1 hs.2.2 hocc hr) hF hsound
    exact ⟨_, hbody ▸ .head .nil, hdeclares⟩
  | close _ hs ih =>
    exact ih.close hs.2.1 hs.2.2.1 (hs.1.walking.phases _ (List.mem_cons_self ..))

/-! ### Runs -/

/--
A compilation behind collection, compared with the one in front of it. The tree of a module that has
been collected meanwhile is filled by the declarations of the module, and for each of them that is
refused one report has been added.
-/
def Fulfils (c d : Compilation) : Prop :=
  ∃ R, d.context.diagnostics.items = c.context.diagnostics.items ++ R ∧
    ∀ m ∈ d.context.modules, ¬ Phase.collected ≤ c.context.phase m.key → m.phase = .collected →
      d.context.scopes.Holds m.root (m.declarations d.context.scopes) ∧
      ∀ name, R.count (duplicateReport m name) =
        (Declaration.refusedFrom [] (m.declarations d.context.scopes)).count name

/-- Collection binds what is declared in the modules that it leads on, and nothing in others. -/
theorem collect_fulfils (hclosed : l.Closed needed) (hbare : c.context.Bare)
    (hready : (collecting l needed roots).Ready [] key c) :
    Fulfils c (c.collect key) ∧ (c.collect key).context.Bare := by
  obtain ⟨W, hW, hcloses, hvisited⟩ := exists_history_collect hclosed hready
  obtain ⟨hcollecting, hadvances, -⟩ := collect_spec hclosed hready
  have htells := tells_of_history hclosed hbare hW
  have hl := hcollecting.walking.linked
  obtain ⟨R, hR⟩ := hadvances.onward.reports
  constructor
  · refine ⟨R, hR.symm, fun m hm hnot hphase => ?_⟩
    obtain ⟨D, hD⟩ := htells.tallies _ (.refl _) hl.scopes m hm hnot
    -- The walk over the module has been closed, so its visits spell the script of the module.
    have hled := (htells.led m.key).mp (by rw [phase_of_module? (hl.module?_of_mem hm), hphase])
    obtain ⟨m', hclosed', hkey⟩ := hled.resolve_left hnot
    obtain ⟨m₁, hm₁, hkey₁, hroot, -, hprogram⟩ := (htells.closed hclosed').exists_mem
    obtain rfl := hl.eq_of_key hm₁ hm (hkey₁.trans hkey)
    have hspells := hcloses.spells hclosed'
    rw [← hroot, ← hprogram, hkey] at hspells
    obtain rfl : D = m₁.declarations _ := hD.leads.eq_declaredAll hspells
    refine ⟨hD.holds, fun name => ?_⟩
    have hcount := hD.reports name
    rw [← hR, List.count_append] at hcount
    exact Nat.add_left_cancel hcount
  · intro m hm hnot
    obtain ⟨D, hD⟩ := htells.tallies _ (.refl _) hl.scopes m hm fun hle =>
      hnot (hle.trans (hadvances.onward.phase_le _))
    -- A module that has been visited has been led on.
    have hnone : Entry.visitsOf m.key W = [] := by
      refine List.eq_nil_iff_forall_not_mem.mpr fun v hv => ?_
      obtain ⟨m', hkey, hmem⟩ := Entry.mem_visitsOf.mp hv
      exact hnot (hkey ▸ hcloses.finished (hvisited m' v hmem))
    have hleads := hD.leads
    rw [hnone] at hleads
    cases hleads
    exact hD.holds

/-- Between checks, a module that has not been collected binds no name. -/
theorem keeps_bare (hclosed : l.Closed needed) :
    Recorder.plain.Keeps l needed roots fun c => c.context.Linked ∧ c.context.Bare where
  put h hd _ := ⟨hd.linked h.1, h.2.enrols h.1 hd⟩
  collect h hready := by
    obtain ⟨hcollecting, -, -⟩ := collect_spec hclosed hready
    exact ⟨hcollecting.walking.linked, (collect_fulfils hclosed h.2 hready).2⟩
  resolve {key c} h hl hle := by
    obtain ⟨W, -, hW, -⟩ := exists_history filling_resolver (fun _ => rfl) rfl (by decide) hl hle
    rcases Recorder.plain.andThen_cases resolution .resolving key c with he | ⟨d, rfl, he⟩
    · rw [he]
      exact h
    · rw [he]
      exact ⟨hW.leads.toPasses.linked hl, h.2.leads hl hW.leads⟩
  typecheck {key c} h hl hle := by
    obtain ⟨W, -, hW, -⟩ := exists_history filling_checker (fun _ => rfl) rfl (by decide) hl hle
    rcases Recorder.plain.andThen_cases typing .typechecking key c with he | ⟨d, rfl, he⟩
    · rw [he]
      exact h
    · rw [he]
      exact ⟨hW.leads.toPasses.linked hl, h.2.leads hl hW.leads⟩

/--
After any checks, when the next entry has been registered, collection comes to its end. The first
declaration of a name in a scope wins: in the tree of every module that has been collected, a scope
binds a name just if some declaration of the name has been walked there, and the binding has the kind
and the place of the first such declaration, and no type. Every later one has been reported just
once, where it stands.
-/
theorem collect_binds_first (l : Loader) (entries : List Path) (entry : Path) {c : Compilation}
    (hreg : ((checkAll entries (new l)).update fun ctx =>
        { ctx with entry? := some (l.moduleKey entry) }).register (l.moduleKey entry) entry =
      (.ok (), c)) :
    Phase.collected ≤ (c.collect (l.moduleKey entry)).context.phase (l.moduleKey entry) ∧
      Fulfils c (c.collect (l.moduleKey entry)) := by
  have hclosed : l.Closed fun _ => True := fun _ _ _ _ => trivial
  have hnew := settled_new l (fun _ => True) fun _ => True
  have h := hnew.checkAll hclosed (fun _ => trivial) (fun _ => trivial) entries
  have hbare : (checkAll entries (new l)).context.Linked ∧ (checkAll entries (new l)).context.Bare :=
    Recorder.checkAll_plain entries (new l) ▸ (keeps_bare hclosed).checkAll ⟨hnew.linked, nofun⟩ hnew
      hclosed (fun _ => trivial) (fun _ => trivial) entries
  have henter := h.enter (some (l.moduleKey entry))
  obtain ⟨hlike, hd⟩ := register_ok henter.linked henter.grounded henter.like trivial rfl hreg
  have hready := ready_of_registers henter.accounted henter.inStep trivial hlike hd
  have henrols := (enrols_enter _ (some (l.moduleKey entry))).trans (hd.enrols hreg)
  exact ⟨(collect_spec hclosed hready).2.2,
    (collect_fulfils hclosed (hbare.2.enrols hbare.1 henrols) hready).1⟩

/-- The file `a.sbl`, which declares one name twice. -/
def twice : Loader := .new (.ofRoot ⟨""⟩) (.memory [(⟨"a.sbl"⟩, "let x = 1\nconst x = 2")])

/-- The file can be parsed, so its module is collected and the first of the two declarations wins. -/
theorem exists_collect_twice : ∃ c, ((checkAll [] (new twice)).update fun ctx =>
      { ctx with entry? := some (twice.moduleKey ⟨"a.sbl"⟩) }).register
        (twice.moduleKey ⟨"a.sbl"⟩) ⟨"a.sbl"⟩ = (.ok (), c) ∧
      Phase.collected ≤ (c.collect (twice.moduleKey ⟨"a.sbl"⟩)).context.phase
        (twice.moduleKey ⟨"a.sbl"⟩) ∧
      Fulfils c (c.collect (twice.moduleKey ⟨"a.sbl"⟩)) := by
  obtain ⟨c, hreg⟩ := @exists_register_ok twice ⟨"a.sbl"⟩ (by decide +kernel)
    (twice.moduleKey ⟨"a.sbl"⟩)
  exact ⟨c, hreg, collect_binds_first twice [] ⟨"a.sbl"⟩ hreg⟩

end Compilation

end Sable
