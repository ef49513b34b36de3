import Sable.Proofs.Compilation.Binding
import Sable.Proofs.Compilation.Surveying
import Sable.Proofs.Context.Coherence
import Sable.Proofs.Syntax.Distinct

/-!
# What collection establishes

Collection goes into every body and refuses no declaration, unless it reports something in the file of
the module. If it has reported nothing there, and no method of the module stands inside a function,
the walk that it has made is the itinerary that the tables have from then on, and all that is declared
along this is bound. Meanwhile nothing is imported in the trees of modules that had been collected.
-/

namespace Sable

theorem ScopeForest.imports_addImport_of_ne {F G : ScopeForest} {s t : ScopeId} {b : ImportBinding}
    (h : F.addImport s b = .ok G) (hne : t ≠ s) : G.imports t = F.imports t := by
  unfold addImport at h
  split at h
  · split at h <;> cases h
  · split at h
    · cases h
    · cases h
      rw [imports, scope?_modify, if_neg hne, imports]

/-- A module that collection has had nothing to say about, without methods inside of functions. -/
def Context.Plain (ctx : Context) (m : Module) : Prop :=
  ctx.Quiet m ∧ m.program.MethodsOutside

instance (ctx : Context) (m : Module) : Decidable (ctx.Plain m) :=
  inferInstanceAs (Decidable ((∀ r ∈ ctx.diagnostics.items, r.pass = .collecting →
    r.file ≠ m.file.text) ∧ m.program.MethodsOutside))

namespace Compilation

open Context

variable {l : Loader} {needed : Path → Prop} {roots : String → Prop} {c₀ c d : Compilation}
  {m : Module} {s t : ScopeId} {i : Import} {W : List Entry} {key : String} {hd : Head}
  {ys : List Step}

/-! ### Imports in finished trees -/

theorem imports_register (key : String) (file : Path) (c : Compilation) (t : ScopeId) :
    (c.register key file).2.context.scopes.imports t = c.context.scopes.imports t := by
  unfold register
  split
  · rfl
  · next hfree =>
    rcases c.loader.load file with ⟨e | program, l⟩
    · rfl
    · simp only [addModule_eq (Bool.eq_false_iff.mpr hfree)]
      exact ScopeForest.imports_openScope ..

/-- An import binds an alias in its own scope only. -/
theorem imports_collectImport (m : Module) (i : Import) (c : Compilation) (hne : t ≠ s) :
    (collectImport m s i c).2.context.scopes.imports t = c.context.scopes.imports t := by
  unfold collectImport
  split
  · rfl
  · next file _ =>
    dsimp only
    split
    · rfl
    · next g _ =>
      have hreg := imports_register (c.loader.moduleKey file) file
        (c.update fun ctx => { ctx with graph := g }) t
      unfold bindImport
      generalize (c.update fun ctx => { ctx with graph := g }).register
        (c.loader.moduleKey file) file = r at hreg ⊢
      obtain ⟨e | u, b⟩ := r
      · simp only [forgetEdge_eq]
        exact hreg
      · dsimp only
        split
        · simp only [forgetEdge_eq]
          exact hreg
        · split
          · simp only [forgetEdge_eq]
            exact hreg
          · next F hadd => exact (ScopeForest.imports_addImport_of_ne hadd hne).trans hreg

/-! ### Bodies -/

/-- A head whose body is not gone into has been reported. -/
theorem isSome_of_quiet {stack : List String} (hs : (collecting l needed roots).At stack m s c)
    (hocc : (Step.body hd ys).Occurs m.program.steps)
    (hquiet : ((collector m).head s hd c).2.context.Quiet m) :
    (((collector m).head s hd c).1).isSome := by
  have hplace : ∀ r, hd.receiver? = some r → Place.receiver r ∈ m.program.places := by
    intro r hr
    rw [← m.program.placesAll_steps]
    exact hocc.places_subset (by simp [Step.places, hr])
  obtain ⟨_ | receiver, name, params, ret⟩ := hd
  · obtain ⟨t, ht, -⟩ := collectFunction_grants hs.2.1 hs.2.2 name params hquiet
    exact Option.isSome_iff_exists.mpr ⟨t, ht⟩
  · have hparsed := hs.2.2.places hs.2.1 _ (hplace receiver rfl)
    obtain ⟨t, ht, -⟩ := collectMethod_grants hs.2.1 hs.2.2 hparsed name params hquiet
    exact Option.isSome_iff_exists.mpr ⟨t, ht⟩

/-- What else the log of a run of collection says. -/
structure Finds (c₀ : Compilation) (W : List Entry) (c : Compilation) : Prop where
  /-- Nothing gets lost. -/
  onward : c₀.context.Extends c.context
  /-- Nothing has been imported in finished trees. -/
  imports : ∀ m s, c₀.context.Encloses m s → Phase.collected ≤ c₀.context.phase m.key →
    c.context.scopes.imports s = c₀.context.scopes.imports s
  /-- A body that has not been gone into has been reported. -/
  bodies : ∀ {m s hd}, .visited m (.head s hd none) ∈ W → ¬ c.context.Quiet m

namespace Finds

/-- Where nothing is imported in finished trees, one more visit is noted. -/
theorem visit (h : Finds c₀ W c) {v : Visit} (hext : c.context.Extends d.context)
    (himports : ∀ m s, c₀.context.Encloses m s → Phase.collected ≤ c₀.context.phase m.key →
      d.context.scopes.imports s = c.context.scopes.imports s)
    (hbody : ∀ {s hd}, v = .head s hd none → ¬ d.context.Quiet m) :
    Finds c₀ (W ++ [.visited m v]) d := by
  refine ⟨h.onward.trans hext, fun m s hm hphase => ?_, fun hmem => ?_⟩
  · exact (himports m s hm hphase).trans (h.imports m s hm hphase)
  · rcases List.mem_append.mp hmem with hmem | hmem
    · exact fun hquiet => h.bodies hmem (hquiet.before hext)
    · obtain ⟨rfl, rfl⟩ := Entry.visited.inj (List.mem_singleton.mp hmem)
      exact hbody rfl

/-- A scope of a module whose walk is open lies in no finished tree. -/
theorem ne_of_encloses (h : Finds c₀ W c) {stack : List String} {m' : Module}
    (hs : (collecting l needed roots).At stack m s c) (hm' : c₀.context.Encloses m' t)
    (hphase : Phase.collected ≤ c₀.context.phase m'.key) : t ≠ s := by
  rintro rfl
  obtain ⟨hkey, -⟩ := hs.2.2.same hs.2.1 (hm'.later h.onward)
  have hlater := hphase.trans (h.onward.phase_le _)
  rw [hkey, phase_of_at hs] at hlater
  exact absurd hlater (by decide)

end Finds

theorem finds_of_history (hclosed : l.Closed needed)
    (hW : collection.History (collecting l needed roots) c₀ W c) : Finds c₀ W c := by
  induction hW with
  | start => exact ⟨.refl _, fun _ _ _ _ => rfl, nofun⟩
  | enter _ hready ih =>
    rw [enter_eq hready]
    exact ih
  | @importing W c _ m s i _ hs hi _ ih =>
    rw [importing_collection]
    rcases hc : collectImport m s i c with ⟨key?, d⟩
    have himported := hs.1.imported hclosed hs.2.2 hi hc
    refine ih.visit himported.onward (fun m' t hm' hphase => ?_) nofun
    have hsame := imports_collectImport m i c (ih.ne_of_encloses hs hm' hphase)
    rwa [hc] at hsame
  | @stop W c _ m s x _ hs _ ih =>
    have hfills := (fills_stop hs x).context
    exact ih.visit (hfills.toExtends hs.2.1) (fun _ t _ _ => hfills.scopes.imports t) nofun
  | @head W c _ m s hd _ _ hs hocc ih =>
    have hfills := (opens_head hs hocc).1.context
    refine ih.visit (hfills.toExtends hs.2.1) (fun _ t _ _ => hfills.scopes.imports t) ?_
    intro s' hd' he hquiet
    obtain ⟨-, -, hnone⟩ := Visit.head.inj he
    have hsome := isSome_of_quiet hs hocc hquiet
    rw [show collection.visitor m = collector m from rfl] at hnone
    rw [hnone] at hsome
    cases hsome
  | @close W c _ m _ hs ih =>
    have hscopes : (collection.leave m.key c).context.scopes = c.context.scopes :=
      scopes_setPhase c.context m.key .collected
    have hreports : (collection.leave m.key c).context.diagnostics = c.context.diagnostics :=
      diagnostics_setPhase c.context m.key .collected
    refine ⟨?_, fun m' t hm' hphase => ?_, fun hmem hquiet => ?_⟩
    · obtain ⟨-, hleads, -⟩ := hs.1.walking.leave hs.2.2.1
        (show Phase.collected.previous? = some .parsed from rfl)
      exact ih.onward.trans (hleads.toPasses.toExtends hs.2.1)
    · rw [hscopes]
      exact ih.imports m' t hm' hphase
    · refine ih.bodies ((List.mem_append.mp hmem).resolve_right (by simp)) ?_
      rwa [Quiet, ← hreports]

/-! ### Runs of collection -/

/-- A module that is collected without a report is established, if it is plain. -/
theorem Tallies.settles {D : List Declaration} (h : Tallies c.context.scopes c₀ W c m D)
    (hl : c.context.Linked) (hg : c.context.Grounded l needed) (hm : m ∈ c.context.modules)
    (howned : c.context.scopes.Owned) (hfinds : Finds c₀ W c) (hquiet : c.context.Quiet m)
    (hknown : ∀ {m' v}, .visited m' v ∈ W → c.context.Knows m')
    (hspells : Spells m.root m.program.steps (Entry.visitsOf m.key W)) :
    Visit.Settles c.context.scopes m.root (Entry.visitsOf m.key W) D where
  leads := h.leads
  holds := h.holds.untyped
  free := by
    refine List.eq_nil_iff_forall_not_mem.mpr fun x hx => ?_
    -- A name that has been refused would have been reported.
    have hcount := h.reports x
    have hpos := List.count_pos_iff.mpr hx
    have hmem : duplicateReport m x ∈ c.context.diagnostics.items :=
      List.count_pos_iff.mp (by omega)
    exact hquiet _ hmem rfl rfl
  inhabits _ hv := hspells.inhabits hv
  nodup := by
    obtain ⟨-, -, text, n, -, hparse⟩ := hg.loaded m hm
    exact (m.program.namesAll_steps ▸ hspells.names_sublist).nodup (nodup_names_of_parse hparse)
  entered s hd inner? hv := by
    obtain ⟨m', hkey, hmem⟩ := Entry.mem_visitsOf.mp hv
    cases inner? with
    | some t => rfl
    | none =>
      -- The report would be one in the file of the module.
      obtain ⟨m₁, hm₁, hkey₁, -, hfile, -⟩ := (hknown hmem).exists_mem
      obtain rfl := hl.eq_of_key hm₁ hm (hkey₁.trans hkey)
      refine absurd (fun r hr hpass => ?_) (hfinds.bodies hmem)
      exact hfile ▸ hquiet r hr hpass
  owned := howned
  sound := hl.scopes
  root := hl.root m hm

/--
Collection seals the modules that had been collected, and establishes the plain ones of those that it
leads on.
-/
theorem collect_establishes (hclosed : l.Closed needed) (hbare : c.context.Bare)
    (howned : c.context.scopes.Owned) (hready : (collecting l needed roots).Ready [] key c) :
    c.context.Seals (c.collect key).context ∧
      ∀ m, (c.collect key).context.Knows m → ¬ Phase.collected ≤ c.context.phase m.key →
        Phase.collected ≤ (c.collect key).context.phase m.key → (c.collect key).context.Plain m →
          (c.collect key).context.Established m := by
  obtain ⟨W, hW, hcloses, -⟩ := exists_history_collect hclosed hready
  obtain ⟨hcollecting, hadvances, -⟩ := collect_spec hclosed hready
  have htells := tells_of_history hclosed hbare hW
  have hfinds := finds_of_history hclosed hW
  have hl := hcollecting.walking.linked
  refine ⟨⟨hadvances.onward, hl, hadvances.spares, hfinds.imports⟩, fun m hm hnot hphase hplain => ?_⟩
  -- The walk over the module has been closed, so its visits spell the script of the module.
  obtain ⟨m', hclosed', hkey⟩ := ((htells.led m.key).mp hphase).resolve_left hnot
  obtain ⟨m₁, hm₁, hkey₁, hroot₁, hfile₁, hprogram₁⟩ := hm.exists_mem
  obtain ⟨m₂, hm₂, hkey₂, hroot₂, -, hprogram₂⟩ := (htells.closed hclosed').exists_mem
  obtain rfl := hl.eq_of_key hm₁ hm₂ (hkey₁.trans (hkey.symm.trans hkey₂.symm))
  have hspells : Spells m₁.root m₁.program.steps (Entry.visitsOf m₁.key W) := by
    rw [hroot₂, hprogram₂, hkey₂]
    exact hcloses.spells hclosed'
  obtain ⟨D, hD⟩ := htells.tallies _ (.refl _) hl.scopes m₁ hm₁ (hkey₁ ▸ hnot)
  have hquiet : (c.collect key).context.Quiet m₁ := fun r hr hpass =>
    hfile₁ ▸ hplain.1 r hr hpass
  have hsettles := hD.settles hl hcollecting.grounded hm₁ (follows_owned.collect c key howned) hfinds
    hquiet htells.visited hspells
  exact (established_of_settles hsettles hspells (hprogram₁ ▸ hplain.2)).of_same hroot₁ hprogram₁

end Compilation

end Sable
