import Sable.Proofs.Context.Fitting
import Sable.Proofs.Context.InStep
import Sable.Proofs.Context.Sparing
import Sable.Proofs.Context.Writing
import Sable.Proofs.Module.Itinerary
import Sable.Proofs.Ty.Sense

/-!
# What resolution leaves coherent

Once a module has been collected, nothing is declared in its tree any more, and nothing is imported
there. What it imports has been collected as well, so the tables that its names are looked up in do
not change but for types. A written type that means something there has done so from the beginning.

Where collection has bound everything that a module declares, resolution comes to each place of the
module once, and writes there what it writes twice. No other visit gives types to these names, neither
in the module, since no name stands at two places, nor in other modules, since these have trees of
their own. So all places of the module agree behind resolution. They go on to agree as long as types
that are there do not change.
-/

namespace Sable

/-! ### Sealed trees -/

namespace Context

/-- A context that another one can turn into without any new name in a finished tree. -/
structure Seals (ctx d : Context) : Prop where
  /-- Nothing gets lost. -/
  onward : ctx.Extends d
  /-- Graph, bindings and modules go on to agree. -/
  linked : d.Linked
  /-- Nothing is declared in finished trees. -/
  spares : ctx.Spares d
  /-- Nothing is imported in finished trees. -/
  imports : ∀ m s, ctx.Encloses m s → Phase.collected ≤ ctx.phase m.key →
    d.scopes.imports s = ctx.scopes.imports s

/-- Whatever is imported has been collected. -/
def Anchored (ctx : Context) : Prop :=
  ∀ {s b}, b ∈ ctx.scopes.imports s → Phase.collected ≤ ctx.phase b.key

variable {ctx d : Context} {m : Module} {s : ScopeId} {stack : List String} {target : Phase}

/-- Nothing is imported next to the builtin types. -/
theorem Linked.imports_zero (h : ctx.Linked) : ctx.scopes.imports 0 = [] := by
  refine List.eq_nil_iff_forall_not_mem.mpr fun b hb => ?_
  obtain ⟨⟨m, hm, hzero⟩, -⟩ := h.bound hb
  exact ScopeForest.ne_zero_of_mem_chain h.scopes (h.root m hm) hzero rfl

/-- When no walk is open, whatever is imported has been collected. -/
theorem InStep.anchored (h : ctx.InStep []) : ctx.Anchored :=
  fun hb => (h.bound hb).resolve_left List.not_mem_nil

/-- Where nothing is imported, imported modules stay collected. -/
theorem Anchored.later (h : ctx.Anchored) (hd : ctx.Extends d)
    (himports : ∀ s, d.scopes.imports s = ctx.scopes.imports s) : d.Anchored :=
  fun hb => (h (himports _ ▸ hb)).trans (hd.phase_le _)

namespace Seals

/-- Registering modules without importing them seals finished trees. -/
theorem of_enrols (hl : ctx.Linked) (hd : ctx.Enrols d)
    (himports : ∀ s, d.scopes.imports s = ctx.scopes.imports s) : ctx.Seals d :=
  ⟨hd.onward, hd.linked hl, hd.spares, fun _ s _ _ => himports s⟩

/-- So do the passes that only give types to names. -/
theorem of_leads (hl : ctx.Linked) (hd : ctx.Leads target d) : ctx.Seals d :=
  ⟨hd.toPasses.toExtends hl, hd.linked hl, .of_untyped hd.untyped, fun _ s _ _ => hd.scopes.imports s⟩

/-- What is declared in the tree of a finished module stays what it is. -/
theorem declarations_eq (h : ctx.Seals d) (hm : ctx.Knows m)
    (hphase : Phase.collected ≤ ctx.phase m.key) (hs : m.root ∈ ctx.scopes.chain s) :
    d.scopes.declarations s = ctx.scopes.declarations s := h.spares.2 m s ⟨hm, hs⟩ hphase

/-- The itinerary of a finished module stays what it is. -/
theorem itinerary_eq (h : ctx.Seals d) (hl : ctx.Linked) (hm : ctx.Knows m)
    (hphase : Phase.collected ≤ ctx.phase m.key) :
    d.scopes.itinerary m = ctx.scopes.itinerary m := by
  obtain ⟨m₀, hm₀, -, hroot, -, hprogram⟩ := hm.exists_mem
  exact ScopeForest.itinerary_eq_of_precedes hl.scopes (hroot ▸ hl.root m₀ hm₀)
    (hprogram ▸ hl.places m₀ hm₀) h.linked.scopes h.onward.scopes h.spares.1
    fun _ hs => h.declarations_eq hm hphase hs

/-- The same written types mean something in a finished tree. -/
theorem sameSense (h : ctx.Seals d) (hl : ctx.Linked) (ha : ctx.Anchored) (hs : ctx.Encloses m s)
    (hphase : Phase.collected ≤ ctx.phase m.key) : Ty.SameSense ctx.scopes d.scopes s := by
  have hinside : ∀ t ∈ ctx.scopes.chain s, m.root ∈ ctx.scopes.chain t ∨ t = 0 := fun t ht =>
    ScopeForest.mem_chain_or_eq_zero hl.scopes (hs.root hl) hs.2 ht
  have hchain := ScopeForest.chain_eq_of_parent hl.scopes h.linked.scopes h.onward.scopes.size_le
    h.onward.scopes.parent (ScopeForest.lt_size_of_mem_chain hs.2)
  refine .of_chain hchain (fun t ht => ?_) (fun t ht => ?_) fun t ht b hb => ?_
  · rcases hinside t ht with ht | rfl
    · exact h.declarations_eq hs.1 hphase ht
    · exact h.spares.1
  · rcases hinside t ht with ht | rfl
    · exact h.imports m t ⟨hs.1, ht⟩ hphase
    · rw [h.linked.imports_zero, hl.imports_zero]
  · -- A module that is imported has been collected, so its outermost scope is finished as well.
    obtain ⟨-, m', hm', hkey, hroot⟩ := hl.bound hb
    have hself := ScopeForest.mem_chain_self (ScopeForest.lt_size_of_parent? (hl.root m' hm'))
    refine hroot ▸ h.declarations_eq (knows_of_module? (hl.module?_of_mem hm')) ?_ hself
    exact hkey ▸ ha hb

end Seals

end Context

/-! ### What is bound -/

namespace Visit

variable {F G : ScopeForest} {v : Visit}

/-- What is bound at a place stays bound while the same is declared in its scope and inside it. -/
theorem Bound.congr (h : v.Bound F) (hF : F.Sound)
    (hsame : ∀ s, v.scope ∈ F.chain s → G.declarations s = F.declarations s) : v.Bound G := by
  cases v with
  | importing s i => trivial
  | stop s x =>
    cases x with
    | typeDecl d =>
      obtain ⟨t, hbound⟩ := h
      have hself : s ∈ F.chain s := ScopeForest.mem_chain_self hbound.name.lt_size
      have hmembers := hsame t (hbound.name.mem_chain hF hself)
      refine ⟨t, hbound.name.congr (hsame s hself), fun x hx => ?_, fun hx => ?_⟩
      · exact (hbound.fields x hx).congr hmembers
      · exact hbound.only (hx.congr hmembers.symm)
    | _ => trivial
  | head s hd inner? =>
    obtain ⟨t, ht, hbound⟩ := h
    refine ⟨t, ht, fun hnone => ?_⟩
    have hbound := hbound hnone
    have hself : s ∈ F.chain s := ScopeForest.mem_chain_self hbound.name.lt_size
    refine ⟨hbound.name.congr (hsame s hself), fun x hx => ?_⟩
    exact (hbound.arguments x hx).congr (hsame t (hbound.name.mem_chain hF hself))

/-- Types do not count for what is bound. -/
theorem Bound.of_untyped (h : v.Bound F) (hF : F.Sound) (hG : G.untyped = F.untyped) : v.Bound G :=
  h.congr hF fun s _ => ScopeForest.declarations_of_untyped hG s

end Visit

namespace Context

/-- The itinerary of a module goes into every body, and all that it comes to is bound. -/
structure Established (ctx : Context) (m : Module) : Prop where
  /-- The itinerary spells the script of the module. -/
  spells : Spells m.root m.program.steps (ctx.scopes.itinerary m)
  /-- It goes into every body. -/
  entered : Visit.AllEntered (ctx.scopes.itinerary m)
  /-- It comes to no name twice. -/
  nodup : ((ctx.scopes.itinerary m).flatMap Visit.names).Nodup
  /-- What is declared at its places is bound. -/
  bound : ∀ v ∈ ctx.scopes.itinerary m, v.Bound ctx.scopes

/-- A walk on which everything is bound is the itinerary of its module. -/
theorem established_of_settles {ctx : Context} {m : Module} {L : List Visit} {D : List Declaration}
    (h : Visit.Settles ctx.scopes m.root L D) (hspells : Spells m.root m.program.steps L)
    (hm : m.program.MethodsOutside) : ctx.Established m := by
  obtain rfl : L = ctx.scopes.itinerary m := h.eq_visitsAll hspells hm
  exact ⟨hspells, h.entered, h.nodup, fun _ hv => h.bound hv⟩

/-- Only the tree and the program of a module count for what is established. -/
theorem Established.of_same {ctx : Context} {m m' : Module} (h : ctx.Established m')
    (hroot : m'.root = m.root) (hprogram : m'.program = m.program) : ctx.Established m := by
  have hitinerary : ctx.scopes.itinerary m' = ctx.scopes.itinerary m := by
    rw [ScopeForest.itinerary, ScopeForest.itinerary, hroot, hprogram]
  exact ⟨hitinerary ▸ hroot ▸ hprogram ▸ h.spells, hitinerary ▸ h.entered, hitinerary ▸ h.nodup,
    hitinerary ▸ h.bound⟩

/-- At all places on the itinerary of a module, what is written twice is the same. -/
def Consistent (ctx : Context) (m : Module) : Prop :=
  ∀ v ∈ ctx.scopes.itinerary m, v.Agrees ctx.scopes

variable {ctx c d : Context} {m m' : Module} {s : ScopeId} {key : String} {v w : Visit}
  {W : List Entry}

/-- The itinerary of a known module stays in its tree. -/
theorem encloses_of_itinerary (hl : ctx.Linked) (hm : ctx.Knows m)
    (hv : v ∈ ctx.scopes.itinerary m) : ctx.Encloses m v.scope := by
  obtain ⟨m₀, hm₀, -, hroot, -, hprogram⟩ := hm.exists_mem
  exact ⟨hm, ScopeForest.mem_chain_of_itinerary hl.scopes (hroot ▸ hl.root m₀ hm₀)
    (hprogram ▸ hl.places m₀ hm₀) hv⟩

/-- A scope inside one in the tree of a module lies in the tree. -/
theorem Encloses.inside (h : ctx.Encloses m s) (hl : ctx.Linked) {t : ScopeId}
    (ht : s ∈ ctx.scopes.chain t) : ctx.Encloses m t :=
  ⟨h.1, (ScopeForest.chain_suffix hl.scopes ht).subset h.2⟩

/-! ### What stays -/

/-- In a finished tree, all that has been bound stays bound. -/
theorem Established.later (h : ctx.Established m) (hl : ctx.Linked) (hd : ctx.Seals d)
    (hm : ctx.Knows m) (hphase : Phase.collected ≤ ctx.phase m.key) : d.Established m := by
  have hsame := hd.itinerary_eq hl hm hphase
  refine ⟨hsame ▸ h.spells, hsame ▸ h.entered, hsame ▸ h.nodup, fun v hv => ?_⟩
  rw [hsame] at hv
  refine (h.bound v hv).congr hl.scopes fun s hs => hd.declarations_eq hm hphase ?_
  exact ((encloses_of_itinerary hl hm hv).inside hl hs).2

/-- In a finished tree, places go on to agree while no type that is there changes. -/
theorem Consistent.later (h : ctx.Consistent m) (hest : ctx.Established m) (hl : ctx.Linked)
    (ha : ctx.Anchored) (hd : ctx.Seals d) (hm : ctx.Knows m)
    (hphase : Phase.collected ≤ ctx.phase m.key)
    (htypes : ∀ s name ty, ctx.Encloses m s → ctx.scopes.typeOf? s name = some ty →
      d.scopes.typeOf? s name = some ty) : d.Consistent m := by
  intro v hv
  rw [hd.itinerary_eq hl hm hphase] at hv
  have hs := encloses_of_itinerary hl hm hv
  refine (h v hv).later (hest.bound v hv) hl.scopes (hd.declarations_eq hm hphase hs.2)
    (hd.sameSense hl ha hs hphase) fun ht _ _ _ => htypes _ _ _ (hs.inside hl ht)

/-! ### Visits of resolution -/

/-- What a visit of resolution is known to leave behind. -/
private structure Writes (m : Module) (w : Visit) (c d : Context) : Prop where
  /-- Nothing but types changes. -/
  untyped : d.scopes.untyped = c.scopes.untyped
  /-- Of all names but methods, those at the place are given types. -/
  marks : w.Bound c.scopes → Marks w.names c d
  /-- Nothing changes outside of the tree of the module. -/
  outside : ∀ t, m.root ∉ c.scopes.chain t → d.scopes.symbols t = c.scopes.symbols t
  /-- What is written twice at the place is the same. -/
  agrees : w.Bound c.scopes → w.names.Nodup → w.Agrees d.scopes

private theorem writes_stop {stack : List String}
    (hs : (passing .resolved .collected ctx).At stack m s c) (x : Stop) :
    Writes m (.stop s x) c ((resolver m).stop s x c) where
  untyped := ((filling_resolver m).stop s x c).untyped
  marks hbound := marks_stop hbound.furnished m
  outside _ ht := symbols_stop filling_resolver local_resolver hs ht x
  agrees hbound _ := agrees_stop hbound m

private theorem writes_head {stack : List String}
    (hs : (passing .resolved .collected ctx).At stack m s c) {hd : Head} {ys : List Step}
    (hocc : (Step.body hd ys).Occurs m.program.steps) :
    Writes m (.head s hd ((resolver m).head s hd c).1) c ((resolver m).head s hd c).2 where
  untyped := ((filling_resolver m).head s hd c).2.untyped
  marks _ := marks_head m s hd c
  outside _ ht := symbols_head filling_resolver local_resolver hs ht hocc
  agrees hbound hnodup := by
    obtain ⟨t, ht, -⟩ := id hbound
    rw [ht] at hbound ⊢
    exact agrees_head hbound hnodup m

/-- A visit leaves the other places of its module as they are, since they have other names. -/
private theorem Writes.same (h : Writes m' w c d) (hest : ctx.Established m) (hl : c.Linked)
    (hv : v ∈ ctx.scopes.itinerary m) (hw : w ∈ ctx.scopes.itinerary m) (hne : v ≠ w)
    (hbound : ∀ v ∈ ctx.scopes.itinerary m, v.Bound c.scopes) (hagrees : v.Agrees c.scopes) :
    v.Agrees d.scopes := by
  refine hagrees.later (hbound v hv) hl.scopes (ScopeForest.declarations_of_untyped h.untyped _)
    (.of_untyped h.untyped _) fun _ hx hkind hmem hty => ?_
  refine ((h.marks (hbound w hw)).types hx hkind fun hmem' => hne ?_).trans hty
  exact Visit.eq_of_mem_names hest.nodup hv hw hmem hmem'

/-- A visit leaves the places of other modules as they are, since they lie in other trees. -/
private theorem Writes.other (h : Writes m' w c d) (hl : c.Linked) (hm : c.Encloses m v.scope)
    (hm' : c.Encloses m' s) (hne : m'.key ≠ m.key) (hbound : v.Bound c.scopes)
    (hagrees : v.Agrees c.scopes) : v.Agrees d.scopes := by
  refine hagrees.later hbound hl.scopes (ScopeForest.declarations_of_untyped h.untyped _)
    (.of_untyped h.untyped _) fun {t _ _ _ _} ht _ _ _ hty => ?_
  refine (ScopeForest.typeOf?_congr (h.outside t fun hmem => hne ?_) _).trans hty
  exact ((hm.inside hl ht).same hl ⟨hm'.1, hmem⟩).1

/-- What a pass has come to in the middle of a run is linked, and has the same names and modules. -/
private theorem leads_of_history
    (hW : resolution.History (passing .resolved .collected ctx) ctx W c) :
    ctx.Leads .resolved c :=
  (recounts_of_history filling_resolver (fun _ => rfl) rfl (by decide) hW).leads

/-- The places of a module that have been visited agree, and go on to do so. -/
private theorem agrees_of_history (hl : ctx.Linked) (hm : ctx.Knows m) (hest : ctx.Established m)
    (hW : resolution.History (passing .resolved .collected ctx) ctx W c)
    (hvisits : ∀ v ∈ Entry.visitsOf m.key W, v ∈ ctx.scopes.itinerary m) :
    ∀ v ∈ Entry.visitsOf m.key W, v.Agrees c.scopes := by
  -- One more visit agrees itself if it is made in the module, and leaves the others as they are.
  have hstep : ∀ {W c d m' s w}, resolution.History (passing .resolved .collected ctx) ctx W c →
      c.Encloses m' s → Writes m' w c d →
      ((∀ v ∈ Entry.visitsOf m.key W, v ∈ ctx.scopes.itinerary m) →
        ∀ v ∈ Entry.visitsOf m.key W, v.Agrees c.scopes) →
      (∀ v ∈ Entry.visitsOf m.key (W ++ [.visited m' w]), v ∈ ctx.scopes.itinerary m) →
        ∀ v ∈ Entry.visitsOf m.key (W ++ [.visited m' w]), v.Agrees d.scopes := by
    intro W c d m' s w hW hs hwrites ih hvisits v hv
    have hleads := leads_of_history hW
    have hlc := hleads.linked hl
    have hbound : ∀ v ∈ ctx.scopes.itinerary m, v.Bound c.scopes :=
      fun v hv => (hest.bound v hv).of_untyped hl.scopes hleads.untyped
    rw [Entry.visitsOf_append] at hv hvisits
    obtain ⟨hbefore, hnow⟩ := List.forall_mem_append.mp hvisits
    by_cases hkey : m'.key = m.key
    · rw [← hkey, Entry.visitsOf_visited] at hnow hv
      have hw := List.forall_mem_singleton.mp hnow
      by_cases hvw : v = w
      · subst hvw
        exact hwrites.agrees (hbound v hw) ((List.nodup_flatMap.mp hest.nodup).1 v hw)
      · have hv := (List.mem_append.mp hv).resolve_right fun he => hvw (List.mem_singleton.mp he)
        rw [hkey] at hv
        exact hwrites.same hest hlc (hbefore v hv) hw hvw hbound (ih hbefore v hv)
    · have hnone : Entry.visitsOf m.key [.visited m' w] = [] := by simp [Entry.visitsOf, hkey]
      rw [hnone, List.append_nil] at hv
      have hinside := (encloses_of_itinerary hl hm (hbefore v hv)).later
        (hleads.toPasses.toExtends hl)
      exact hwrites.other hlc hinside hs hkey (hbound v (hbefore v hv)) (ih hbefore v hv)
  induction hW with
  | start => exact fun v hv => absurd hv List.not_mem_nil
  | @enter W c stack key _ hready ih =>
    obtain ⟨hsame, -⟩ := hready.1.enter_cases rfl (by decide) (show c.enter key .resolved .resolving
      "resolution" = (_, (c.enter key .resolved .resolving "resolution").2) from rfl)
    exact hsame.symm ▸ ih hvisits
  | @importing W c stack m' s i hW hs _ _ ih =>
    exact hstep (w := .importing s i) hW hs.2.2 ⟨rfl, fun _ => .refl c, fun _ _ => rfl,
      fun _ _ => trivial⟩ ih hvisits
  | stop hW hs _ ih => exact hstep hW hs.2.2 (writes_stop hs _) ih hvisits
  | head hW hs hocc ih => exact hstep hW hs.2.2 (writes_head hs hocc) ih hvisits
  | @close W c stack m' _ _ ih =>
    rw [Entry.visitsOf_append, Entry.visitsOf_closed, List.append_nil] at hvisits ⊢
    have hsame : (resolution.leave m'.key c).scopes = c.scopes := scopes_setPhase c m'.key .resolved
    exact hsame.symm ▸ ih hvisits

/-! ### Runs of resolution -/

/-- Resolution makes the places of a module that it leads on agree. -/
theorem Established.consistent_resolve (h : ctx.Established m) (hl : ctx.Linked)
    (hm : ctx.Knows m) (hle : Phase.collected ≤ ctx.phase key)
    (hnot : ¬ Phase.resolved ≤ ctx.phase m.key)
    (hnow : Phase.resolved ≤ (Context.resolve key ctx).phase m.key) :
    (Context.resolve key ctx).Consistent m := by
  obtain ⟨W, hW, hrecounts, hclosed, -⟩ :=
    exists_history filling_resolver (fun _ => rfl) rfl (by decide) hl hle
  rcases hrecounts.closed m.key with hsame | ⟨m', hm', hkey⟩
  · exact absurd (hsame ▸ hnow) hnot
  -- The walk over the module has been closed, so it has come to all places of the itinerary.
  have hitinerary : Entry.visitsOf m.key W = ctx.scopes.itinerary m := by
    obtain ⟨m₁, hm₁, hkey₁, hroot₁, -, hprogram₁⟩ := (hrecounts.knows hm').exists_mem
    obtain ⟨m₂, hm₂, hkey₂, hroot₂, -, hprogram₂⟩ := (hrecounts.leads.modules hm).exists_mem
    obtain rfl := (hrecounts.leads.linked hl).eq_of_key hm₁ hm₂
      (hkey₁.trans (hkey.trans hkey₂.symm))
    rw [← hkey, (hclosed m' hm').1, ScopeForest.itinerary, ScopeForest.itinerary, ← hroot₁,
      ← hprogram₁, hroot₂, hprogram₂]
  have hagrees := agrees_of_history hl hm h hW fun v hv => hitinerary ▸ hv
  have hsame : (Context.resolve key ctx).scopes.itinerary m = ctx.scopes.itinerary m :=
    ScopeForest.itinerary_congr hrecounts.leads.untyped m
  intro v hv
  rw [hsame, ← hitinerary] at hv
  exact hagrees v hv

/-- Resolution leaves the places of modules that had been resolved as they are. -/
theorem Consistent.resolve (h : ctx.Consistent m) (hest : ctx.Established m) (hl : ctx.Linked)
    (ha : ctx.Anchored) (hm : ctx.Knows m) (hle : Phase.collected ≤ ctx.phase key)
    (hphase : Phase.resolved ≤ ctx.phase m.key) : (Context.resolve key ctx).Consistent m := by
  obtain ⟨M, hM, -⟩ := exists_resolves hl hle
  have hleads := hM.leads hM.start_mem
  refine h.later hest hl ha (.of_leads hl hleads) hm (le_trans (by decide) hphase) ?_
  exact fun s name ty hs hty => (hM.typeOf?_eq hl hs hphase name).trans hty

/-- Type checking changes no type that is there. -/
theorem Consistent.check (h : ctx.Consistent m) (hest : ctx.Established m) (hl : ctx.Linked)
    (ha : ctx.Anchored) (hm : ctx.Knows m) (hle : Phase.resolved ≤ ctx.phase key)
    (hphase : Phase.resolved ≤ ctx.phase m.key) : (Context.check key ctx).Consistent m := by
  obtain ⟨W, hW, -⟩ := exists_history filling_checker (fun _ => rfl) rfl (by decide) hl hle
  have hchecks := checks_of_history hW
  refine h.later hest hl ha (.of_leads hl hchecks.leads) hm (le_trans (by decide) hphase) ?_
  exact fun s name ty _ hty => hchecks.typeOf?_eq hty

end Context

end Sable
