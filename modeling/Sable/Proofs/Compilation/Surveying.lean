import Sable.Proofs.Compilation.Calls
import Sable.Proofs.Module.Survey
import Sable.Proofs.Scope.Lookup

/-!
# Surveys of the passes

Behind a module that has been collected, nothing is declared in its tree any more. So resolution
and type checking walk a collected module along the route that its tables say, and resolution
reports every name on the way that means nothing there. The first pass finds the scopes of bodies
while names are still being declared: unless it has refused a declaration, it has walked the
module along the same route as long as the receivers of all methods go on to lead where they led.
-/

namespace Sable

/-- In front of the phase that a pass leads to, every other pass has led as far as behind it. -/
theorem Pass.goal_le_goal_iff {pass : Pass} {q : Phase} (hq : pass.goal.previous? = some q)
    (p : Pass) : p.goal ≤ pass.goal ↔ p.goal ≤ q ∨ p = pass := by
  cases pass <;> cases hq <;> cases p <;> decide

namespace Context

/-- A module shows that one of the three passes has walked it. -/
def HasWalked (pass : Pass) (key : String) (ctx : Context) : Prop :=
  Phase.collected ≤ pass.goal ∧ ctx.ShowsWalk pass key

/-- The first pass has reported nothing in the file of a module. -/
def Quiet (ctx : Context) (m : Module) : Prop :=
  ∀ r ∈ ctx.diagnostics.items, r.pass = .collecting → r.file ≠ m.file.text

/-- The report of a name in a module that means nothing. -/
def undefinedReport (m : Module) (name : Ident) : Diagnostic :=
  ⟨m.file.text, name.span, "undefined symbol: " ++ name.name, .semanticError, .resolving, none⟩

/-- A name that means nothing where it stands has been reported. -/
def Reported (m : Module) (x : Landmark) (ctx : Context) : Prop :=
  ∀ s name, x = .name s name → ctx.scopes.visible? s name.name = none →
    undefinedReport m name ∈ ctx.diagnostics.items

end Context

/-- What a finished walk over a module has come past. -/
structure Tour.Follows (x : Tour) (m : Module) (ctx : Context) : Prop where
  /-- The first pass has followed all later tables that lead receivers where it led them. -/
  collecting : x.pass = .collecting → ∀ F, ctx.Quiet m → ctx.scopes.Precedes F →
    (∀ y ∈ x.route, F.Steady y) → x.route = F.route m
  /-- The passes behind it have followed the tables. -/
  behind : x.pass ≠ .collecting → x.route = ctx.scopes.route m
  /-- Names that mean nothing have been reported. -/
  resolving : x.pass = .resolving → ∀ y ∈ x.route, ctx.Reported m y

namespace Context

/-- A finished walk has been one over a collected module. -/
def Attests (x : Tour) (ctx : Context) : Prop :=
  ctx.Linked ∧ ∃ m, ctx.Knows m ∧ m.key = x.key ∧ Phase.collected ≤ ctx.phase m.key ∧
    x.Follows m ctx

variable {ctx d : Context} {m : Module} {x : Landmark} {key : String} {target p : Phase}
  {pass : Pass}

/-! ### Walks that have been finished -/

theorem hasWalked_congr (h : d.modules = ctx.modules) (p : Pass) (k : String) :
    d.HasWalked p k ↔ ctx.HasWalked p k := by
  simp only [HasWalked, ShowsWalk, phase_congr h]

/-- Registering modules finishes no walk. -/
theorem Enrols.hasWalked_iff (h : ctx.Enrols d) (p : Pass) (k : String) :
    d.HasWalked p k ↔ ctx.HasWalked p k :=
  and_congr_right fun hp => h.le_phase_iff (lt_of_lt_of_le (by decide) hp) k

/-- Leading a module one phase on finishes the walk of one pass. -/
theorem hasWalked_iff_of_phase (hgoal : Phase.collected ≤ pass.goal)
    (hprevious : pass.goal.previous? = some p) (hold : ctx.phase key = p)
    (hnew : ∀ k, d.phase k = if k = key then pass.goal else ctx.phase k) (p' : Pass) (k : String) :
    d.HasWalked p' k ↔ ctx.HasWalked p' k ∨ (p' = pass ∧ k = key) := by
  simp only [HasWalked, ShowsWalk, hnew]
  by_cases hk : k = key
  · rw [if_pos hk, hk, hold, Pass.goal_le_goal_iff hprevious, and_or_left]
    refine or_congr_right ⟨fun h => ⟨h.2, rfl⟩, fun h => ⟨?_, h.1⟩⟩
    exact h.1 ▸ hgoal
  · simp [hk]

theorem not_hasWalked (hprevious : pass.goal.previous? = some p) (hold : ctx.phase key = p) :
    ¬ ctx.HasWalked pass key := fun h =>
  (Phase.previous_lt hprevious).not_ge (hold ▸ h.2)

/-! ### What stays true -/

/-- What has not been reported later has not been reported before. -/
theorem Quiet.before (h : d.Quiet m) (hd : ctx.Extends d) : ctx.Quiet m :=
  fun r hr => h r (hd.reports.subset hr)

theorem not_quiet_reportIn (ctx : Context) (m : Module) (span : Span) (message : String) :
    ¬ (ctx.reportIn m .collecting span message).Quiet m := by
  intro h
  refine h ⟨m.file.text, span, message, .semanticError, .collecting, none⟩ ?_ rfl rfl
  exact List.mem_append_right _ (List.mem_singleton_self _)

/-- A pass that gives types to names leaves names reported. -/
theorem Reported.leads (h : ctx.Reported m x) (hd : ctx.Leads target d) : d.Reported m x := by
  intro s name hx hnone
  obtain ⟨es, hes, -⟩ := hd.reports
  rw [ScopeForest.visible?_eq_none_congr hd.untyped] at hnone
  exact hes ▸ List.mem_append_left _ (h s name hx hnone)

theorem Knows.encloses (h : ctx.Knows m) (hl : ctx.Linked) : ctx.Encloses m m.root := by
  obtain ⟨m', hm', -, hroot, -⟩ := h.exists_mem
  exact ⟨h, ScopeForest.mem_chain_self (ScopeForest.lt_size_of_parent? (hroot ▸ hl.root m' hm'))⟩

/-- The route of a module stays what it is once the module has been collected. -/
theorem Spares.route_eq (h : ctx.Spares d) (hl : ctx.Linked) (hd : ctx.Extends d)
    (hl' : d.Linked) (hm : ctx.Knows m) (hphase : Phase.collected ≤ ctx.phase m.key) :
    d.scopes.route m = ctx.scopes.route m := by
  have hself := hm.encloses hl
  exact ScopeForest.route_eq hl.scopes (hself.root hl) (hself.places hl) hl'.scopes hd.scopes h.1
    fun s hs => h.2 m s ⟨hm, hs⟩ hphase

/-- What is attested of a finished walk stays true. -/
theorem Attests.later {x : Tour} (h : ctx.Attests x) (hd : ctx.Extends d) (hl' : d.Linked)
    (hspares : ctx.Spares d) : d.Attests x := by
  obtain ⟨hl, m, hm, hkey, hphase, hfollows⟩ := h
  refine ⟨hl', m, hd.modules hm, hkey, hphase.trans (hd.phase_le _), ?_⟩
  constructor
  · intro hpass F hquiet hF
    exact hfollows.collecting hpass F (hquiet.before hd) (hd.scopes.trans hF)
  · intro hpass
    exact (hfollows.behind hpass).trans (hspares.route_eq hl hd hl' hm hphase).symm
  · intro hpass y hy s name hname hnone
    have hbefore := hd.scopes.visible?_eq_none hl.scopes hl'.scopes hnone
    exact hd.reports.subset (hfollows.resolving hpass y hy s name hname hbefore)

/-! ### The passes behind collection -/

/-- A visitor that fills in types finds the scopes of bodies on any tables with the same names. -/
theorem Filling.reads {v : Visitor Context} (hv : Filling v) (F : ScopeForest) {P : Place → Prop}
    {A : ScopeId → Context → Prop} :
    v.Reads F.lookups P A (fun ctx => ctx.scopes.untyped = F.untyped) fun _ => True where
  function {s ctx} name params ret _ hsame := by
    obtain ⟨hbody, htypes⟩ := hv.function s name params ret ctx
    rw [hbody, ← ScopeForest.declaredMembers?_untyped, ← htypes.untyped, hsame,
      ScopeForest.declaredMembers?_untyped]
    rfl
  method {s ctx} receiver name params ret _ _ hsame _ := by
    obtain ⟨hbody, htypes⟩ := hv.method s receiver name params ret ctx
    rw [hbody, ← ScopeForest.methodBody?_untyped, ← htypes.untyped, hsame,
      ScopeForest.methodBody?_untyped]
    rfl

/-- Resolution reports a name that means nothing. -/
theorem reported_resolveName (m : Module) (s : ScopeId) (name : Ident) (ctx : Context) :
    (ctx.resolveName m s name).Reported m (.name s name) := by
  intro s' name' hx hnone
  obtain ⟨rfl, rfl⟩ := Landmark.name.inj hx
  unfold resolveName at hnone ⊢
  split at hnone
  · next hsome => simp [hnone] at hsome
  · next hunknown =>
    rw [if_neg hunknown]
    exact List.mem_append_right _ (List.mem_singleton_self _)

/-- A pass behind the first one follows the tables, and resolution reports what means nothing. -/
theorem surveys_passing {activity : String} {v : Module → Visitor Context}
    (hv : ∀ m, Filling (v m)) (hi : ∀ m, (v m).importing = nextModule target)
    (hgoal : pass.goal = target) (ht : target.previous? = some p) (hp : Phase.collected ≤ p)
    (hname : pass = .resolving → ∀ m s name ctx,
      ((v m).name s name ctx).Reported m (.name s name)) (c₀ : Context) :
    (passing target p c₀).Surveys HasWalked Attests (traversal target pass activity v) pass
      fun m x ctx => pass = .resolving → ctx.Reported m x where
  told_later hd h := h.later (hd.toExtends h.1) (hd.linked h.1) (.of_untyped hd.untyped)
  says_later hd h hpass := (h hpass).leads hd
  body _ _ _ _ _ _ _ := nofun
  name {_ m s c} name _ hpass := hname hpass m s name c
  visits stack m := (visits_types hv c₀ stack m).imp fun _ hd => hasWalked_congr hd.modules
  importing {_ m s i c} _ _ := by
    have hsame : ((v m).importing s i c).2 = c := by
      rw [hi]
      rfl
    exact hasWalked_congr (congrArg Context.modules hsame)
  enter {stack key c} hready := by
    have hparsed : Phase.parsed ≤ p := le_trans (by decide) hp
    have henter : c.enter key target pass activity =
        ((c.enter key target pass activity).1, (c.enter key target pass activity).2) := rfl
    obtain ⟨hsame, -⟩ := hready.1.enter_cases ht hparsed henter
    exact hasWalked_congr (congrArg Context.modules hsame)
  first hat := not_hasWalked (hgoal ▸ ht) (hat.1.walking.phases _ (List.mem_cons_self ..))
  leave {stack m c} hat := by
    subst hgoal
    obtain ⟨-, -, hphase⟩ := hat.1.walking.leave hat.2.2.1 ht
    have hbefore := hat.1.walking.phases m.key (List.mem_cons_self ..)
    exact hasWalked_iff_of_phase (hp.trans (Phase.previous_lt ht).le) ht hbefore hphase
  told {stack m r c} hat hext hspoken hreads := by
    have hphase := hat.1.walking.phases m.key (List.mem_cons_self ..)
    have hroute : r = c.scopes.route m :=
      hreads c.scopes.lookups (fun d => d.scopes.untyped = c.scopes.untyped) (fun _ => True)
        ((hv m).reads c.scopes) (fun hd hsame => hd.untyped.symm.trans hsame) rfl
        fun _ _ => trivial
    have hbehind : pass ≠ .collecting := by
      rintro rfl
      subst hgoal
      cases ht
      exact absurd hp (by decide)
    have hbefore : c.Attests ⟨pass, m.key, r⟩ :=
      ⟨hat.2.1, m, hat.2.2.1, rfl, hp.trans_eq hphase.symm,
        fun hpass => absurd hpass hbehind, fun _ => hroute, fun hpass x hx => hspoken x hx hpass⟩
    exact hbefore.later (hext.toExtends hat.2.1) (hext.linked hat.2.1) (.of_untyped hext.untyped)

end Context

namespace Compilation

open Context

variable {l : Loader} {needed : Path → Prop} {roots : String → Prop} {stack : List String}
  {c : Compilation} {m : Module} {s : ScopeId}

/-! ### The first pass -/

/-- A scope comes out that the tables place somewhere, unless something has been reported. -/
def Grants (m : Module) (A : ScopeId → ScopeForest → Prop) (r : Option ScopeId × Compilation) :
    Prop := r.2.context.Quiet m → ∃ t, r.1 = some t ∧ A t r.2.context.scopes

/-- What is declared in a scope that comes out leaves it where it is. -/
theorem grants_then (hl : c.context.Linked) {A : ScopeId → ScopeForest → Prop}
    (hA : ∀ t F G, F.Precedes G → A t F → A t G) {r : Option ScopeId × Compilation}
    {f : ScopeId → Compilation → Compilation}
    (hf : ∀ {t} {d : Compilation}, d.context.Linked → d.context.Encloses m t → d.Fills m (f t d)) :
    c.Opens m r → Grants m A r → Grants m A (match r with
      | (none, d) => (none, d)
      | (some t, d) => (some t, f t d)) := by
  intro hopens h
  obtain ⟨_ | t, d⟩ := r
  · exact h
  · intro hquiet
    have hl' := hopens.1.context.linked hl
    have hext := (hf hl' (hopens.2 t rfl).1).context.toExtends hl'
    obtain ⟨t', ht, hplaced⟩ := h (hquiet.before hext)
    obtain rfl := Option.some.inj ht
    exact ⟨t, rfl, hA t _ _ hext.scopes hplaced⟩

/-- A name of a kind with members is declared, with a scope for them. -/
theorem declare_grants (hs : c.context.Encloses m s) (kind : SymbolKind)
    (hkind : kind.opensScope = true) (name : Ident) :
    Grants m (fun t F => F.declaredMembers? s name = some t) (c.declare m s kind name) := by
  unfold declare
  split
  · exact fun hquiet => absurd hquiet (not_quiet_reportIn _ _ _ _)
  · cases hdeclare : c.context.scopes.declare s name kind none with
    | error e => exact fun hquiet => absurd hquiet (not_quiet_reportIn _ _ _ _)
    | ok r =>
      obtain ⟨members?, F⟩ := r
      have hsome := ScopeForest.isSome_of_declare hkind hdeclare
      obtain ⟨t, rfl⟩ := Option.isSome_iff_exists.mp hsome
      have hlt := ScopeForest.lt_size_of_mem_chain hs.2
      exact fun _ => ⟨t, rfl, ScopeForest.declaredMembers?_declare hlt hdeclare⟩

/-- A function is declared, with a scope for its body. -/
theorem collectFunction_grants (hl : c.context.Linked) (hs : c.context.Encloses m s)
    (name : Ident) (params : List Param) :
    Grants m (fun t F => F.declaredMembers? s name = some t)
      (collectFunction m s name params c) :=
  grants_then hl (A := fun t F => F.declaredMembers? s name = some t)
    (fun _ _ _ hF ht => hF.declaredMembers?_eq ht) (fun hl hs => declareAll_fills hl hs ..)
    (declare_opens hl hs .func name) (declare_grants hs .func rfl name)

/-- The body of a method is a member of the scope that it lies in. -/
def Holds (name : Ident) (t : ScopeId) (F : ScopeForest) : Prop :=
  ∃ members, F.parent? t = some members ∧ F.declaredMembers? members name = some t

theorem Holds.later {name : Ident} {t : ScopeId} {F G : ScopeForest} (hF : F.Precedes G)
    (h : Holds name t F) : Holds name t G := by
  obtain ⟨members, hparent, hbody⟩ := h
  exact ⟨members, hF.parent?_eq hparent, hF.declaredMembers?_eq hbody⟩

/-- A method is declared, with a scope for its body. -/
theorem declareMethod_grants (hl : c.context.Linked) (hs : c.context.Encloses m s)
    {receiver : Param} (hr : receiver.ty.NamesNoBuiltin) (name : Ident) :
    Grants m (Holds name) (declareMethod m s receiver name c) := by
  unfold declareMethod
  split
  · exact fun hquiet => absurd hquiet (not_quiet_reportIn _ _ _ _)
  · next members hmembers =>
    have htree := receiverMembers_mem hl hs hr hmembers
    have hopens := declare_opens hl htree .method name
    refine grants_then hl (fun _ _ _ hF h => h.later hF)
      (fun hl hs => (declare_opens hl hs .var receiver.name).1) hopens fun hquiet => ?_
    obtain ⟨t, ht, hbody⟩ := declare_grants htree .method rfl name hquiet
    have hsound := (hopens.1.context.linked hl).scopes
    exact ⟨t, ht, members, ScopeForest.parent?_of_declaredMembers? hsound hbody, hbody⟩

@[inherit_doc declareMethod_grants]
theorem collectMethod_grants (hl : c.context.Linked) (hs : c.context.Encloses m s)
    {receiver : Param} (hr : receiver.ty.NamesNoBuiltin) (name : Ident) (params : List Param) :
    Grants m (Holds name) (collectMethod m s receiver name params c) :=
  grants_then hl (fun _ _ _ hF h => h.later hF) (fun hl hs => declareAll_fills hl hs ..)
    (declareMethod_opens hl hs hr name) (declareMethod_grants hl hs hr name)

/--
The first pass finds the scopes of bodies where later tables have them, if it reports nothing
and the tables lead receivers where it led them.
-/
theorem collector_reads (stack : List String) (m : Module) (F : ScopeForest) :
    (collector m).Reads F.lookups ((collecting l needed roots).Admits m)
      ((collecting l needed roots).At stack m)
      (fun c => c.context.Quiet m ∧ c.context.scopes.Precedes F) F.Steady where
  function name params ret hs hfine := by
    obtain ⟨t, ht, hbody⟩ := collectFunction_grants hs.2.1 hs.2.2 name params hfine.1
    exact ht.trans (hfine.2.declaredMembers?_eq hbody).symm
  method {s c} receiver name params ret hr hs hfine hsteady := by
    have hparsed := hs.2.2.places hs.2.1 _ hr
    obtain ⟨t, ht, hbody⟩ := collectMethod_grants hs.2.1 hs.2.2 hparsed name params hfine.1
    obtain ⟨members, hparent, hmember⟩ := hbody.later hfine.2
    have hscope : methodScope F s receiver = some members := (hsteady t ht).trans hparent
    refine ht.trans (Eq.symm ?_)
    simp only [ScopeForest.lookups, ScopeForest.methodBody?, hscope, Option.bind_some, hmember]

/-- The first pass follows all later tables that lead receivers where it led them. -/
theorem surveys_collecting (hclosed : l.Closed needed) :
    (collecting l needed roots).Surveys (fun p k c => c.context.HasWalked p k)
      (fun x c => c.context.Attests x) collection .collecting fun _ _ _ => True where
  told_later hd h := h.later hd.onward (hd.linked h.1) hd.spares
  says_later _ _ := trivial
  body _ _ _ _ _ _ := trivial
  name _ _ := trivial
  visits stack m := (visits_fills stack m).imp fun _ hd => hasWalked_congr hd.context.modules
  importing {stack m s i c} hi hs := by
    rw [importing_collection]
    rcases hc : collectImport m s i c with ⟨key?, d⟩
    exact ((hs.1.imported hclosed hs.2.2 hi hc).enrols hc).hasWalked_iff
  enter {stack key c} hready := by
    have henter : collection.enter key c =
        ((collection.enter key c).1, (collection.enter key c).2) := rfl
    obtain ⟨hsame, -⟩ := enter_collection hready.1 henter
    exact hasWalked_congr (congrArg (fun d => d.context.modules) hsame)
  first hat := not_hasWalked rfl (phase_of_at hat)
  leave {stack m c} hat := by
    obtain ⟨-, -, hphase⟩ := hat.1.walking.leave hat.2.2.1
      (show Phase.collected.previous? = some .parsed from rfl)
    exact hasWalked_iff_of_phase (by decide) rfl (phase_of_at hat) hphase
  told {stack m r c} hat hext hspoken hreads := by
    refine ⟨hext.linked hat.2.1, m, hext.onward.modules hat.2.2.1, rfl, ?_, ?_⟩
    · obtain ⟨-, -, hphase⟩ := hat.1.walking.leave hat.2.2.1
        (show Phase.collected.previous? = some .parsed from rfl)
      exact ((hphase m.key).trans (if_pos rfl)).ge
    · refine ⟨fun _ F hquiet hF hsteady => ?_, fun hpass => absurd rfl hpass, nofun⟩
      refine hreads F.lookups _ F.Steady (collector_reads stack m F) (fun hd hfine => ?_)
        ⟨hquiet.before hext.onward, hext.onward.scopes.trans hF⟩ hsteady
      exact ⟨hfine.1.before hd.onward, hd.onward.scopes.trans hfine.2⟩

end Compilation

end Sable
