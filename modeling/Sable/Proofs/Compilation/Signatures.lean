import Sable.Proofs.Compilation.Establishing
import Sable.Proofs.Compilation.Fitting

/-!
# Signatures and the names in them

The types in a signature are written into the type of the function and into those of its parameters,
and the types in a struct into that of the name and into those of its members. In a module that has
been resolved without a report of collection, and whose methods stand outside of functions, the two
copies are the same, whatever has been checked before and is checked later.
-/

namespace Sable

namespace Context

/-- The plain modules are established once they have been collected, and coherent once resolved. -/
structure Coheres (ctx : Context) : Prop where
  /-- What plain modules declare is bound once they have been collected. -/
  established : ∀ m, ctx.Knows m → Phase.collected ≤ ctx.phase m.key → ctx.Plain m →
    ctx.Established m
  /-- What is written twice is the same once they have been resolved. -/
  consistent : ∀ m, ctx.Knows m → Phase.resolved ≤ ctx.phase m.key → ctx.Plain m →
    ctx.Consistent m

variable {ctx d : Context} {m : Module} {key : String}

/-- A module that is plain later has been so before. -/
theorem Plain.before (h : d.Plain m) (hd : ctx.Extends d) : ctx.Plain m :=
  ⟨h.1.before hd, h.2⟩

namespace Coheres

/-- What has been collected stays established, and what has been collected since is so too. -/
private theorem established_later (h : ctx.Coheres) (hl : ctx.Linked) (hd : ctx.Seals d)
    (hnew : ∀ m, d.Knows m → ¬ Phase.collected ≤ ctx.phase m.key →
      Phase.collected ≤ d.phase m.key → d.Plain m → d.Established m) :
    ∀ m, d.Knows m → Phase.collected ≤ d.phase m.key → d.Plain m → d.Established m := by
  intro m hm hphase hplain
  by_cases hold : Phase.collected ≤ ctx.phase m.key
  · obtain ⟨q, hq⟩ := hm.before hd.onward (hasModule_of_parsed_le (le_trans (by decide) hold))
    have hbefore := h.established _ hq hold (hplain.before hd.onward)
    exact (hbefore.later hl hd hq hold).of_same rfl rfl
  · exact hnew m hm hold hphase hplain

/-- What has been resolved stays consistent if types that are there stay. -/
private theorem consistent_later (h : ctx.Coheres) (hl : ctx.Linked) (ha : ctx.Anchored)
    (hd : ctx.Seals d)
    (htypes : ∀ s name ty, ctx.scopes.typeOf? s name = some ty → d.scopes.typeOf? s name = some ty)
    (hphases : ∀ k, Phase.resolved ≤ d.phase k → Phase.resolved ≤ ctx.phase k) :
    ∀ m, d.Knows m → Phase.resolved ≤ d.phase m.key → d.Plain m → d.Consistent m := by
  intro m hm hphase hplain
  have hresolved := hphases m.key hphase
  have hcollected : Phase.collected ≤ ctx.phase m.key := le_trans (by decide) hresolved
  obtain ⟨q, hq⟩ := hm.before hd.onward (hasModule_of_parsed_le (le_trans (by decide) hresolved))
  have hbefore := hplain.before hd.onward
  exact (h.consistent _ hq hresolved hbefore).later (h.established _ hq hcollected hbefore) hl ha hd
    hq hcollected fun s name ty _ => htypes s name ty

/-- Registering modules leaves modules coherent. -/
theorem enrols (h : ctx.Coheres) (hl : ctx.Linked) (ha : ctx.Anchored) (hd : ctx.Enrols d)
    (himports : ∀ s, d.scopes.imports s = ctx.scopes.imports s) : d.Coheres where
  established := h.established_later hl (.of_enrols hl hd himports) fun m _ hnot hphase _ =>
    absurd ((hd.le_phase_iff (by decide) m.key).mp hphase) hnot
  consistent := h.consistent_later hl ha (.of_enrols hl hd himports)
    (fun s name _ hty => (ScopeForest.typeOf?_congr (hd.symbols s) name).trans hty)
    fun k => (hd.le_phase_iff (by decide) k).mp

/-- A pass behind collection collects no module. -/
private theorem established_leads (h : ctx.Coheres) (hl : ctx.Linked) {target p : Phase}
    (hd : ctx.Leads target d) (ht : target.previous? = some p) (hp : Phase.collected ≤ p) :
    ∀ m, d.Knows m → Phase.collected ≤ d.phase m.key → d.Plain m → d.Established m := by
  refine h.established_later hl (.of_leads hl hd) fun m _ hnot hphase _ => absurd ?_ hnot
  rcases hd.phases m.key with hsame | ⟨hprevious, -⟩
  · exact hsame ▸ hphase
  · exact hp.trans_eq (Option.some.inj (ht.symm.trans hprevious))

/-- Resolution makes the modules that it leads on coherent. -/
theorem resolve (h : ctx.Coheres) (hl : ctx.Linked) (ha : ctx.Anchored)
    (hle : Phase.collected ≤ ctx.phase key) : (Context.resolve key ctx).Coheres := by
  obtain ⟨M, hM, -⟩ := exists_resolves hl hle
  have hleads := hM.leads hM.start_mem
  have hext := hleads.toPasses.toExtends hl
  refine ⟨h.established_leads hl hleads rfl le_rfl, fun m hm hphase hplain => ?_⟩
  have hplain := hplain.before hext
  have hcollected : Phase.collected ≤ ctx.phase m.key := by
    rcases hleads.phases m.key with hsame | ⟨hprevious, -⟩
    · exact le_trans (by decide) (hsame ▸ hphase)
    · exact (Option.some.inj hprevious).le
  obtain ⟨q, hq⟩ := hm.before hext (hasModule_of_parsed_le (le_trans (by decide) hcollected))
  have hestablished := h.established _ hq hcollected hplain
  by_cases hresolved : Phase.resolved ≤ ctx.phase m.key
  · exact (h.consistent _ hq hresolved hplain).resolve hestablished hl ha hq hle hresolved
  · exact hestablished.consistent_resolve hl hq hle hresolved hphase

/-- Type checking leaves modules coherent. -/
theorem check (h : ctx.Coheres) (hl : ctx.Linked) (ha : ctx.Anchored)
    (hle : Phase.resolved ≤ ctx.phase key) : (Context.check key ctx).Coheres := by
  obtain ⟨W, hW, -⟩ := exists_history filling_checker (fun _ => rfl) rfl (by decide) hl hle
  have hchecks := checks_of_history hW
  refine ⟨h.established_leads hl hchecks.leads rfl (by decide), h.consistent_later hl ha
    (.of_leads hl hchecks.leads) (fun s name ty => hchecks.typeOf?_eq) fun k hk => ?_⟩
  rcases hchecks.leads.phases k with hsame | ⟨hprevious, -⟩
  · exact hsame ▸ hk
  · exact (Option.some.inj hprevious).le

end Coheres

end Context

/-! ### Tables of fields -/

/-- The fields that a scope declares are those of a table, with the types that it has for them. -/
structure ScopeForest.Tabulates (F : ScopeForest) (t : ScopeId) (fs : List (String × Ty)) :
    Prop where
  /-- Just the names in the table are fields. -/
  fields : ∀ name, name ∈ fs.map Prod.fst ↔ ∃ y ∈ F.symbols t, y.kind = .field ∧ y.name = name
  /-- Just the types in the table are theirs. -/
  types : ∀ y ∈ F.symbols t, y.kind = .field → ∀ ty, (y.name, ty) ∈ fs ↔ y.ty? = some ty

/--
A function is bound where its head stands, and its body is walked in the scope of its members. If
its types mean something, its own type says which types its parameters have there.
-/
def Head.Signs (F : ScopeForest) (m : Module) (h : Head) : Prop :=
  ∃ s t, .head s h (some t) ∈ F.itinerary m ∧ F.Shows s .func h.name (some t) ∧
    (∀ p ∈ h.params, F.Shows t .var p.name none) ∧ (h.Derives F s → h.Agrees F s t)

/--
A type is bound where its declaration stands. If its definition means something, its own type has a
table of the fields among its members.
-/
def TypeDecl.Tabulates (F : ScopeForest) (m : Module) (d : TypeDecl) : Prop :=
  ∃ s t, .stop s (.typeDecl d) ∈ F.itinerary m ∧ F.Shows s .type d.name (some t) ∧
    ((Ty.ofTypeDecl F s d.name.name d.ty).isOk = true → ∃ fs,
      F.typeOf? s d.name.name = some (.named d.name.name (some (.struct d.name.name fs))) ∧
        F.Tabulates t fs)

/-- Among the members of a type, the fields are those of the table that its own type has. -/
theorem TypeDecl.Bound.tabulates {F : ScopeForest} {s t : ScopeId} {d : TypeDecl}
    (h : d.Bound F s t) (hF : F.Unambiguous) {fs : List (String × Ty)}
    (hnames : ∀ name, name ∈ fs.map Prod.fst ↔ name ∈ d.fieldNames.map Ident.name)
    (htypes : ∀ f ∈ fs, F.typeOf? t f.1 = some f.2) : F.Tabulates t fs where
  fields name := by
    rw [hnames]
    constructor
    · intro hname
      obtain ⟨x, hx, rfl⟩ := List.mem_map.mp hname
      obtain ⟨y, hy, hyname, hkind, -⟩ := (h.fields x hx).exists_symbol?
      exact ⟨y, (ScopeForest.mem_symbols_of_symbol? hy).1, hkind, hyname⟩
    · rintro ⟨y, hy, hkind, rfl⟩
      have hshows := ScopeForest.shows_of_symbol? (hF.symbol?_eq hy)
      rcases h.only hshows with hmethod | ⟨-, hfield⟩
      · rw [hkind] at hmethod
        cases hmethod
      · exact List.mem_map_of_mem hfield
  types y hy hkind ty := by
    have hfind := hF.symbol?_eq hy
    have htype : F.typeOf? t y.name = y.ty? := by rw [ScopeForest.typeOf?, hfind, Option.bind_some]
    constructor
    · intro hmem
      exact htype.symm.trans (htypes _ hmem)
    · intro hty
      have hmem : y.name ∈ fs.map Prod.fst := by
        rw [hnames]
        rcases h.only (ScopeForest.shows_of_symbol? hfind) with hmethod | ⟨-, hfield⟩
        · rw [hkind] at hmethod
          cases hmethod
        · exact List.mem_map_of_mem hfield
      obtain ⟨f, hf, hname⟩ := List.mem_map.mp hmem
      have hft := htypes f hf
      rw [hname, htype, hty] at hft
      rw [← hname, Option.some.inj hft]
      exact hf

namespace Context

variable {ctx : Context} {m : Module}

/-- The signatures of a consistent module are what the tables have for its parameters. -/
theorem Consistent.signs (h : ctx.Consistent m) (hest : ctx.Established m) {hd : Head}
    {ys : List Step} (hocc : (Step.body hd ys).Occurs m.program.steps) (hnone : hd.receiver? = none) :
    hd.Signs ctx.scopes m := by
  obtain ⟨v, hv, hat⟩ := hest.spells.exists_of_occurs hest.entered hocc
  cases hat with
  | @head s _ inner? =>
    obtain ⟨t, rfl, hbound⟩ := hest.bound _ hv
    have hbound := hbound hnone
    refine ⟨s, t, hv, hbound.name, fun p hp => ?_, fun hderives => h _ hv t rfl hnone hderives⟩
    exact hbound.arguments _ (Head.mem_argumentNames hp)

/-- The struct types that a consistent module declares are what the tables have for their fields. -/
theorem Consistent.tabulates (h : ctx.Consistent m) (hest : ctx.Established m)
    (hF : ctx.scopes.Unambiguous) {d : TypeDecl}
    (hocc : (Step.stop (.typeDecl d)).Occurs m.program.steps)
    (hstruct : ∃ fields span, d.ty = .struct fields span) : d.Tabulates ctx.scopes m := by
  obtain ⟨v, hv, hat⟩ := hest.spells.exists_of_occurs hest.entered hocc
  cases hat with
  | @stop s =>
    obtain ⟨t, hbound⟩ := hest.bound _ hv
    refine ⟨s, t, hv, hbound.name, fun hok => ?_⟩
    obtain ⟨fs, hname, hnames, htypes⟩ := h _ hv t hbound.name.declaredMembers? hstruct hok
    exact ⟨fs, hname, hbound.tabulates hF hnames htypes⟩

end Context

namespace Compilation

open Context

variable {l : Loader} {needed : Path → Prop} {roots : String → Prop}

/-- Between checks, modules are coherent. -/
theorem keeps_coheres (hclosed : l.Closed needed) :
    Recorder.plain.Keeps l needed roots fun c => (c.context.Linked ∧ c.context.Bare) ∧
      c.context.scopes.Owned ∧ c.context.Anchored ∧ c.context.Coheres where
  put h hd himports := by
    obtain ⟨hbare, howned, hanchored, hcoheres⟩ := h
    refine ⟨(keeps_bare hclosed : Recorder.plain.Keeps l needed roots _).put hbare hd himports, ?_,
      hanchored.later hd.onward himports, hcoheres.enrols hbare.1 hanchored hd himports⟩
    exact howned.of_same hd.onward.scopes.size_le fun s =>
      congrArg (List.map Symbol.untyped) (hd.symbols s)
  collect {key c} h hready := by
    obtain ⟨hbare, howned, hanchored, hcoheres⟩ := h
    obtain ⟨hcollecting, hadvances, -⟩ := collect_spec hclosed hready
    obtain ⟨hseals, hnew⟩ := collect_establishes hclosed hbare.2 howned hready
    refine ⟨(keeps_bare hclosed).collect hbare hready, follows_owned.collect c key howned,
      hcollecting.inStep.anchored, hcoheres.established_later hbare.1 hseals hnew,
      hcoheres.consistent_later hbare.1 hanchored hseals (fun s name ty hty => ?_) fun k hk => ?_⟩
    · exact (hadvances.types s name).trans hty
    · rcases hadvances.phases k with hsame | hle
      · exact hsame ▸ hk
      · exact absurd (hk.trans hle) (by decide)
  resolve {key c} h hl hle := by
    obtain ⟨hbare, howned, hanchored, hcoheres⟩ := h
    have hkept := (keeps_bare hclosed : Recorder.plain.Keeps l needed roots _).resolve hbare hl hle
    rcases Recorder.plain.andThen_cases resolution .resolving key c with he | ⟨d, rfl, he⟩
    · rw [he]
      exact ⟨hbare, howned, hanchored, hcoheres⟩
    · rw [he] at hkept ⊢
      obtain ⟨M, hM, -⟩ := exists_resolves hl hle
      have hleads := hM.leads hM.start_mem
      refine ⟨hkept, howned.of_same hleads.scopes.size_le ?_,
        hanchored.later (hleads.toPasses.toExtends hl) hleads.scopes.imports,
        hcoheres.resolve hl hanchored hle⟩
      exact ScopeForest.declarations_of_untyped hleads.untyped
  typecheck {key c} h hl hle := by
    obtain ⟨hbare, howned, hanchored, hcoheres⟩ := h
    have hkept := (keeps_bare hclosed : Recorder.plain.Keeps l needed roots _).typecheck hbare hl hle
    rcases Recorder.plain.andThen_cases typing .typechecking key c with he | ⟨d, rfl, he⟩
    · rw [he]
      exact ⟨hbare, howned, hanchored, hcoheres⟩
    · rw [he] at hkept ⊢
      obtain ⟨W, hW, -⟩ := exists_history filling_checker (fun _ => rfl) rfl (by decide) hl hle
      have hleads := (checks_of_history hW).leads
      refine ⟨hkept, howned.of_same hleads.scopes.size_le ?_,
        hanchored.later (hleads.toPasses.toExtends hl) hleads.scopes.imports,
        hcoheres.check hl hanchored hle⟩
      exact ScopeForest.declarations_of_untyped hleads.untyped

/-- Behind any checks, modules are coherent. -/
theorem coheres_checkAll (l : Loader) (entries : List Path) :
    (checkAll entries (new l)).context.Linked ∧ (checkAll entries (new l)).context.Coheres := by
  have hclosed : l.Closed fun _ => True := fun _ _ _ _ => trivial
  have hnew := settled_new l (fun _ => True) fun _ => True
  have hnone : ∀ m, ¬ (new l).context.Knows m := by
    intro m hm
    obtain ⟨m', hm', -⟩ := hm.exists_mem
    cases hm'
  obtain ⟨hbare, -, -, hcoheres⟩ := Recorder.checkAll_plain entries (new l) ▸
    (keeps_coheres hclosed).checkAll (c := new l) ⟨⟨hnew.linked, nofun⟩, owned_initial,
      hnew.inStep.anchored, ⟨fun m hm => absurd hm (hnone m), fun m hm => absurd hm (hnone m)⟩⟩ hnew
      hclosed (fun _ => trivial) (fun _ => trivial) entries
  exact ⟨hbare.1, hcoheres⟩

/--
After any checks, in each module that has been resolved, if collection has reported nothing in its
file and none of its methods stands inside a function: a function, declared or literal, whose written
types mean something has a function type with the types that its parameters have in its body; and a
struct type that is declared and means something has a table of just the fields among its members,
with the types that these have.
-/
theorem checkAll_signatures (l : Loader) (entries : List Path) {m : Module}
    (hm : m ∈ (checkAll entries (new l)).context.modules) (hphase : Phase.resolved ≤ m.phase)
    (hplain : (checkAll entries (new l)).context.Plain m) :
    (∀ h ys, (Step.body h ys).Occurs m.program.steps → h.receiver? = none →
      h.Signs (checkAll entries (new l)).context.scopes m) ∧
    ∀ d fields span, (Step.stop (.typeDecl d)).Occurs m.program.steps → d.ty = .struct fields span →
      d.Tabulates (checkAll entries (new l)).context.scopes m := by
  obtain ⟨hl, hcoheres⟩ := coheres_checkAll l entries
  have hmod := hl.module?_of_mem hm
  have hknows := knows_of_module? hmod
  rw [← phase_of_module? hmod] at hphase
  have hconsistent := hcoheres.consistent m hknows hphase hplain
  have hestablished := hcoheres.established m hknows (le_trans (by decide) hphase) hplain
  refine ⟨fun h ys hocc hnone => hconsistent.signs hestablished hocc hnone, ?_⟩
  intro d fields span hocc hty
  exact hconsistent.tabulates hestablished (unambiguous_checkAll l entries) hocc ⟨fields, span, hty⟩

/-- The file `a.sbl`, which declares a struct type and a function on it. -/
def scaling : Loader := .new (.ofRoot ⟨""⟩) (.memory [(⟨"a.sbl"⟩,
  "type P struct { .x: i8 }\nfn scale(p: P, by: i8) -> P {}")])

/-- The check of the file leads its module through all passes, and nothing is reported. -/
theorem exists_signatures_scaling :
    ∃ m ∈ (checkAll [⟨"a.sbl"⟩] (new scaling)).context.modules, Phase.resolved ≤ m.phase ∧
      (checkAll [⟨"a.sbl"⟩] (new scaling)).context.Plain m ∧
      (∀ h ys, (Step.body h ys).Occurs m.program.steps → h.receiver? = none →
        h.Signs (checkAll [⟨"a.sbl"⟩] (new scaling)).context.scopes m) ∧
      ∀ d fields span, (Step.stop (.typeDecl d)).Occurs m.program.steps →
        d.ty = .struct fields span →
          d.Tabulates (checkAll [⟨"a.sbl"⟩] (new scaling)).context.scopes m := by
  obtain ⟨m, hm, hphase, hplain⟩ : ∃ m ∈ (checkAll [⟨"a.sbl"⟩] (new scaling)).context.modules,
      Phase.resolved ≤ m.phase ∧ (checkAll [⟨"a.sbl"⟩] (new scaling)).context.Plain m := by
    decide +kernel
  exact ⟨m, hm, hphase, hplain, checkAll_signatures scaling _ hm hphase hplain⟩

end Compilation

end Sable
