import Sable.Proofs.Compilation.Declared
import Sable.Proofs.Compilation.Editing
import Sable.Proofs.Compilation.Operations
import Sable.Proofs.Module.Kinds
import Sable.Proofs.Module.History
import Sable.Proofs.Scope.Binding

/-!
# Trees and the programs behind them

A context may come about in many ways: passes may have stopped half-way, been called out of turn,
or not at all. Whatever has been done, a name in the tree of a registered module is one that the
program of the module declares, of the kind that it is declared with. For a walk of collection
declares names only in the tree of the module that it walks, and no two modules share a tree.
-/

namespace Sable

namespace Context

variable {ctx d e : Context} {m : Module} {s : ScopeId}

/-- A scope lies in the tree of a registered module. -/
def Inside (ctx : Context) (m : Module) (s : ScopeId) : Prop :=
  m.blank ∈ ctx.modules.map Module.blank ∧ m.root ∈ ctx.scopes.chain s

/-- The trees of modules hold nothing but names that the programs of the modules declare. -/
structure Populated (ctx : Context) : Prop where
  /-- The scopes form a forest below the builtin types. -/
  scopes : ctx.scopes.Sound
  /-- A module has its root right below the builtin types. -/
  root : ∀ m ∈ ctx.modules, ctx.scopes.parent? m.root = some 0
  /-- A module has its root for itself. -/
  roots_nodup : (ctx.modules.map Module.root).Nodup
  /-- A registered program has been parsed. -/
  parsed : ∀ m ∈ ctx.modules, ∃ text n, parse text n = .ok m.program
  /-- A name in the tree of a module is declared by its program, and has the kind it has there. -/
  declared : ∀ m ∈ ctx.modules, ∀ s, m.root ∈ ctx.scopes.chain s → ∀ x ∈ ctx.scopes.declarations s,
    (x.kind, ⟨x.name, x.span⟩) ∈ m.program.kinds

/-- Modules stay registered, and scopes stay in their trees. -/
structure Continues (ctx d : Context) : Prop where
  /-- No module is forgotten. -/
  modules : ctx.modules.map Module.blank ⊆ d.modules.map Module.blank
  /-- No scope is moved. -/
  chains : ∀ {r s}, r ∈ ctx.scopes.chain s → r ∈ d.scopes.chain s

theorem Continues.refl (ctx : Context) : ctx.Continues ctx := ⟨List.Subset.refl _, id⟩

theorem Continues.trans (h : ctx.Continues d) (h' : d.Continues e) : ctx.Continues e :=
  ⟨List.Subset.trans h.modules h'.modules, h'.chains ∘ h.chains⟩

namespace Inside

theorem later (h : ctx.Inside m s) (hd : ctx.Continues d) : d.Inside m s :=
  ⟨hd.modules h.1, hd.chains h.2⟩

/-- The module of the tree, as it is registered. -/
theorem exists_mem (h : ctx.Inside m s) :
    ∃ m' ∈ ctx.modules, m'.root = m.root ∧ m'.program = m.program := by
  obtain ⟨m', hm', hblank⟩ := List.mem_map.mp h.1
  have hroot := congrArg Module.root hblank
  have hprogram := congrArg Module.program hblank
  exact ⟨m', hm', hroot, hprogram⟩

theorem root (h : ctx.Inside m s) (hctx : ctx.Populated) : ctx.scopes.parent? m.root = some 0 := by
  obtain ⟨m', hm', hroot, -⟩ := h.exists_mem
  exact hroot ▸ hctx.root m' hm'

theorem parsed (h : ctx.Inside m s) (hctx : ctx.Populated) :
    ∃ text n, parse text n = .ok m.program := by
  obtain ⟨m', hm', -, hprogram⟩ := h.exists_mem
  exact hprogram ▸ hctx.parsed m' hm'

/-- The receiver of a method in a module names no builtin type. -/
theorem namesNoBuiltin (h : ctx.Inside m s) (hctx : ctx.Populated) {hd : Head} {ys : List Step}
    (hocc : (Step.body hd ys).Occurs m.program.steps) {receiver : Param}
    (hr : receiver ∈ hd.receiver?) : receiver.ty.NamesNoBuiltin := by
  obtain ⟨text, n, hparse⟩ := h.parsed hctx
  refine parsed_of_parse hparse (.receiver receiver) ?_
  rw [← m.program.placesAll_steps]
  exact hocc.places_subset (by simp [Step.places, Option.mem_def.mp hr])

/-- A name in the tree of a module is declared by the program of the module. -/
theorem declared (h : ctx.Inside m s) (hctx : ctx.Populated) {x : Symbol}
    (hx : x ∈ ctx.scopes.declarations s) : (x.kind, ⟨x.name, x.span⟩) ∈ m.program.kinds := by
  obtain ⟨m', hm', hroot, hprogram⟩ := h.exists_mem
  exact hprogram ▸ hctx.declared m' hm' s (hroot ▸ h.2) x hx

end Inside

/-! ### Changes that declare nothing -/

namespace Populated

/-- Scopes may be opened and names be given types, and modules moved to other phases. -/
theorem grow (h : ctx.Populated) (hF : ctx.scopes.Precedes d.scopes) (hsound : d.scopes.Sound)
    (hsame : ∀ s, d.scopes.declarations s = ctx.scopes.declarations s)
    (hmodules : d.modules.map Module.blank = ctx.modules.map Module.blank) : d.Populated := by
  have hblank : ∀ m ∈ d.modules, ∃ m' ∈ ctx.modules, m'.root = m.root ∧ m'.program = m.program :=
    fun m hm => by
      obtain ⟨m', hm', heq⟩ := List.mem_map.mp (hmodules ▸ List.mem_map_of_mem hm)
      have hroot := congrArg Module.root heq
      have hprogram := congrArg Module.program heq
      exact ⟨m', hm', hroot, hprogram⟩
  refine ⟨hsound, fun m hm => ?_, ?_, fun m hm => ?_, fun m hm s hs x hx => ?_⟩
  · obtain ⟨m', hm', hroot, -⟩ := hblank m hm
    have hparent := h.root m' hm'
    rw [← hroot, hF.parent _ (ScopeForest.lt_size_of_parent? hparent), hparent]
  · have hroots := congrArg (List.map Module.root) hmodules
    rw [List.map_map, List.map_map] at hroots
    exact hroots ▸ h.roots_nodup
  · obtain ⟨m', hm', -, hprogram⟩ := hblank m hm
    exact hprogram ▸ h.parsed m' hm'
  · obtain ⟨m', hm', hroot, hprogram⟩ := hblank m hm
    rw [hsame] at hx
    have hlt := ScopeForest.lt_size_of_mem_declarations hx
    rw [ScopeForest.chain_eq_of_parent h.scopes hsound hF.size_le hF.parent hlt, ← hroot] at hs
    exact hprogram ▸ h.declared m' hm' s hs x hx

/-- Names may be given types. -/
theorem types (h : ctx.Populated) (hd : ctx.Types d) : d.Populated :=
  h.grow hd.scopes.toPrecedes (hd.scopes.sound h.scopes)
    (ScopeForest.declarations_of_untyped hd.untyped) (congrArg _ hd.modules)

/-- A module may be moved to a phase. -/
theorem setPhase (h : ctx.Populated) (key : String) (target : Phase) :
    (ctx.setPhase key target).Populated := by
  have hscopes := scopes_setPhase ctx key target
  refine h.grow ?_ ?_ (fun s => congrArg (ScopeForest.declarations · s) hscopes) (blank_setPhase ..)
  · exact hscopes ▸ .refl _
  · exact hscopes ▸ h.scopes

/-- A program that has been parsed may be registered. -/
theorem addModule (h : ctx.Populated) (key : String) (file : Path) {text : String} {n : Nat}
    {program : Program} (hparse : parse text n = .ok program) :
    (ctx.addModule key file program).2.Populated := by
  cases hfree : ctx.hasModule key with
  | true =>
    rw [Context.addModule, if_pos hfree]
    exact h
  | false =>
    have hopen := ScopeForest.grows_openScope ctx.scopes h.scopes.base .global
    have hsame : ∀ s, (ctx.scopes.openScope (some builtins) .global).2.declarations s =
        ctx.scopes.declarations s := fun s => congrArg _ (ScopeForest.symbols_openScope ..)
    have hgrown : ({ ctx with
        scopes := (ctx.scopes.openScope (some builtins) .global).2 } : Context).Populated :=
      h.grow hopen.toPrecedes (hopen.sound h.scopes) hsame rfl
    rw [addModule_eq hfree]
    refine ⟨hgrown.scopes, ?_, ?_, ?_, ?_⟩
    · refine List.forall_mem_append.mpr ⟨hgrown.root, List.forall_mem_singleton.mpr ?_⟩
      rw [ScopeForest.parent?_openScope, if_pos rfl]
      rfl
    · rw [List.map_append, List.nodup_append']
      refine ⟨h.roots_nodup, List.nodup_singleton _, List.disjoint_singleton.mpr fun hin => ?_⟩
      obtain ⟨m, hm, hroot⟩ := List.mem_map.mp hin
      exact (ScopeForest.lt_size_of_parent? (h.root m hm)).ne hroot
    · exact List.forall_mem_append.mpr
        ⟨hgrown.parsed, List.forall_mem_singleton.mpr ⟨text, n, hparse⟩⟩
    · refine List.forall_mem_append.mpr ⟨hgrown.declared, List.forall_mem_singleton.mpr ?_⟩
      -- The scopes of the new tree were not open before, so none of them declares anything.
      intro s hs x hx
      have hlt : s < ctx.scopes.size := ScopeForest.lt_size_of_mem_declarations (hsame s ▸ hx)
      exact absurd (ScopeForest.le_of_mem_chain hgrown.scopes hs) hlt.not_ge

/-- A module may be forgotten. -/
theorem eraseModule (h : ctx.Populated) (key : String) : (ctx.eraseModule key).Populated where
  scopes := h.scopes
  root m hm := h.root m (List.mem_of_mem_filter hm)
  roots_nodup := h.roots_nodup.sublist (List.filter_sublist.map _)
  parsed m hm := h.parsed m (List.mem_of_mem_filter hm)
  declared m hm := h.declared m (List.mem_of_mem_filter hm)

/-- Entering a module reports at most; its outermost scope lies in its tree. -/
theorem enter (h : ctx.Populated) (key : String) (target : Phase) (pass : Pass)
    (activity : String) :
    (ctx.enter key target pass activity).2.Populated ∧
      ctx.Continues (ctx.enter key target pass activity).2 ∧
      ∀ m ∈ (ctx.enter key target pass activity).1,
        (ctx.enter key target pass activity).2.Inside m m.root := by
  cases henter : ctx.enter key target pass activity with
  | mk m? d =>
    cases m? with
    | some m =>
      obtain ⟨hm, -, rfl⟩ := enter_eq_some henter
      have hmem := (mem_of_module? hm).1
      refine ⟨h, .refl _, ?_⟩
      rintro m' ⟨rfl⟩
      exact ⟨List.mem_map_of_mem hmem,
        ScopeForest.mem_chain_self (ScopeForest.lt_size_of_parent? (h.root m hmem))⟩
    | none =>
      rcases enter_eq_none henter with ⟨rfl, -⟩ | ⟨rfl, -⟩
      · exact ⟨h, .refl _, nofun⟩
      · exact ⟨h.grow (.refl _) h.scopes (fun _ => rfl) rfl, ⟨List.Subset.refl _, id⟩, nofun⟩

/-! ### Declared names -/

/-- A name that its program declares may be declared in the tree of a module. -/
theorem declare (h : ctx.Populated) (hs : ctx.Inside m s) {kind : SymbolKind} {name : Ident}
    (hkind : (kind, name) ∈ m.program.kinds) {members? : Option ScopeId} {F : ScopeForest}
    (hF : ctx.scopes.declare s name kind none = .ok (members?, F)) :
    ({ ctx with scopes := F } : Context).Populated ∧
      ctx.Continues { ctx with scopes := F } ∧
      ∀ t ∈ members?, ({ ctx with scopes := F } : Context).Inside m t := by
  have hroot := hs.root h
  have hlt := ScopeForest.lt_size_of_mem_chain hs.2
  obtain ⟨hgrows, hmembers⟩ := ScopeForest.grows_declare hlt
    (fun hzero => absurd hzero (ScopeForest.ne_zero_of_mem_chain h.scopes hroot hs.2)) hF
  have hsound := hgrows.sound h.scopes
  have hcontinues : ctx.Continues { ctx with scopes := F } :=
    ⟨List.Subset.refl _, hgrows.mem_chain h.scopes⟩
  refine ⟨⟨hsound, fun m' hm' => ?_, h.roots_nodup, h.parsed, fun m' hm' t ht x hx => ?_⟩,
    hcontinues, fun t ht => ?_⟩
  · rw [hgrows.parent _ (ScopeForest.lt_size_of_parent? (h.root m' hm')), h.root m' hm']
  · rw [ScopeForest.declarations_declare hlt hF, List.mem_append] at hx
    rcases hx with hx | hx
    · rw [hgrows.chain_eq h.scopes (ScopeForest.lt_size_of_mem_declarations hx)] at ht
      exact h.declared m' hm' t ht x hx
    · split at hx
      · next hts =>
        -- The tree that the name is declared in is the tree of one module only.
        subst hts
        obtain rfl := List.mem_singleton.mp hx
        obtain ⟨m₀, hm₀, hroot₀, hprogram⟩ := hs.exists_mem
        rw [hgrows.chain_eq h.scopes hlt] at ht
        have hsame := ScopeForest.root_unique h.scopes (h.root m' hm') hroot ht hs.2
        obtain rfl := List.inj_on_of_nodup_map h.roots_nodup hm' hm₀ (hsame.trans hroot₀.symm)
        exact hprogram ▸ hkind
      · cases hx
  · exact ⟨hs.1, ScopeForest.mem_chain_of_parent? hsound (hcontinues.chains hs.2) (hmembers t ht)⟩

end Populated

end Context

namespace Compilation

open Context

variable {c d e : Compilation} {m : Module} {s : ScopeId}

/-- A context that is populated stays so, with its modules and their trees. -/
def Evolves (c d : Compilation) : Prop :=
  c.context.Populated → d.context.Populated ∧ c.context.Continues d.context

theorem Evolves.refl (c : Compilation) : Evolves c c := fun h => ⟨h, .refl _⟩

theorem Evolves.trans (h : Evolves c d) (h' : Evolves d e) : Evolves c e := fun hc =>
  ⟨(h' (h hc).1).1, (h hc).2.trans (h' (h hc).1).2⟩

/-! ### What declares nothing -/

theorem evolves_grow {ctx : Context} (l : Loader) (hF : c.context.scopes.Precedes ctx.scopes)
    (hsound : c.context.scopes.Sound → ctx.scopes.Sound)
    (hsame : ∀ s, ctx.scopes.declarations s = c.context.scopes.declarations s)
    (hmodules : ctx.modules.map Module.blank = c.context.modules.map Module.blank) :
    Evolves c ⟨ctx, l⟩ := fun h => by
  refine ⟨h.grow hF (hsound h.scopes) hsame hmodules, hmodules ▸ List.Subset.refl _,
    fun {r s} hr => ?_⟩
  rwa [ScopeForest.chain_eq_of_parent h.scopes (hsound h.scopes) hF.size_le hF.parent
    (ScopeForest.lt_size_of_mem_chain hr)]

/-- Scopes and modules are all that counts. -/
theorem evolves_of_same {ctx : Context} (l : Loader) (hscopes : ctx.scopes = c.context.scopes)
    (hmodules : ctx.modules.map Module.blank = c.context.modules.map Module.blank) :
    Evolves c ⟨ctx, l⟩ :=
  evolves_grow l (hscopes ▸ .refl _) (hscopes ▸ id) (fun _ => hscopes ▸ rfl) hmodules

theorem evolves_addModule (c : Compilation) (l : Loader) (key : String) (file : Path)
    {text : String} {n : Nat} {program : Program} (hparse : parse text n = .ok program) :
    Evolves c ⟨(c.context.addModule key file program).2, l⟩ := fun h => by
  refine ⟨h.addModule key file hparse, ?_⟩
  cases hfree : c.context.hasModule key with
  | true =>
    rw [Context.addModule, if_pos hfree]
    exact .refl _
  | false =>
    rw [addModule_eq hfree]
    refine ⟨?_, (ScopeForest.grows_openScope _ h.scopes.base .global).mem_chain h.scopes⟩
    rw [List.map_append]
    exact List.subset_append_left ..

/-- A file that is read and parsed is a program that has been parsed. -/
theorem parsed_of_load {l l' : Loader} {file : Path} {program : Program}
    (h : l.load file = (.ok program, l')) : ∃ text n, parse text n = .ok program := by
  unfold Loader.load at h
  split at h
  · exact nomatch (Prod.mk.inj h).1
  · next text _ =>
    have hresult := (Prod.mk.inj h).1
    cases hparse : parse text l.files.length with
    | error e =>
      rw [hparse] at hresult
      cases hresult
    | ok program' =>
      rw [hparse] at hresult
      obtain rfl := Except.ok.inj hresult
      exact ⟨text, _, hparse⟩

/-- What an import does leaves a populated context so. -/
theorem links_evolves : Links Evolves where
  refl := .refl
  trans := .trans
  report c _ _ := evolves_of_same c.loader rfl rfl
  regraph c _ := evolves_of_same c.loader rfl rfl
  register c key file := by
    unfold register
    split
    · exact .refl c
    · split
      · next hload =>
        obtain ⟨text, n, hparse⟩ := parsed_of_load hload
        exact evolves_addModule c _ key file hparse
      · exact evolves_of_same _ rfl rfl
  bind {c s b F} hF := evolves_grow c.loader (ScopeForest.precedes_addImport hF)
    (fun hsound => ScopeForest.sound_addImport hsound hF)
    (fun t => congrArg _ (ScopeForest.symbols_addImport hF t)) rfl

/-! ### What a walk declares -/

/-- What comes of opening a scope in the tree of a module. -/
def Plants (c : Compilation) (m : Module) (r : Option ScopeId × Compilation) : Prop :=
  r.2.context.Populated ∧ c.context.Continues r.2.context ∧ ∀ t ∈ r.1, r.2.context.Inside m t

/-- What is only reported opens no scope. -/
theorem plants_reportIn (hc : c.context.Populated) (m : Module) (span : Span) (message : String) :
    c.Plants m (none, c.reportIn m span message) :=
  have hreport := links_evolves.reportIn c m span message hc
  ⟨hreport.1, hreport.2, nofun⟩

section

variable (hc : c.context.Populated) (hs : c.context.Inside m s)
include hc hs

theorem plants_declare {kind : SymbolKind} {name : Ident}
    (hkind : (kind, name) ∈ m.program.kinds) : c.Plants m (c.declare m s kind name) := by
  unfold declare
  split
  · exact plants_reportIn hc ..
  · split
    · next hF => exact hc.declare hs hkind hF
    · exact plants_reportIn hc ..

theorem declareAll_populated {kind : SymbolKind} {names : List Ident}
    (hkinds : names.map (kind, ·) ⊆ m.program.kinds) :
    (c.declareAll m s kind names).context.Populated ∧
      c.context.Continues (c.declareAll m s kind names).context := by
  induction names generalizing c with
  | nil => exact ⟨hc, .refl _⟩
  | cons name names ih =>
    rw [List.map_cons, List.cons_subset] at hkinds
    obtain ⟨hfirst, hcontinues, -⟩ := plants_declare hc hs hkinds.1
    obtain ⟨hall, hcontinues'⟩ := ih hfirst (hs.later hcontinues) hkinds.2
    exact ⟨hall, hcontinues.trans hcontinues'⟩

end

theorem plants_declareWith (hc : c.context.Populated) {x : Declaration}
    (hs : c.context.Inside m x.scope) {kind : SymbolKind} {names : List Ident}
    (hkinds : (x.kind, x.name) :: names.map (kind, ·) ⊆ m.program.kinds) :
    c.Plants m (declareWith m x kind names c) := by
  rw [List.cons_subset] at hkinds
  have hfirst := plants_declare hc hs hkinds.1
  unfold declareWith
  generalize c.declare m x.scope x.kind x.name = r at hfirst
  obtain ⟨_ | members, d⟩ := r
  · exact hfirst
  · obtain ⟨hd, hcontinues, hmembers⟩ := hfirst
    have hinside := hmembers members rfl
    obtain ⟨hall, hcontinues'⟩ := declareAll_populated hd hinside hkinds.2
    refine ⟨hall, hcontinues.trans hcontinues', ?_⟩
    rintro t ⟨rfl⟩
    exact hinside.later hcontinues'

section

variable (hc : c.context.Populated) (hs : c.context.Inside m s)
include hc hs

/-- A place that stays in its scope leaves a populated context so. -/
theorem stop_populated {x : Stop} (hocc : (Step.stop x).Occurs m.program.steps) :
    ((collector m).stop s x c).context.Populated ∧
      c.context.Continues ((collector m).stop s x c).context := by
  have hkinds : x.kinds ⊆ m.program.kinds := hocc.kinds_subset
  cases x with
  | typeDecl d =>
    rw [show (collector m).stop s (.typeDecl d) c = _ from collectTypeDecl_eq m s d c]
    obtain ⟨hd, hcontinues, -⟩ := plants_declareWith (x := ⟨s, .type, d.name⟩) hc hs hkinds
    exact ⟨hd, hcontinues⟩
  | declaring isConst targets values span =>
    refine declareAll_populated hc hs ?_
    rw [List.map_map]
    exact hkinds
  | _ => exact ⟨hc, .refl _⟩

/-- So does the head of a function or a method, whose body lies in the tree then. -/
theorem plants_head {hd : Head} {ys : List Step} (hocc : (Step.body hd ys).Occurs m.program.steps) :
    c.Plants m ((collector m).head s hd c) := by
  have hkinds : hd.kinds ⊆ m.program.kinds :=
    List.Subset.trans (List.subset_append_left ..) hocc.kinds_subset
  obtain ⟨_ | receiver, name, params, ret⟩ := hd
  · exact plants_declareWith (x := ⟨s, .func, name⟩) hc hs hkinds
  · change c.Plants m (collectMethod m s receiver name params c)
    cases hreceiver : receiverMembers c.context.scopes s receiver with
    | error x =>
      rw [collectMethod_error hreceiver]
      exact plants_reportIn hc ..
    | ok members =>
      rw [collectMethod_eq hreceiver]
      have hmembers := receiverMembers_mem_chain hc.scopes (hs.root hc) hs.2
        (hs.namesNoBuiltin hc hocc rfl) hreceiver
      exact plants_declareWith (x := ⟨members, .method, name⟩) hc ⟨hs.1, hmembers⟩ hkinds

end

/-! ### Whole passes -/

/-- Collection walks every module in its own tree, and leaves a populated context so. -/
theorem tends_collection : collection.Tends (fun c => c.context.Populated)
    (fun m s c => c.context.Inside m s) fun c d => c.context.Continues d.context where
  refl _ := .refl _
  trans := .trans
  later hcd hs := hs.later hcd
  enter key _ hc := hc.enter key .collected .collecting "symbol collection"
  importing {m s c} i hc _ := links_evolves.collectImport c m s i hc
  stop hc hs hocc := stop_populated hc hs hocc
  head hc hs hocc := plants_head hc hs hocc
  leave _ c hc := evolves_of_same c.loader (scopes_setPhase ..) (blank_setPhase ..) hc
  giveUp _ _ hc := ⟨hc, .refl _⟩

/-- So do all stages of a check. -/
theorem stages_evolves : Stages Evolves where
  toLinks := links_evolves
  collect key _ hc := tends_collection.runWithin _ key hc
  types c _ hd := evolves_grow c.loader hd.scopes.toPrecedes hd.scopes.sound
    (ScopeForest.declarations_of_untyped hd.untyped) (congrArg _ hd.modules)
  problem c _ _ := evolves_of_same c.loader rfl rfl
  advance c _ _ := evolves_of_same c.loader (scopes_setPhase ..) (blank_setPhase ..)

/-! ### Whatever may come about -/

/-- A program that is registered by hand has been parsed. -/
def Operation.Parsed : Operation → Prop
  | .add _ _ program => ∃ text n, parse text n = .ok program
  | _ => True

/--
A compilation that comes about by operations in some order, among which modules may be forgotten.
-/
inductive Reachable (l : Loader) : Compilation → Prop
  /-- Nothing has been done. -/
  | new : Reachable l (new l)
  /-- One more operation is done. -/
  | perform {c : Compilation} {op : Operation} :
    Reachable l c → op.Parsed → Reachable l (c.perform op)
  /-- A module is forgotten. -/
  | forget {c : Compilation} (key : String) :
    Reachable l c → Reachable l (c.update fun ctx => ctx.eraseModule key)

theorem evolves_perform {op : Operation} (hop : op.Parsed) (c : Compilation) :
    Evolves c (c.perform op) := by
  cases op with
  | load key file =>
    dsimp only [perform]
    split
    · next hload =>
      obtain ⟨text, n, hparse⟩ := parsed_of_load hload
      exact evolves_addModule c _ key file hparse
    · exact evolves_of_same _ rfl rfl
  | add key file program =>
    obtain ⟨text, n, hparse⟩ := hop
    exact evolves_addModule c c.loader key file hparse
  | collect key => exact stages_evolves.collect key c
  | resolve key =>
    exact (stages_evolves.traversal c.loader .resolved .resolving "resolution" filling_resolver
      fun _ => rfl).runWithin _ key c.context
  | typecheck key =>
    exact (stages_evolves.traversal c.loader .typechecked .typechecking "type checking"
      filling_checker fun _ => rfl).runWithin _ key c.context
  | setPhase key target => exact evolves_of_same c.loader (scopes_setPhase ..) (blank_setPhase ..)
  | check entry =>
    exact stages_evolves.check c (fun c _ => evolves_of_same c.loader rfl rfl) entry

/-- Whatever has been done, the trees of modules hold what the programs of the modules declare. -/
theorem Reachable.populated {l : Loader} (h : Reachable l c) : c.context.Populated := by
  induction h with
  | new => exact ⟨sound_initial, nofun, List.nodup_nil, nofun, nofun⟩
  | perform _ hop ih => exact (evolves_perform hop _ ih).1
  | forget key _ ih => exact ih.eraseModule key

end Compilation

end Sable
