import Sable.Proofs.Compilation.Foreword
import Sable.Proofs.Compilation.Stated

/-!
# Chronicles of modules

What the passes have made of a module depends on its text and on what was read of the modules that
it imports. The chronicle of a module says so: it names the states in which its preface had been
followed, and in which the passes set out to walk its body. What was read of imported modules then
is what is read of them still, and nothing else has been done to the module since. Whatever is done
to other modules leaves a chronicle true.
-/

namespace Sable.Context

variable (l : Loader)

/-! ### What is told of a module -/

/-- A module whose first imports have been followed, and nothing has been walked behind them. -/
structure Prefaced (m : Module) (is : List Import) (ctx : Context) : Prop where
  /-- What is bound and what is reported comes from these imports. -/
  foreword : ((ctx.scopes.imports m.root).map ImportBinding.unrooted,
    ctx.reportsIn m.file.text) = l.foreword m.file is
  /-- No name is declared. -/
  symbols : ctx.scopes.symbols m.root = []
  /-- No scope is opened. -/
  alone : ∀ {s}, ctx.Sees m s → s < initial.scopes.size ∨ s = m.root
  /-- The imports lead to modules. -/
  located : ∀ i ∈ is, ∃ key, l.Leads m.file i key ∧ ctx.hasModule key = true

/-- What a walk over a module has come to is what there is of the module in a context. -/
structure Remains (m : Module) (x y ctx : Context) : Prop where
  /-- In front of the walk, modules were kept apart. -/
  proper : x.Proper
  /-- The module was known. -/
  knows : x.Knows m
  /-- The walk has been over this module. -/
  works : x.Works m y
  /-- What has been done since concerns other modules. -/
  bypasses : y.Bypasses m ctx

/-- The body of a module has been collected behind its preface. -/
def Collected (m : Module) (ctx : Context) : Prop :=
  ∃ (phase : Phase) (x : Compilation), Prefaced l m m.program.preface x.context ∧
    Remains m x.context ((Compilation.collector { m with phase := phase }).walkBody m x).context ctx

/-- A pass behind the first one has walked the body of a module, and has read what is read still. -/
def Advanced (v : Module → Visitor Context) (target : Phase) (before : Context → Prop) (m : Module)
    (ctx : Context) : Prop :=
  ∃ (phase : Phase) (x : Context), before x ∧
    Remains m x ((v { m with phase := phase }).walkBody m x) ctx ∧
    x.Types ((v { m with phase := phase }).walkBody m x) ∧
    ∀ b ∈ x.scopes.imports m.root, target ≤ ctx.phase b.key ∧
      x.scopes.ReadsAs target.Settles b.root ctx.scopes b.root

/-- The body of a module has been resolved behind its collection. -/
def Resolved (m : Module) : Context → Prop := Advanced resolver .resolved (Collected l m) m

/-- The body of a module has been checked behind its resolution. -/
def Checked (m : Module) : Context → Prop := Advanced checker .typechecked (Resolved l m) m

/-- What there is to tell of a module that has come to a phase. -/
def Chronicle (m : Module) : Phase → Context → Prop
  | .notStarted => Prefaced l m []
  | .parsed => Prefaced l m []
  | .collected => Collected l m
  | .resolved => Resolved l m
  | .typechecked => Checked l m

variable {l} {c d x y : Context} {m w : Module} {is : List Import} {i : Import} {key : String}
  {v : Module → Visitor Context} {target : Phase} {before : Context → Prop}

/-! ### What is done to other modules -/

theorem Proper.sees_root (h : c.Proper) (hm : c.Knows m) : c.Sees m m.root :=
  Or.inr (h.encloses_root hm).2

theorem Prefaced.bypassed (h : Prefaced l m is c) (hc : c.Proper) (hm : c.Knows m)
    (hd : c.Bypasses m d) : Prefaced l m is d where
  foreword := by
    rw [hd.imports (hc.sees_root hm), hd.reports]
    exact h.foreword
  symbols := (hd.symbols (hc.sees_root hm)).trans h.symbols
  alone hs := h.alone (hd.sees.mp hs)
  located i hi := (h.located i hi).imp fun _ => And.imp_right (Knows.hasModule_of_forall hd.modules)

namespace Remains

variable (h : Remains m x y c)
include h

theorem bypassed (hd : c.Bypasses m d) : Remains m x y d :=
  { h with bypasses := h.bypasses.trans hd }

theorem proper_walked : y.Proper := h.works.proper h.proper h.knows

theorem knows_walked : y.Knows m := h.works.knows_iff.mpr h.knows

/-- The outermost scope of the module goes on to import what it imported. -/
theorem imports_root : c.scopes.imports m.root = x.scopes.imports m.root :=
  (h.bypasses.imports (h.proper_walked.sees_root h.knows_walked)).trans (h.works.scopes.imports _)

end Remains

/-- What has been read goes on to be read. -/
theorem Advanced.bypassed (h : Advanced v target before m c) (htarget : Phase.resolved ≤ target)
    (hl : c.Linked) (hd : c.Bypasses m d) (hext : c.Extends d) (hreads : c.KeepsReads d) :
    Advanced v target before m d := by
  obtain ⟨phase, x, hx, hremains, htypes, himports⟩ := h
  refine ⟨phase, x, hx, hremains.bypassed hd, htypes, fun b hb => ?_⟩
  obtain ⟨hle, hread⟩ := himports b hb
  obtain ⟨-, u, hu, hkey, hroot⟩ := hl.bound (hremains.imports_root.symm ▸ hb)
  have hknows := knows_of_module? (hl.module?_of_mem hu)
  refine ⟨hle.trans (hext.phase_le _), hread.trans ?_⟩
  exact hroot ▸ hreads hknows htarget (hkey.symm ▸ hle)

/-- A chronicle stays true whatever is done to other modules. -/
theorem Chronicle.bypassed {p : Phase} (h : Chronicle l m p c) (hc : c.Proper) (hm : c.Knows m)
    (hd : c.Bypasses m d) (hext : c.Extends d) (hreads : c.KeepsReads d) : Chronicle l m p d := by
  cases p with
  | notStarted => exact Prefaced.bypassed h hc hm hd
  | parsed => exact Prefaced.bypassed h hc hm hd
  | collected =>
    obtain ⟨phase, x, hx, hremains⟩ := h
    exact ⟨phase, x, hx, hremains.bypassed hd⟩
  | resolved => exact Advanced.bypassed h le_rfl hc.linked hd hext hreads
  | typechecked => exact Advanced.bypassed h (by decide) hc.linked hd hext hreads

/-! ### What a module imports -/

variable (l m) in
/-- A module all of whose imports have been followed. -/
structure Followed (ctx : Context) : Prop where
  /-- Nothing is imported further inside. -/
  root : ∀ {s b}, m.root ∈ ctx.scopes.chain s → b ∈ ctx.scopes.imports s → s = m.root
  /-- The aliases that are bound are those of the foreword. -/
  imports : (ctx.scopes.imports m.root).map ImportBinding.unrooted =
    (l.foreword m.file m.program.preface).1
  /-- The imports lead to modules. -/
  located : ∀ i ∈ m.program.preface, ∃ key, l.Leads m.file i key ∧ ctx.hasModule key = true

theorem Prefaced.followed (h : Prefaced l m m.program.preface c) (hc : c.Proper) :
    Followed l m c where
  root {s b} hs hb := by
    refine (h.alone (Or.inr hs)).resolve_left fun hlt => ?_
    rw [hc.imports_eq_nil hlt] at hb
    cases hb
  imports := congrArg Prod.fst h.foreword
  located := h.located

/-- No walk over a body and nothing that is done to other modules follows an import. -/
theorem Remains.followed (h : Remains m x y c) (hx : Followed l m x) : Followed l m c where
  root {s b} hs hb := by
    have hsees := h.bypasses.sees.mp (Or.inr hs)
    rw [h.bypasses.imports hsees, h.works.scopes.imports] at hb
    have hlt := ScopeForest.lt_size_of_mem_imports hb
    rcases hsees with hbuiltin | hs
    · rw [h.proper.imports_eq_nil hbuiltin] at hb
      cases hb
    · exact hx.root (h.works.chain_eq h.proper.linked hlt ▸ hs) hb
  imports := by
    rw [h.imports_root]
    exact hx.imports
  located i hi := (hx.located i hi).imp fun _ => And.imp_right (Knows.hasModule_of_forall
    fun hm => h.bypasses.modules (h.works.knows_iff.mpr hm))

theorem Collected.followed (h : Collected l m c) : Followed l m c := by
  obtain ⟨phase, x, hprefaced, hremains⟩ := h
  exact hremains.followed (hprefaced.followed hremains.proper)

theorem Resolved.followed (h : Resolved l m c) : Followed l m c := by
  obtain ⟨phase, x, hcollected, hremains, -⟩ := h
  exact hremains.followed hcollected.followed

/-- Behind collection, the imports of a module have been followed. -/
theorem Chronicle.followed {p : Phase} (h : Chronicle l m p c) (hp : Phase.collected ≤ p) :
    Followed l m c := by
  cases p with
  | notStarted => exact absurd hp (by decide)
  | parsed => exact absurd hp (by decide)
  | collected => exact Collected.followed h
  | resolved => exact Resolved.followed h
  | typechecked =>
    obtain ⟨phase, x, hresolved, hremains, -⟩ := h
    exact hremains.followed hresolved.followed

/-! ### The tree of a module -/

/-- In front of the walk over its body, a module declares nothing in its tree. -/
theorem Prefaced.symbols_eq_nil (h : Prefaced l m is x) {s : ScopeId}
    (hs : m.root ∈ x.scopes.chain s) (hle : initial.scopes.size ≤ s) :
    x.scopes.symbols s = [] := by
  rcases h.alone (Or.inr hs) with hlt | rfl
  · exact absurd hlt hle.not_gt
  · exact h.symbols

/-- A scope in the tree of a module was there behind the walk, with the same names. -/
theorem Remains.tree (h : Remains m x y c) (hc : c.Proper) (hm : c.Knows m) {s : ScopeId}
    (hs : m.root ∈ c.scopes.chain s) :
    m.root ∈ y.scopes.chain s ∧ c.scopes.symbols s = y.scopes.symbols s := by
  have hle := hc.le_of_mem_chain hm hs
  have hsees := h.bypasses.sees.mp (Or.inr hs)
  exact ⟨hsees.resolve_left hle.not_gt, h.bypasses.symbols hsees⟩

/-- A module that has been collected declares just the types that its program states. -/
theorem Collected.stated (h : Collected l m c) (hc : c.Proper) (hm : c.Knows m) : c.Stated m := by
  obtain ⟨phase, x, hprefaced, hremains⟩ := h
  intro s hs t ht htype
  obtain ⟨hs', hsymbols⟩ := hremains.tree hc hm hs
  rw [hsymbols] at ht
  refine (Compilation.statesOnly_walkBody m phase x s t ht).resolve_left (fun hold => ?_) htype
  -- In front of the walk there was no name in the tree.
  by_cases hlt : s < x.context.scopes.size
  · rw [hremains.works.chain_eq hremains.proper.linked hlt] at hs'
    rw [hprefaced.symbols_eq_nil hs' (hc.le_of_mem_chain hm hs)] at hold
    cases hold
  · rw [ScopeForest.symbols, ScopeForest.scope?_eq_none (Nat.le_of_not_lt hlt)] at hold
    cases hold

/-- A pass behind the first one declares nothing. -/
theorem Advanced.stated (h : Advanced v target before m c)
    (hbefore : ∀ {x}, before x → x.Proper → x.Knows m → x.Stated m) (hc : c.Proper)
    (hm : c.Knows m) : c.Stated m := by
  obtain ⟨phase, x, hx, hremains, htypes, -⟩ := h
  intro s hs t ht htype
  obtain ⟨hs', hsymbols⟩ := hremains.tree hc hm hs
  rw [hsymbols] at ht
  rw [ScopeForest.chain_of_untyped htypes.untyped] at hs'
  have hnames := congrArg (ScopeForest.symbols · s) htypes.untyped
  simp only [ScopeForest.symbols_untyped] at hnames
  have hmem : t.untyped ∈ x.scopes.declarations s := hnames ▸ List.mem_map_of_mem ht
  obtain ⟨t', ht', he⟩ := List.mem_map.mp hmem
  have hkind : t'.untyped.kind = t.untyped.kind := congrArg _ he
  have hspan : t'.untyped.span = t.untyped.span := congrArg _ he
  have htype' : t'.kind.isType = true := (congrArg SymbolKind.isType hkind).trans htype
  have hstates := hbefore hx hremains.proper hremains.knows s hs' t' ht' htype'
  exact hspan ▸ hstates

theorem Resolved.stated (h : Resolved l m c) (hc : c.Proper) (hm : c.Knows m) : c.Stated m :=
  Advanced.stated h Collected.stated hc hm

end Sable.Context
