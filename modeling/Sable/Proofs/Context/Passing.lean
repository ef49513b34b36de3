import Sable.Proofs.Context.Filling
import Sable.Proofs.Context.Walking
import Sable.Proofs.Module.Discipline

/-!
# The passes behind collection

A pass leads every module that it reaches from one phase to the next. It follows the bound
imports, which are edges of a graph without cycles, so its open walks are never more than the
modules there are. Behind a module that it has led on, every imported module that had come far
enough has been led on as well.
-/

namespace Sable.Context

variable {target p : Phase} {ctx d e : Context} {m : Module} {s : ScopeId} {i : Import}

/-! ### What a pass achieves -/

/-- The module that an import stands for has been led on, if it had come far enough. -/
def Follows (target p : Phase) (s : ScopeId) (i : Import) (ctx : Context) : Prop :=
  ∀ key, ctx.scopes.importedKey? s i.localAlias = some key →
    p ≤ ctx.phase key → target ≤ ctx.phase key

/-- An import that has been followed stays so. -/
theorem Follows.later (hl : ctx.Linked) (hs : s < ctx.scopes.size) (h : ctx.Passes target d)
    (hf : Follows target p s i ctx) : Follows target p s i d := by
  intro key hkey hp
  rw [h.scopes.importedKey?_eq hl.scopes hs] at hkey
  rcases h.phases key with hphase | ⟨-, hphase⟩
  · rw [hphase] at hp ⊢
    exact hf key hkey hp
  · exact hphase.ge

/-- What holds while a pass is at work that began in a context `c₀`. -/
structure Passing (target p : Phase) (c₀ : Context) (stack : List String) (ctx : Context) :
    Prop where
  /-- At the beginning, graph, bindings and modules agreed. -/
  start : c₀.Linked
  /-- The open walks form a path. -/
  walking : ctx.Walking p stack
  /-- The pass has done nothing but what it may do. -/
  since : c₀.Passes target ctx
  /-- The imports of a module that it has led on have been followed. -/
  closed : ∀ m ∈ c₀.modules, target ≤ ctx.phase m.key → target ≤ c₀.phase m.key ∨
    ∀ i ∈ m.program.outerImports, Follows target p m.root i ctx

/-- What is to hold along a pass that began in a context `c₀`. -/
def passing (target p : Phase) (c₀ : Context) : Discipline Context where
  limit := c₀.modules.length
  Admits m q := q ∈ m.program.places
  Stands _ _ _ := True
  Inv := Passing target p c₀
  Ready stack key ctx := ctx.Turning p stack key ∧ Passing target p c₀ stack ctx
  Within m s ctx := ctx.Linked ∧ ctx.Encloses m s
  Ext := Leads target
  Done _ := Follows target p
  Finished key ctx := target ≤ ctx.phase key

namespace Passing

variable {c₀ : Context} {stack : List String} {key : String}

/-- A module that was registered at the beginning has its root in the forest. -/
private theorem root_lt (h : Passing target p c₀ stack ctx) (hm : m ∈ c₀.modules) :
    m.root < ctx.scopes.size :=
  (ScopeForest.lt_size_of_parent? (h.start.root m hm)).trans_le h.since.scopes.size_le

private theorem knows (h : Passing target p c₀ stack ctx) (hm : m ∈ c₀.modules) :
    ctx.Knows m := h.since.modules (knows_of_module? (h.start.module?_of_mem hm))

/-- A visit that only fills in types leaves all as it is. -/
theorem fills (h : Passing target p c₀ stack ctx) (hd : ctx.Fills d) :
    Passing target p c₀ stack d where
  start := h.start
  walking := h.walking.fills hd
  since := h.since.trans hd.passes
  closed m hm hle := by
    rw [phase_congr hd.modules] at hle
    refine (h.closed m hm hle).imp id fun hfollows i hi => ?_
    exact (hfollows i hi).later h.walking.linked (h.root_lt hm) hd.passes

/-- Closing a walk leads its module on. -/
theorem leave (ht : target.previous? = some p) (h : Passing target p c₀ (m.key :: stack) ctx)
    (hm : ctx.Knows m)
    (hdone : ∀ i ∈ m.program.outerImports, Follows target p m.root i ctx) :
    Passing target p c₀ stack (ctx.setPhase m.key target) ∧
      ctx.Leads target (ctx.setPhase m.key target) ∧
        target ≤ (ctx.setPhase m.key target).phase m.key := by
  obtain ⟨hwalking, hleads, hphase⟩ := h.walking.leave hm ht
  have hpasses := hleads.toPasses
  obtain ⟨q, -, hmod⟩ := hm
  refine ⟨⟨h.start, hwalking, h.since.trans hpasses, fun m' hm' hle => ?_⟩, hleads, ?_⟩
  · by_cases hkey : m'.key = m.key
    · -- The module is the one whose walk is closed, so its imports have just been followed.
      obtain ⟨q', -, hmod'⟩ := h.knows hm'
      rw [hkey, hmod, Option.some.injEq, Module.mk.injEq] at hmod'
      obtain ⟨-, -, hprogram, hroot, -⟩ := hmod'
      refine Or.inr fun i hi => ?_
      rw [← hprogram] at hi
      exact hroot ▸ (hdone i hi).later h.walking.linked (hroot ▸ h.root_lt hm') hpasses
    · rw [hphase, if_neg hkey] at hle
      refine (h.closed m' hm' hle).imp id fun hfollows i hi => ?_
      exact (hfollows i hi).later h.walking.linked (h.root_lt hm') hpasses
  · rw [hphase, if_pos rfl]

end Passing

/-! ### The traversal -/

section

variable {pass : Pass} {activity : String} {v : Module → Visitor Context}
  (hv : ∀ m, Filling (v m)) (hi : ∀ m, (v m).importing = nextModule target)
  (ht : target.previous? = some p) (hp : Phase.parsed ≤ p)

/-- The scopes that a pass walks lie in the tree of the module. -/
private theorem encloses_of_fills (hl : ctx.Linked) {inner : ScopeId} (hm : ctx.Encloses m s)
    (hinner : m.root ∈ ctx.scopes.chain inner) (hd : ctx.Fills d) :
    d.Linked ∧ d.Encloses m inner :=
  ⟨hd.linked hl, (show ctx.Encloses m inner from ⟨hm.1, hinner⟩).later (hd.toExtends hl)⟩

include hv in
/-- Every visit gives types to names. -/
theorem visits_types (c₀ : Context) (stack : List String) (m : Module) :
    (v m).Visits ((passing target p c₀).Admits m) ((passing target p c₀).Stands m)
      ((passing target p c₀).At stack m) Types := by
  constructor
  · intro s c name params ret hs
    obtain ⟨hinner, hd⟩ := (hv m).function s name params ret c
    refine ⟨hd, fun inner hin =>
      ⟨⟨hs.1.fills hd.toFills, encloses_of_fills hs.2.1 hs.2.2 ?_ hd.toFills⟩,
        fun _ _ => trivial⟩⟩
    exact ScopeForest.declaredMembers?_mem hs.2.1.scopes hs.2.2.2 (hinner ▸ hin)
  · intro s c receiver name params ret hr hs
    obtain ⟨hinner, hd⟩ := (hv m).method s receiver name params ret c
    refine ⟨hd, fun inner hin =>
      ⟨⟨hs.1.fills hd.toFills, encloses_of_fills hs.2.1 hs.2.2 ?_ hd.toFills⟩,
        fun _ _ => trivial⟩⟩
    have hparsed := hs.2.2.places hs.2.1 _ hr
    have hroot := hs.2.2.root hs.2.1
    exact ScopeForest.methodBody?_mem hs.2.1.scopes hroot hs.2.2.2 hparsed (hinner ▸ hin)
  · exact fun d _ => (hv m).typeDecl ..
  · exact fun isConst targets values span _ => (hv m).declaring ..
  · exact fun targets values _ => (hv m).declared ..
  · exact fun targets values span _ => (hv m).assigning ..
  · exact fun name _ => (hv m).name ..
  · exact fun module name _ => (hv m).qualified ..

include hv hi ht hp

/-- A pass that only fills in types keeps to the discipline. -/
theorem obeys_passing (c₀ : Context) :
    (traversal target pass activity v).Obeys (passing target p c₀) where
  refl := Leads.refl target
  trans := Leads.trans
  within_later hd hs := ⟨hd.linked hs.1, hs.2.later (hd.toExtends hs.1)⟩
  done_later hs hd h := h.later hs.1 (ScopeForest.lt_size_of_mem_chain hs.2.2) hd.toPasses
  room h := (h.1.length_lt hp).trans_eq h.2.since.length_eq
  passes h he := by
    obtain ⟨rfl, hle⟩ := h.1.enter_cases ht hp he
    exact ⟨h.2, Leads.refl target _, hle⟩
  enters h he := by
    obtain ⟨rfl, hm, hphase⟩ := h.1.enter_cases ht hp he
    obtain ⟨hwalking, hencloses⟩ := h.1.enter hm hphase
    exact ⟨(mem_of_module? hm).2, ⟨h.2.start, hwalking, h.2.since, h.2.closed⟩,
      Leads.refl target _, ⟨h.1.linked, hencloses⟩, fun _ hq => hq, fun _ _ => trivial⟩
  visits stack m := (visits_types hv c₀ stack m).imp fun _ hd =>
    ⟨hd.leads, fun h => h.fills hd.toFills⟩
  stays {stack m s i c d} _ hs he := by
    obtain ⟨hnone, rfl⟩ : ((c.scopes.importedKey? s i.localAlias).filter
        fun key => c.canProcess key target) = none ∧ c = d := by
      simpa [traversal, hi, nextModule] using he
    refine ⟨hs.1, Leads.refl target c, fun key hkey hle => ?_⟩
    rw [hkey, Option.filter_eq_none_iff] at hnone
    have hne : p ≠ c.phase key := by
      intro heq
      exact hnone key rfl ((canProcess_iff ht).mpr heq.symm)
    exact Phase.le_of_previous_lt ht (lt_of_le_of_ne hle hne)
  turns {stack m s i c key d} _ hs he := by
    obtain ⟨hsome, rfl⟩ : ((c.scopes.importedKey? s i.localAlias).filter
        fun key => c.canProcess key target) = some key ∧ c = d := by
      simpa [traversal, hi, nextModule] using he
    obtain ⟨hkey, hcan⟩ := Option.filter_eq_some_iff.mp hsome
    have hphase := (canProcess_iff ht).mp hcan
    obtain ⟨m', hm', hk, hroot, -⟩ := hs.2.2.exists_mem
    have hedge := hs.2.1.edge_of_importedKey? hm' hroot hkey
    refine ⟨⟨hs.1.walking.turn (hk ▸ hedge) hphase.ge, hs.1⟩, Leads.refl target c, ?_⟩
    intro e hd _ hfin key' hkey' _
    rw [hd.scopes.importedKey?_eq hs.2.1.scopes (ScopeForest.lt_size_of_mem_chain hs.2.2.2),
      hkey, Option.some.injEq] at hkey'
    exact hkey' ▸ hfin
  leaves hinv hs hdone := hinv.leave ht hs.2.1 hdone

omit hv hi ht hp in
/-- A pass may be started on a module that has come far enough. -/
theorem ready_passing (hl : ctx.Linked) {key : String} (hle : p ≤ ctx.phase key) :
    (passing target p ctx).Ready [] key ctx := by
  have hwalking : ctx.Walking p [] := ⟨hl, .nil, by simp⟩
  exact ⟨⟨hwalking, .singleton _, hle⟩, hl, hwalking, Passes.refl target ctx, fun _ _ h => Or.inl h⟩

/-- A pass comes to its end. -/
theorem traverse_passing (hl : ctx.Linked) {key : String} (hle : p ≤ ctx.phase key) :
    Passing target p ctx [] (traverse (traversal target pass activity v) key ctx) ∧
      target ≤ (traverse (traversal target pass activity v) key ctx).phase key := by
  have hlimit : (passing target p ctx).limit ≤
      ctx.modules.length + 1 + ([] : List String).length := by
    simp [passing]
  obtain ⟨hinv, -, hfin⟩ :=
    (obeys_passing hv hi ht hp ctx).runWithin _ (ready_passing hl hle) hlimit
  exact ⟨hinv, hfin⟩

end

end Sable.Context
