import Sable.Proofs.Context.Walking

/-!
# Spared declarations

Names are declared in the tree of a module only while its own walk in the first pass is open. So
what is declared in the tree of a module that has been collected stays what it is, whatever
modules are collected later; and nothing is ever declared beside the builtin types. Registering
and importing modules declares nothing at all.
-/

namespace Sable.Context

/-- A context that another one can turn into without declarations in finished trees. -/
def Spares (ctx d : Context) : Prop :=
  d.scopes.declarations 0 = ctx.scopes.declarations 0 ∧
    ∀ m s, ctx.Encloses m s → Phase.collected ≤ ctx.phase m.key →
      d.scopes.declarations s = ctx.scopes.declarations s

/-- A context that another one can turn into by opening outermost scopes of modules only. -/
structure Founds (ctx d : Context) : Prop where
  /-- A scope that is opened is the outermost one of a module. -/
  opened : ∀ t : Nat, ctx.scopes.size ≤ t → t < d.scopes.size → ∃ m, d.Knows m ∧ m.root = t
  /-- The outermost scope of a module was one before, or is opened. -/
  roots : ∀ m, d.Knows m → (∃ m₀, ctx.Knows m₀ ∧ m₀.root = m.root) ∨ ctx.scopes.size ≤ m.root

/-- A context that another one can turn into by registering modules and importing them. -/
structure Enrols (ctx d : Context) : Prop where
  /-- Nothing gets lost. -/
  onward : ctx.Extends d
  /-- Graph, bindings and modules go on to agree. -/
  linked : ctx.Linked → d.Linked
  /-- No module that was there moves, and a new one has been parsed. -/
  phases : ∀ k, d.phase k = ctx.phase k ∨ (ctx.hasModule k = false ∧ d.phase k = .parsed)
  /-- No name is declared, and none is given a type. -/
  symbols : ∀ s, d.scopes.symbols s = ctx.scopes.symbols s
  /-- No scope is opened inside a module. -/
  founds : ctx.Founds d

variable {ctx d e : Context} {m : Module}

/-- No declarations at all spare every tree. -/
theorem Spares.of_same (h : ∀ s, d.scopes.declarations s = ctx.scopes.declarations s) :
    ctx.Spares d := ⟨h 0, fun _ s _ _ => h s⟩

theorem Spares.refl (ctx : Context) : ctx.Spares ctx := .of_same fun _ => rfl

theorem Spares.trans (hd : ctx.Extends d) (h : ctx.Spares d) (h' : d.Spares e) :
    ctx.Spares e := by
  refine ⟨h'.1.trans h.1, fun m s hs hp => ?_⟩
  have hlater := h'.2 m s (hs.later hd) (hp.trans (hd.phase_le _))
  exact hlater.trans (h.2 m s hs hp)

/-- Giving types to names declares nothing. -/
theorem Spares.of_untyped (h : d.scopes.untyped = ctx.scopes.untyped) : ctx.Spares d :=
  .of_same (ScopeForest.declarations_of_untyped h)

/-- What is declared in the tree of a module whose walk is open is declared in no finished tree. -/
theorem spares_of_outside (hl : ctx.Linked) (hm : ctx.Knows m) (hp : ctx.phase m.key = .parsed)
    (h : ∀ t : Nat, t < ctx.scopes.size → m.root ∉ ctx.scopes.chain t →
      d.scopes.declarations t = ctx.scopes.declarations t) : ctx.Spares d := by
  obtain ⟨m₁, hm₁, hkey, hroot, -⟩ := hm.exists_mem
  refine ⟨?_, fun m' s hs hp' => ?_⟩
  · have hzero : m.root ∉ ctx.scopes.chain 0 := by
      intro hmem
      exact ScopeForest.ne_zero_of_mem_chain hl.scopes (hroot ▸ hl.root m₁ hm₁) hmem rfl
    exact h 0 hl.scopes.base hzero
  · refine h s (ScopeForest.lt_size_of_mem_chain hs.2) fun hmem => ?_
    -- A scope lies in the tree of only one module, which has not been collected yet.
    obtain ⟨m₂, hm₂, hkey', hmem', -⟩ := hs.exists_mem
    have hsame := hl.eq_of_mem_chain hm₁ hm₂ (hroot ▸ hmem) hmem'
    rw [← hkey', ← hsame, hkey, hp] at hp'
    exact absurd hp' (by decide)

/-! ### Contexts with more modules -/

/-- Nothing is opened as long as there are the same modules and equally many scopes. -/
theorem Founds.of_same (hsize : d.scopes.size = ctx.scopes.size)
    (hmodules : d.modules = ctx.modules) : ctx.Founds d where
  opened t ht ht' := by omega
  roots m hm := Or.inl ⟨m, (knows_congr hmodules).mp hm, rfl⟩

theorem Founds.trans (h : ctx.Founds d) (hd : ctx.Extends d) (h' : d.Founds e)
    (he : d.Extends e) : ctx.Founds e where
  opened t ht ht' := by
    by_cases hlt : t < d.scopes.size
    · obtain ⟨m, hm, hroot⟩ := h.opened t ht hlt
      exact ⟨m, he.modules hm, hroot⟩
    · exact h'.opened t (by omega) ht'
  roots m hm := by
    rcases h'.roots m hm with ⟨m₀, hm₀, hroot⟩ | hle
    · exact hroot ▸ h.roots m₀ hm₀
    · exact Or.inr (hd.scopes.size_le.trans hle)

/-- A module that is registered opens its outermost scope. -/
theorem founds_addModule {key : String} (hfree : ctx.hasModule key = false) (file : Path)
    (program : Program) : ctx.Founds (ctx.addModule key file program).2 := by
  have hnone : ctx.module? key = none := by simpa [hasModule] using hfree
  have hmod : ∀ k, (ctx.addModule key file program).2.module? k = (ctx.module? k).or
      (if key = k then some ⟨key, file, program, ctx.scopes.size, .parsed⟩ else none) :=
    module?_addModule hfree
  constructor
  · intro t ht ht'
    have hnew := hmod key
    rw [hnone, Option.none_or, if_pos rfl] at hnew
    rw [addModule_eq hfree, ScopeForest.size_openScope] at ht'
    have hroot : ctx.scopes.size = t := Nat.le_antisymm ht (Nat.le_of_lt_succ ht')
    exact ⟨_, knows_of_module? hnew, hroot⟩
  · rintro m ⟨p, -, hm⟩
    rw [hmod] at hm
    cases hold : ctx.module? m.key with
    | some m₀ =>
      rw [hold, Option.some_or, Option.some.injEq] at hm
      have hroot : m₀.root = m.root := by rw [hm]
      exact Or.inl ⟨m₀, knows_of_module? hold, hroot⟩
    | none =>
      rw [hold, Option.none_or] at hm
      obtain ⟨-, hm⟩ := Option.ite_none_right_eq_some.mp hm
      have hroot : ctx.scopes.size = m.root := congrArg Module.root (Option.some.inj hm)
      exact Or.inr hroot.le

theorem enrols_report (ctx : Context) (r : Diagnostic) : ctx.Enrols (ctx.report r) :=
  ⟨extends_report .., fun h => h.report r, fun _ => Or.inl rfl, fun _ => rfl, .of_same rfl rfl⟩

theorem Enrols.trans (h : ctx.Enrols d) (h' : d.Enrols e) : ctx.Enrols e := by
  refine ⟨h.onward.trans h'.onward, h'.linked ∘ h.linked, fun k => ?_,
    fun s => (h'.symbols s).trans (h.symbols s), h.founds.trans h.onward h'.founds h'.onward⟩
  rcases h'.phases k with hsame | ⟨hfree, hnew⟩
  · exact (h.phases k).imp hsame.trans fun hk => ⟨hk.1, hsame.trans hk.2⟩
  · refine Or.inr ⟨Bool.eq_false_iff.mpr fun hk => ?_, hnew⟩
    exact Bool.eq_false_iff.mp hfree (h.onward.hasModule hk)

theorem Enrols.spares (h : ctx.Enrols d) : ctx.Spares d :=
  .of_same fun s => congrArg (List.map Symbol.untyped) (h.symbols s)

/-- A module was registered before, or is new with its outermost scope. -/
theorem Enrols.mem_cases (h : ctx.Enrols d) (hl : ctx.Linked) (hm : m ∈ d.modules) :
    (∃ m₀ ∈ ctx.modules, ∃ p, m = { m₀ with phase := p }) ∨
      (ctx.scopes.size ≤ m.root ∧ ctx.hasModule m.key = false) := by
  have hmod := (h.linked hl).module?_of_mem hm
  -- What is registered under a key stays registered there.
  have hkeep : ∀ {m₀}, ctx.Knows m₀ → ∃ m₁ ∈ ctx.modules, ∃ p, m₁.root = m₀.root ∧
      d.module? m₀.key = some { m₁ with phase := p } := by
    intro m₀ hm₀
    obtain ⟨m₁, hm₁, hkey, hroot, -⟩ := hm₀.exists_mem
    obtain ⟨p, -, hp⟩ := h.onward.modules (knows_of_module? (hl.module?_of_mem hm₁))
    exact ⟨m₁, hm₁, p, hroot, hkey ▸ hp⟩
  rcases h.founds.roots m (knows_of_module? hmod) with ⟨m₀, hm₀, hroot⟩ | hle
  · obtain ⟨m₁, hm₁, p, hroot₁, hlater⟩ := hkeep hm₀
    refine Or.inl ⟨m₁, hm₁, p, ?_⟩
    exact List.inj_on_of_nodup_map (h.linked hl).roots_nodup hm (mem_of_module? hlater).1
      (hroot.symm.trans hroot₁.symm)
  · refine Or.inr ⟨hle, Bool.eq_false_iff.mpr fun hhas => ?_⟩
    obtain ⟨m₀, hm₀⟩ := exists_of_hasModule hhas
    obtain ⟨-, hkey⟩ := mem_of_module? hm₀
    obtain ⟨m₁, hm₁, p, hroot, hlater⟩ := hkeep (knows_of_module? hm₀)
    rw [hkey, hmod, Option.some.injEq] at hlater
    have hlt := ScopeForest.lt_size_of_parent? (hl.root m₁ hm₁)
    rw [hlater] at hle
    exact absurd hlt hle.not_gt

/-- A scope in the tree of a module that was registered before was there before. -/
theorem Enrols.mem_chain (h : ctx.Enrols d) (hl : ctx.Linked) (hm : m ∈ ctx.modules) {t : ScopeId}
    (ht : m.root ∈ d.scopes.chain t) : m.root ∈ ctx.scopes.chain t := by
  have hd := h.linked hl
  have hlt := ScopeForest.lt_size_of_parent? (hl.root m hm)
  by_cases hsize : t < ctx.scopes.size
  · rwa [← ScopeForest.chain_eq_of_parent hl.scopes hd.scopes h.onward.scopes.size_le
      h.onward.scopes.parent hsize]
  · -- A scope that is new is the outermost one of a module that is new.
    obtain ⟨m', hm', rfl⟩ := h.founds.opened t (Nat.le_of_not_lt hsize)
      (ScopeForest.lt_size_of_mem_chain ht)
    obtain ⟨m₁, hm₁, -, hroot, -⟩ := hm'.exists_mem
    rw [ScopeForest.chain_of_root hd.scopes (hroot ▸ hd.root m₁ hm₁)] at ht
    rcases List.mem_cons.mp ht with he | he
    · exact absurd (he ▸ hlt) hsize
    · have hself := ScopeForest.mem_chain_self hlt
      exact absurd (List.mem_singleton.mp he)
        (ScopeForest.ne_zero_of_mem_chain hl.scopes (hl.root m hm) hself)

/-- No module has come further than it had. -/
theorem Enrols.le_phase_iff (h : ctx.Enrols d) {p : Phase} (hp : Phase.parsed < p)
    (key : String) : p ≤ d.phase key ↔ p ≤ ctx.phase key := by
  refine ⟨fun hle => ?_, fun hle => hle.trans (h.onward.phase_le key)⟩
  rcases h.phases key with hsame | ⟨-, hnew⟩
  · exact hsame ▸ hle
  · exact absurd (hnew ▸ hle) hp.not_ge

end Sable.Context
