import Sable.Proofs.Context.Progress

/-!
# Open walks

While a pass is at work, the modules whose walks are open form a path of recorded edges, and
each of them stays at the phase that the pass starts from. Edges form no cycle, so no module
has two open walks; this is what keeps a pass from entering a module again before its walk is
closed, and it bounds the number of open walks by the number of modules.
-/

namespace Sable

/-- A path of edges that form no cycle passes every module once. -/
theorem ImportGraph.Acyclic.nodup_of_path {g : ImportGraph} (h : g.Acyclic) {stack : List String}
    (hpath : stack.IsChain fun u v => g.Edge v u) : stack.Nodup := by
  rw [← List.nodup_reverse]
  have hchain : stack.reverse.IsChain (Relation.TransGen g.Edge) :=
    (List.isChain_reverse.mpr hpath).imp fun _ _ he => .single he
  refine List.Pairwise.imp (fun hway => ?_) hchain.pairwise
  rintro rfl
  exact h _ hway

namespace Context

/-- A module is known, and a scope lies in its tree. -/
def Encloses (ctx : Context) (m : Module) (s : ScopeId) : Prop :=
  ctx.Knows m ∧ m.root ∈ ctx.scopes.chain s

/-- The open walks of a pass that starts from phase `p`, the last one first. -/
structure Walking (p : Phase) (stack : List String) (ctx : Context) : Prop where
  /-- Graph, bindings and modules agree. -/
  linked : ctx.Linked
  /-- Each module is imported by the one whose walk was opened before. -/
  path : stack.IsChain fun u v => ctx.graph.Edge v u
  /-- No module moves before its walk is closed. -/
  phases : ∀ k ∈ stack, ctx.phase k = p

/-- A pass that starts from phase `p` may turn to the module under a key. -/
structure Turning (p : Phase) (stack : List String) (key : String) (ctx : Context) : Prop
    extends ctx.Walking p stack where
  /-- The module is imported by the one whose walk was opened last. -/
  next : (key :: stack).IsChain fun u v => ctx.graph.Edge v u
  /-- The module has come far enough. -/
  reached : p ≤ ctx.phase key

variable {p : Phase} {stack : List String} {key : String} {ctx d : Context} {m : Module}

theorem Encloses.later {s : ScopeId} (h : ctx.Encloses m s) (hd : ctx.Extends d) :
    d.Encloses m s := ⟨hd.modules h.1, hd.chains h.2⟩

/-- The module whose walk is open, as it is registered. -/
theorem Encloses.exists_mem {s : ScopeId} (h : ctx.Encloses m s) :
    ∃ m' ∈ ctx.modules, m'.key = m.key ∧ m'.root ∈ ctx.scopes.chain s ∧ m'.root = m.root ∧
      m'.file = m.file ∧ m'.program = m.program := by
  obtain ⟨m', hm', hkey, hroot, hrest⟩ := h.1.exists_mem
  exact ⟨m', hm', hkey, hroot.symm ▸ h.2, hroot, hrest⟩

theorem Encloses.root (hl : ctx.Linked) {s : ScopeId} (h : ctx.Encloses m s) :
    ctx.scopes.parent? m.root = some 0 := by
  obtain ⟨m', hm', -, -, hroot, -⟩ := h.exists_mem
  exact hroot ▸ hl.root m' hm'

theorem Encloses.places (hl : ctx.Linked) {s : ScopeId} (h : ctx.Encloses m s) :
    ∀ p ∈ m.program.places, p.Parsed := by
  obtain ⟨m', hm', -, -, -, -, hprogram⟩ := h.exists_mem
  exact hprogram ▸ hl.places m' hm'

/-- A scope lies in the tree of only one module. -/
theorem Encloses.same {m' : Module} {s : ScopeId} (h : ctx.Encloses m s) (hl : ctx.Linked)
    (h' : ctx.Encloses m' s) : m'.key = m.key ∧ m'.root = m.root ∧ m'.program = m.program := by
  obtain ⟨m₁, hm₁, hkey, hmem, hroot, -, hprogram⟩ := h.exists_mem
  obtain ⟨m₂, hm₂, hkey', hmem', hroot', -, hprogram'⟩ := h'.exists_mem
  obtain rfl := hl.eq_of_mem_chain hm₁ hm₂ hmem hmem'
  exact ⟨hkey'.symm.trans hkey, hroot'.symm.trans hroot, hprogram'.symm.trans hprogram⟩

namespace Walking

theorem congr (h : ctx.Walking p stack) (hl : d.Linked)
    (hgraph : ∀ {u v}, ctx.graph.Edge u v → d.graph.Edge u v)
    (hphase : ∀ k ∈ stack, d.phase k = ctx.phase k) : d.Walking p stack :=
  ⟨hl, h.path.imp fun _ _ he => hgraph he, fun k hk => (hphase k hk).trans (h.phases k hk)⟩

theorem fills (h : ctx.Walking p stack) (hd : ctx.Fills d) : d.Walking p stack :=
  h.congr (hd.linked h.linked) (fun he => hd.graph.symm ▸ he) fun k _ => phase_congr hd.modules k

theorem nodup (h : ctx.Walking p stack) : stack.Nodup :=
  h.linked.graph.acyclic.nodup_of_path h.path

/-- An edge from the module whose walk was opened last may be followed. -/
theorem turn (h : ctx.Walking p (m.key :: stack)) (he : ctx.graph.Edge m.key key)
    (hp : p ≤ ctx.phase key) : ctx.Turning p (m.key :: stack) key :=
  ⟨h, List.isChain_cons_cons.mpr ⟨he, h.path⟩, hp⟩

/-- Closing the walk that was opened last moves its module and nothing else. -/
theorem leave (h : ctx.Walking p (m.key :: stack)) (hm : ctx.Knows m) {target : Phase}
    (ht : target.previous? = some p) :
    (ctx.setPhase m.key target).Walking p stack ∧
      ctx.Leads target (ctx.setPhase m.key target) ∧
      ∀ k, (ctx.setPhase m.key target).phase k = if k = m.key then target else ctx.phase k := by
  obtain ⟨q, -, hmod⟩ := hm
  have hq : q = p := by
    rw [← h.phases m.key (List.mem_cons_self ..), phase_of_module? hmod]
  subst hq
  have hlt := Phase.previous_lt ht
  have hphase := phase_setPhase hmod hlt
  refine ⟨⟨h.linked.setPhase .., ?_, fun k hk => ?_⟩, leads_setPhase hmod ht, hphase⟩
  · rw [setPhase_eq hmod hlt]
    exact h.path.tail
  · have hne : k ≠ m.key := by
      rintro rfl
      exact (List.nodup_cons.mp h.nodup).1 hk
    rw [hphase k, if_neg hne]
    exact h.phases k (List.mem_cons_of_mem _ hk)

end Walking

namespace Turning

/-- A module that may be turned to has no open walk. -/
theorem nodup (h : ctx.Turning p stack key) : (key :: stack).Nodup :=
  h.linked.graph.acyclic.nodup_of_path h.next

/-- A module that may be turned to is registered, and so are those whose walks are open. -/
theorem hasModule (h : ctx.Turning p stack key) (hp : Phase.parsed ≤ p) :
    ∀ k ∈ key :: stack, ctx.hasModule k = true := by
  intro k hk
  refine hasModule_of_parsed_le (hp.trans ?_)
  rcases List.mem_cons.mp hk with rfl | hk
  · exact h.reached
  · exact (h.phases k hk).ge

/-- There are fewer open walks than modules. -/
theorem length_lt (h : ctx.Turning p stack key) (hp : Phase.parsed ≤ p) :
    stack.length < ctx.modules.length := by
  have hlen := h.nodup.length_le_of_subset fun k hk => mem_keys_of_hasModule (h.hasModule hp k hk)
  rwa [List.length_cons, List.length_map] at hlen

/-- Entering a module opens its walk, in its outermost scope. -/
theorem enter (h : ctx.Turning p stack key) (hm : ctx.module? key = some m) (hp : m.phase = p) :
    ctx.Walking p (key :: stack) ∧ ctx.Encloses m m.root := by
  refine ⟨⟨h.linked, h.next, List.forall_mem_cons.mpr ⟨?_, h.phases⟩⟩, knows_of_module? hm, ?_⟩
  · exact (phase_of_module? hm).trans hp
  · exact ScopeForest.mem_chain_self
      (ScopeForest.lt_size_of_parent? (h.linked.root m (mem_of_module? hm).1))

/-- A pass enters a module it may turn to, unless the module is further on; nothing is reported. -/
theorem enter_cases (h : ctx.Turning p stack key) {target : Phase}
    (ht : target.previous? = some p) (hp : Phase.parsed ≤ p) {pass : Pass} {activity : String}
    {m? : Option Module} : ctx.enter key target pass activity = (m?, d) →
    d = ctx ∧ match m? with
      | none => target ≤ ctx.phase key
      | some m => ctx.module? key = some m ∧ m.phase = p := by
  intro he
  cases m? with
  | some m =>
    obtain ⟨hm, hprev, rfl⟩ := enter_eq_some he
    rw [ht, Option.some.injEq] at hprev
    exact ⟨rfl, hm, hprev.symm⟩
  | none =>
    rcases enter_eq_none he with ⟨rfl, hle | hnone⟩ | ⟨-, hcan, hle⟩
    · exact ⟨rfl, hle⟩
    · have hhas := hasModule_of_parsed_le (hp.trans h.reached)
      simp [Context.hasModule, hnone] at hhas
    · have hne : p ≠ ctx.phase key := by
        intro he
        rw [Bool.eq_false_iff, Ne, canProcess_iff ht] at hcan
        exact hcan he.symm
      exact absurd (Phase.le_of_previous_lt ht (lt_of_le_of_ne h.reached hne)) hle

end Turning

end Context

end Sable
