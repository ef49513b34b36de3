import Sable.Proofs.Context.Isolated
import Sable.Proofs.Context.Pointing

/-!
# Changes that bypass a module

What a later pass makes of a module depends on the scopes that the module sees, which are the
builtin ones and those in its own tree, and what it has made of it so far are these scopes and the
reports in the file of the module. A change bypasses a module if it leaves both as they are. All
that is done on the walk over one module bypasses every other one, and so does registering modules
and importing them into others.
-/

namespace Sable.Context

/-- A scope that a module sees is builtin, or it lies in the tree of the module. -/
def Sees (ctx : Context) (m : Module) (s : ScopeId) : Prop :=
  s < initial.scopes.size ∨ m.root ∈ ctx.scopes.chain s

/-- The reports in a file. -/
def reportsIn (ctx : Context) (file : String) : List Diagnostic :=
  ctx.diagnostics.items.filter fun r => r.file = file

/-- A context in which modules are kept apart, and the builtin scopes are what they were. -/
structure Proper (ctx : Context) : Prop extends ctx.Sheltered where
  /-- Graph, bindings and modules agree. -/
  linked : ctx.Linked
  /-- No builtin scope has moved. -/
  parents : ∀ s : Nat, s < initial.scopes.size →
    ctx.scopes.parent? s = initial.scopes.parent? s
  /-- No builtin scope declares anything new. -/
  symbols : ∀ s : Nat, s < initial.scopes.size →
    ctx.scopes.symbols s = initial.scopes.symbols s

/-- A change that leaves alone what belongs to a module. -/
structure Bypasses (m : Module) (c d : Context) : Prop where
  /-- Modules stay, and move forward. -/
  modules : ∀ {m'}, c.Knows m' → d.Knows m'
  /-- The module sees the same scopes. -/
  sees : ∀ {s}, d.Sees m s ↔ c.Sees m s
  /-- They lie where they lay. -/
  parent? : ∀ {s}, c.Sees m s → d.scopes.parent? s = c.scopes.parent? s
  /-- They declare the same names. -/
  symbols : ∀ {s}, c.Sees m s → d.scopes.symbols s = c.scopes.symbols s
  /-- They bind the same imports. -/
  imports : ∀ {s}, c.Sees m s → d.scopes.imports s = c.scopes.imports s
  /-- The same is reported in the file of the module. -/
  reports : d.reportsIn m.file.text = c.reportsIn m.file.text

/-- What is done on the walk over a module concerns its tree and its file. -/
structure Works (w : Module) (c d : Context) : Prop extends c.Fills d where
  /-- Outside the tree no name changes. -/
  outside : ∀ t, w.root ∉ d.scopes.chain t → d.scopes.symbols t = c.scopes.symbols t
  /-- Outside the tree no scope is opened. -/
  opened : ∀ t : Nat, c.scopes.size ≤ t → t < d.scopes.size → w.root ∈ d.scopes.chain t
  /-- Reports are added in the file of the module. -/
  filed : ∃ es, d.diagnostics.items = c.diagnostics.items ++ es ∧ ∀ r ∈ es, r.file = w.file.text

variable {c d e : Context} {m w : Module}

/-! ### Scopes that a module sees -/

namespace Proper

theorem lt_size (h : c.Proper) {s : ScopeId} (hs : c.Sees m s) : s < c.scopes.size :=
  hs.elim (fun hlt => hlt.trans_le h.size_le) ScopeForest.lt_size_of_mem_chain

/-- A scope in the tree of a module is not builtin. -/
theorem le_of_mem_chain (h : c.Proper) (hm : c.Knows m) {s : Nat}
    (hs : m.root ∈ c.scopes.chain s) : initial.scopes.size ≤ s :=
  (h.apart hm).trans (ScopeForest.le_of_mem_chain h.linked.scopes hs)

theorem parent?_root (h : c.Proper) (hm : c.Knows m) : c.scopes.parent? m.root = some 0 := by
  obtain ⟨m', hm', -, hroot, -⟩ := hm.exists_mem
  exact hroot ▸ h.linked.root m' hm'

theorem root_lt (h : c.Proper) (hm : c.Knows m) : m.root < c.scopes.size :=
  ScopeForest.lt_size_of_parent? (h.parent?_root hm)

theorem encloses_root (h : c.Proper) (hm : c.Knows m) : c.Encloses m m.root :=
  ⟨hm, ScopeForest.mem_chain_self (h.root_lt hm)⟩

/-- Of the scopes that one module sees, another one sees the builtin ones only. -/
theorem notMem_chain (h : c.Proper) (hm : c.Knows m) (hw : c.Knows w) (hne : m.key ≠ w.key)
    {s : ScopeId} (hs : c.Sees m s) : w.root ∉ c.scopes.chain s := by
  intro hmem
  rcases hs with hlt | hs
  · exact absurd (h.le_of_mem_chain hw hmem) (Nat.not_le.mpr hlt)
  · have henc : c.Encloses w s := ⟨hw, hmem⟩
    exact hne (henc.same h.linked ⟨hm, hs⟩).1

/-- The outermost scope of a module is seen by no other one. -/
theorem not_sees_root (h : c.Proper) (hm : c.Knows m) (hw : c.Knows w) (hne : m.key ≠ w.key) :
    ¬ c.Sees m w.root :=
  fun hs => h.notMem_chain hm hw hne hs (ScopeForest.mem_chain_self (h.root_lt hw))

/-- A builtin scope imports nothing. -/
theorem imports_eq_nil (h : c.Proper) {s : Nat} (hs : s < initial.scopes.size) :
    c.scopes.imports s = [] := by
  refine List.eq_nil_iff_forall_not_mem.mpr fun b hb => ?_
  obtain ⟨⟨m, hm, hmem⟩, -⟩ := h.linked.bound hb
  have hle := h.le_of_mem_chain (knows_of_module? (h.linked.module?_of_mem hm)) hmem
  exact absurd hle (Nat.not_le.mpr hs)

/-- Different modules have different outermost scopes. -/
theorem key_eq_of_root (h : c.Proper) (hm : c.Knows m) (hw : c.Knows w) (hroot : m.root = w.root) :
    m.key = w.key := by
  have hself := h.encloses_root hm
  exact ((hroot ▸ h.encloses_root hw : c.Encloses w m.root).same h.linked hself).1

/-- No module imports itself. -/
theorem exists_of_import (h : c.Proper) (hm : c.Knows m) {b : ImportBinding}
    (hb : b ∈ c.scopes.imports m.root) :
    ∃ u, c.Knows u ∧ u.key = b.key ∧ u.root = b.root ∧ u.key ≠ m.key := by
  obtain ⟨w, hw, hwkey, hwroot, -⟩ := hm.exists_mem
  obtain ⟨-, u, hu, hukey, huroot⟩ := h.linked.bound hb
  refine ⟨u, knows_of_module? (h.linked.module?_of_mem hu), hukey, huroot, fun he => ?_⟩
  have hself := ScopeForest.mem_chain_self (ScopeForest.lt_size_of_mem_imports hb)
  have hedge := (h.linked.edge_iff w hw b.key).mpr ⟨_, b, hwroot ▸ hself, hb, rfl⟩
  rw [← hukey, he, ← hwkey] at hedge
  exact h.linked.graph.acyclic _ (.single hedge)

/-- Nothing is changed for a builtin scope where no scope moves and no builtin name changes. -/
theorem later (h : c.Proper) (hl : d.Linked) (hd : c.Shelters d)
    (hsymbols : ∀ s : Nat, s < initial.scopes.size → d.scopes.symbols s = c.scopes.symbols s) :
    d.Proper where
  toSheltered := h.toSheltered.later hd
  linked := hl
  parents s hs := (hd.onward.scopes.parent s (hs.trans_le h.size_le)).trans (h.parents s hs)
  symbols s hs := (hsymbols s hs).trans (h.symbols s hs)

end Proper

/-! ### Changes that follow each other -/

theorem Knows.hasModule_of_forall (h : ∀ {m'}, c.Knows m' → d.Knows m') {key : String}
    (hk : c.hasModule key = true) : d.hasModule key = true := by
  obtain ⟨m', hm'⟩ := exists_of_hasModule hk
  obtain ⟨-, rfl⟩ := mem_of_module? hm'
  exact (h (knows_of_module? hm')).hasModule

namespace Bypasses

theorem refl (m : Module) (c : Context) : c.Bypasses m c :=
  ⟨id, Iff.rfl, fun _ => rfl, fun _ => rfl, fun _ => rfl, rfl⟩

theorem trans (h : c.Bypasses m d) (h' : d.Bypasses m e) : c.Bypasses m e where
  modules hm := h'.modules (h.modules hm)
  sees := h'.sees.trans h.sees
  parent? hs := (h'.parent? (h.sees.mpr hs)).trans (h.parent? hs)
  symbols hs := (h'.symbols (h.sees.mpr hs)).trans (h.symbols hs)
  imports hs := (h'.imports (h.sees.mpr hs)).trans (h.imports hs)
  reports := h'.reports.trans h.reports

/-- The scopes and the reports are all that counts, as long as modules stay. -/
theorem of_same (hmodules : ∀ {m'}, c.Knows m' → d.Knows m') (hscopes : d.scopes = c.scopes)
    (hreports : d.diagnostics = c.diagnostics) : c.Bypasses m d where
  modules := hmodules
  sees {s} := by rw [Sees, Sees, hscopes]
  parent? _ := by rw [hscopes]
  symbols _ := by rw [hscopes]
  imports _ := by rw [hscopes]
  reports := by rw [reportsIn, reportsIn, hreports]

end Bypasses

/-- Reports in another file are not looked at. -/
theorem reportsIn_append {file : String} {es : List Diagnostic}
    (h : d.diagnostics.items = c.diagnostics.items ++ es) (hes : ∀ r ∈ es, r.file ≠ file) :
    d.reportsIn file = c.reportsIn file := by
  have hnone : (es.filter fun r => r.file = file) = [] :=
    List.filter_eq_nil_iff.mpr fun r hr => by simp [hes r hr]
  rw [reportsIn, h, List.filter_append, hnone, List.append_nil, reportsIn]

/-! ### Walks over other modules -/

namespace Works

theorem refl (w : Module) (c : Context) : c.Works w c where
  toFills := .refl c
  outside _ _ := rfl
  opened t ht ht' := absurd ht (Nat.not_le.mpr ht')
  filed := ⟨[], by simp, by simp⟩

theorem trans (hl : c.Linked) (h : c.Works w d) (h' : d.Works w e) : c.Works w e where
  toFills := h.toFills.trans h'.toFills
  outside t htree := by
    refine (h'.outside t htree).trans (h.outside t fun hmem => htree ?_)
    exact h'.scopes.mem_chain (h.linked hl).scopes hmem
  opened t ht ht' := by
    by_cases hlt : t < d.scopes.size
    · exact h'.scopes.mem_chain (h.linked hl).scopes (h.opened t ht hlt)
    · exact h'.opened t (Nat.le_of_not_lt hlt) ht'
  filed := by
    obtain ⟨es, hes, hfile⟩ := h.filed
    obtain ⟨es', hes', hfile'⟩ := h'.filed
    exact ⟨es ++ es', by rw [hes', hes, List.append_assoc],
      List.forall_mem_append.mpr ⟨hfile, hfile'⟩⟩

theorem knows_iff (h : c.Works w d) : d.Knows m ↔ c.Knows m := knows_congr h.modules

/-- A scope that was there lies in the tree exactly if it did. -/
theorem chain_eq (h : c.Works w d) (hl : c.Linked) {s : ScopeId} (hs : s < c.scopes.size) :
    d.scopes.chain s = c.scopes.chain s := h.scopes.chain_eq hl.scopes hs

theorem shelters (h : c.Works w d) (hl : c.Linked) (hw : c.Knows w) : c.Shelters d where
  onward := h.toExtends hl
  opened t ht ht' := ⟨w, h.knows_iff.mpr hw, h.opened t ht ht'⟩
  roots _ hm := Or.inl ⟨_, h.knows_iff.mp hm, rfl⟩

/-- Modules are kept apart on the walk over one of them. -/
theorem proper (h : c.Works w d) (hc : c.Proper) (hw : c.Knows w) : d.Proper := by
  have hl := h.linked hc.linked
  refine hc.later hl (h.shelters hc.linked hw) fun s hs => h.outside s fun hmem => ?_
  have hlt := hs.trans_le hc.size_le
  rw [h.chain_eq hc.linked hlt] at hmem
  exact absurd (hc.le_of_mem_chain hw hmem) (Nat.not_le.mpr hs)

/-- What is done on the walk over a module bypasses every other one. -/
theorem bypasses (h : c.Works w d) (hc : c.Proper) (hw : c.Knows w) (hm : c.Knows m)
    (hne : m.key ≠ w.key) (hfile : m.file.text ≠ w.file.text) : c.Bypasses m d where
  modules hm' := h.knows_iff.mpr hm'
  sees {s} := by
    refine or_congr_right ⟨fun hmem => ?_, h.scopes.mem_chain hc.linked.scopes⟩
    by_cases hlt : s < c.scopes.size
    · rwa [h.chain_eq hc.linked hlt] at hmem
    · -- A scope that has been opened lies in the tree of the module that is walked.
      have hopened := h.opened s (Nat.le_of_not_lt hlt) (ScopeForest.lt_size_of_mem_chain hmem)
      exact absurd hopened ((h.proper hc hw).notMem_chain (h.knows_iff.mpr hm)
        (h.knows_iff.mpr hw) hne (Or.inr hmem))
  parent? {s} hs := h.scopes.parent s (hc.lt_size hs)
  symbols {s} hs := h.outside s fun hmem => by
    rw [h.chain_eq hc.linked (hc.lt_size hs)] at hmem
    exact hc.notMem_chain hm hw hne hs hmem
  imports {s} _ := h.scopes.imports s
  reports := by
    obtain ⟨es, hes, hfiled⟩ := h.filed
    exact reportsIn_append hes fun r hr he => hfile (he.symm.trans (hfiled r hr))

end Works

/-! ### Registering and importing -/

namespace Enrols

/-- Modules are kept apart where they are registered and imported. -/
theorem proper (h : c.Enrols d) (hc : c.Proper) : d.Proper :=
  hc.later (h.linked hc.linked) h.shelters fun s _ => h.symbols s

/-- Registering and importing modules bypasses a module unless it is one that imports. -/
theorem bypasses (h : c.Enrols d) (hc : c.Proper) (hm : c.Knows m)
    (himports : ∀ {s}, c.Sees m s → d.scopes.imports s = c.scopes.imports s)
    (hreports : d.reportsIn m.file.text = c.reportsIn m.file.text) : c.Bypasses m d where
  modules := h.onward.modules
  sees {s} := by
    obtain ⟨m', hm', -, hroot, -⟩ := hm.exists_mem
    refine or_congr_right ⟨fun hmem => ?_, h.onward.chains⟩
    rw [← hroot] at hmem ⊢
    exact h.mem_chain hc.linked hm' hmem
  parent? {s} hs := h.onward.scopes.parent s (hc.lt_size hs)
  symbols {s} _ := h.symbols s
  imports := himports
  reports := hreports

end Enrols

end Sable.Context
