import Sable.Proofs.Context.Framing
import Sable.Proofs.Context.Sparing
import Sable.Proofs.Module.Noted

/-!
# Isolated modules

Every scope behind the builtin ones lies in the tree of exactly one module. A visit on the walk over
a module opens scopes in its tree, or the outermost scope of a new module, and changes names in its
tree only; so the builtin scopes stay what they are, and so do the trees of all other modules.
-/

namespace Sable

namespace Deed

/-- What has been done leaves all names outside the tree below a scope alone. -/
def StaysIn (x : Deed) (r : ScopeId) : Prop :=
  ∀ t, r ∉ x.after.chain t → x.after.symbols t = x.before.symbols t

/-- What has been done accounts for every change of a name between two forests. -/
inductive Trail (F : ScopeForest) : List Deed → ScopeForest → Prop
  /-- Without deeds, no name has changed. -/
  | start {G : ScopeForest} : (∀ t, G.symbols t = F.symbols t) → Trail F [] G
  /-- Behind a deed, no name has changed. -/
  | deed {W : List Deed} {x : Deed} {G : ScopeForest} : Trail F W x.before →
    (∀ t, G.symbols t = x.after.symbols t) → Trail F (W ++ [x]) G

variable {F G H : ScopeForest} {W : List Deed}

/-- Whatever changes no name may follow. -/
theorem Trail.same (h : Trail F W G) (hsame : ∀ t, H.symbols t = G.symbols t) : Trail F W H := by
  cases h with
  | start hG => exact .start fun t => (hsame t).trans (hG t)
  | deed htrail hG => exact .deed htrail fun t => (hsame t).trans (hG t)

end Deed

namespace Context

/-! ### Builtin scopes -/

/-- The scope of the builtin types, or that of the members of one of them. -/
def Builtin (s : ScopeId) : Prop :=
  s = builtins ∨ ∃ x ∈ initial.scopes.symbols builtins, x.members? = some s

/-- There are thirteen builtin types, and the scopes of their members follow upon theirs. -/
theorem members?_initial :
    (initial.scopes.symbols builtins).map Symbol.members? = (List.range' 1 13).map some := by
  decide +kernel

theorem size_initial : initial.scopes.size = 14 := by
  decide +kernel

/-- The builtin scopes are the first ones. -/
theorem builtin_iff {s : Nat} : Builtin s ↔ s < initial.scopes.size := by
  have hmembers : (∃ x ∈ initial.scopes.symbols builtins, x.members? = some s) ↔ 1 ≤ s ∧ s < 14 := by
    rw [← List.mem_map, members?_initial, List.mem_map]
    simp
  rw [Builtin, hmembers, size_initial]
  show s = 0 ∨ _ ↔ _
  omega

/-! ### Trees of modules -/

/-- A scope lies in the tree of one module, and of no other one. -/
structure LiesIn (ctx : Context) (s : ScopeId) (m : Module) : Prop where
  /-- The chain of the scope passes the outermost scope of the module. -/
  tree : m.root ∈ ctx.scopes.chain s
  /-- It passes the outermost scope of no other module. -/
  only : ∀ m' ∈ ctx.modules, m'.root ∈ ctx.scopes.chain s → m' = m
  /-- Behind that scope there are the builtin types, and nothing else. -/
  ends : [m.root, builtins] <:+ ctx.scopes.chain s
  /-- A name that is looked up from the scope is builtin, or declared in the tree. -/
  lookup : ∀ {name t x}, ctx.scopes.locate? s name = some (t, x) →
    t = builtins ∨ m.root ∈ ctx.scopes.chain t

variable {ctx d : Context} {m : Module} {W : List Deed}

theorem Linked.liesIn (hl : ctx.Linked) (hm : m ∈ ctx.modules) {s : ScopeId}
    (hs : m.root ∈ ctx.scopes.chain s) : ctx.LiesIn s m where
  tree := hs
  only _ hm' hs' := hl.eq_of_mem_chain hm' hm hs' hs
  ends := ScopeForest.chain_of_root hl.scopes (hl.root m hm) ▸ ScopeForest.chain_suffix hl.scopes hs
  lookup hlocate := (ScopeForest.mem_chain_or_eq_zero hl.scopes (hl.root m hm) hs
    (ScopeForest.mem_chain_of_locate? hlocate).1).symm

/-- Every scope behind the builtin ones lies in the tree of a module. -/
structure Sheltered (ctx : Context) : Prop where
  /-- No builtin scope is closed. -/
  size_le : initial.scopes.size ≤ ctx.scopes.size
  /-- The outermost scope of a module is not builtin. -/
  apart : ∀ {m}, ctx.Knows m → initial.scopes.size ≤ m.root
  /-- A scope that is not builtin lies in the tree of a module. -/
  housed : ∀ s : Nat, initial.scopes.size ≤ s → s < ctx.scopes.size → ∃ m, ctx.Encloses m s

/-- A context that another one can turn into with every scope in the tree of a module. -/
structure Shelters (ctx d : Context) : Prop where
  /-- Nothing gets lost. -/
  onward : ctx.Extends d
  /-- A scope that is opened lies in the tree of a module. -/
  opened : ∀ t : Nat, ctx.scopes.size ≤ t → t < d.scopes.size → ∃ m, d.Encloses m t
  /-- The outermost scope of a module was one before, or is opened. -/
  roots : ∀ m, d.Knows m → (∃ m₀, ctx.Knows m₀ ∧ m₀.root = m.root) ∨ ctx.scopes.size ≤ m.root

theorem Sheltered.later (h : ctx.Sheltered) (hd : ctx.Shelters d) : d.Sheltered where
  size_le := h.size_le.trans hd.onward.scopes.size_le
  apart {m} hm := by
    rcases hd.roots m hm with ⟨m₀, hm₀, hroot⟩ | hle
    · exact hroot ▸ h.apart hm₀
    · exact h.size_le.trans hle
  housed s hs hsize := by
    by_cases hlt : s < ctx.scopes.size
    · obtain ⟨m, hm⟩ := h.housed s hs hlt
      exact ⟨m, hm.later hd.onward⟩
    · exact hd.opened s (Nat.le_of_not_lt hlt) hsize

/-! ### What shelters scopes -/

/-- Registering and importing modules opens no scope but outermost ones. -/
theorem Enrols.shelters (h : ctx.Enrols d) : ctx.Shelters d where
  onward := h.onward
  opened t ht ht' := by
    obtain ⟨m, hm, rfl⟩ := h.founds.opened t ht ht'
    exact ⟨m, hm, ScopeForest.mem_chain_self ht'⟩
  roots := h.founds.roots

/-- Giving types to names opens no scope at all. -/
theorem Leads.shelters {target : Phase} (h : ctx.Leads target d) (hl : ctx.Linked) :
    ctx.Shelters d where
  onward := h.toPasses.toExtends hl
  opened t ht ht' := by
    have hsize : d.scopes.size = ctx.scopes.size := by
      rw [← ScopeForest.size_untyped, h.untyped, ScopeForest.size_untyped]
    omega
  roots m hm := by
    obtain ⟨m', hm', -, hroot, -⟩ := hm.exists_mem
    obtain ⟨m₀, hm₀, p, -, rfl⟩ := h.toPasses.exists_mem hl hm'
    exact Or.inl ⟨m₀, knows_of_module? (hl.module?_of_mem hm₀), hroot⟩

/-! ### Isolation -/

/-- Modules are isolated, and have been in all that has been done. -/
structure Isolated (W : List Deed) (ctx : Context) : Prop extends ctx.Sheltered where
  /-- Nothing is declared beside the builtin types, and no type of theirs has changed. -/
  builtin : ∀ s, Builtin s → ctx.scopes.symbols s = initial.scopes.symbols s
  /-- No name has changed but by a visit. -/
  trail : Deed.Trail initial.scopes W ctx.scopes
  /-- The visits on the walk over a module have changed names in its tree only. -/
  confined : ∀ x ∈ W, ∃ m, ctx.Knows m ∧ m.key = x.key ∧ x.StaysIn m.root

/-- In the beginning there are the builtin scopes and no modules. -/
theorem isolated_initial : initial.Isolated [] where
  size_le := le_refl _
  apart := by
    rintro m ⟨p, -, hm⟩
    cases hm
  housed s hs hs' := by omega
  builtin _ _ := rfl
  trail := .start fun _ => rfl
  confined := nofun

namespace Isolated

/-- Where no name changes, modules stay isolated. -/
theorem same (h : ctx.Isolated W) (hd : ctx.Shelters d)
    (hsame : ∀ t, d.scopes.symbols t = ctx.scopes.symbols t) : d.Isolated W where
  toSheltered := h.toSheltered.later hd
  builtin s hs := (hsame s).trans (h.builtin s hs)
  trail := h.trail.same hsame
  confined x hx := by
    obtain ⟨m, hm, hrest⟩ := h.confined x hx
    exact ⟨m, hd.onward.modules hm, hrest⟩

/-- A visit that changes names in the tree of its module only keeps modules isolated. -/
theorem visit (h : ctx.Isolated W) (hl : d.Linked) (hm : ctx.Knows m) (hd : ctx.Shelters d)
    (houtside : ∀ t, m.root ∉ d.scopes.chain t → d.scopes.symbols t = ctx.scopes.symbols t) :
    d.Isolated (W ++ [⟨m.key, ctx.scopes, d.scopes⟩]) where
  toSheltered := h.toSheltered.later hd
  builtin s hs := by
    refine (houtside s fun hmem => ?_).trans (h.builtin s hs)
    -- The outermost scope of the module was opened behind the builtin ones.
    have hlt := builtin_iff.mp hs
    have hle := h.apart hm
    have := ScopeForest.le_of_mem_chain hl.scopes hmem
    omega
  trail := .deed h.trail fun _ => rfl
  confined := by
    rw [List.forall_mem_append, List.forall_mem_singleton]
    refine ⟨fun x hx => ?_, m, hd.onward.modules hm, rfl, houtside⟩
    obtain ⟨m', hm', hrest⟩ := h.confined x hx
    exact ⟨m', hd.onward.modules hm', hrest⟩

end Isolated

end Context

end Sable
