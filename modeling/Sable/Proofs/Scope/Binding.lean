import Sable.Proofs.Module.Declarations
import Sable.Proofs.Related
import Sable.Proofs.Scope.Lookup
import Sable.Proofs.Scope.Typed

/-!
# What declarations bind

A tree of scopes that has been filled by a list of declarations binds a name in a scope just if some
declaration of the list is one of the name in the scope, and the binding is that of the first such
declaration. The tree goes on to be filled by the list, with one more declaration, when one more name
is declared in it.
-/

namespace Sable

/-- A name is bound as a declaration of it says, and has no type yet. -/
structure Declaration.Binds (d : Declaration) (x : Symbol) : Prop where
  /-- The binding has the kind of the declaration. -/
  kind : x.kind = d.kind
  /-- The binding points to the declaration. -/
  span : x.span = d.name.span
  /-- No type is known. -/
  untyped : x.ty? = none

namespace ScopeForest

variable {F G H : ScopeForest} {r s t : ScopeId} {D : List Declaration}

/-! ### Declared names -/

/-- A declared name is bound as the declaration says, and no other name is. -/
theorem symbol?_declare {name : Ident} {kind : SymbolKind} {ty? : Option Ty}
    {members? : Option ScopeId} (hs : s < F.size)
    (h : F.declare s name kind ty? = .ok (members?, G)) (t : ScopeId) (other : String) :
    G.symbol? t other =
      if t = s ∧ other = name.name then some ⟨name.name, kind, ty?, name.span, members?⟩
      else F.symbol? t other := by
  have hnone := symbol?_eq_none_of_declare h
  unfold declare at h
  split at h
  · cases h
  -- Whether a scope is opened for members or not, the name stands behind those of its scope.
  have hadd : ∀ {H : ScopeForest}, (∀ u, H.symbols u = F.symbols u) → s < H.size →
      (H.modify s fun scope => { scope with symbols := scope.symbols ++
        [⟨name.name, kind, ty?, name.span, members?⟩] }).symbol? t other =
      if t = s ∧ other = name.name then some ⟨name.name, kind, ty?, name.span, members?⟩
      else F.symbol? t other := by
    intro H hH hlt
    rw [symbol?_eq_find?, symbols_addSymbol, hH, List.find?_append, ← symbol?_eq_find?]
    by_cases ht : t = s
    · subst ht
      by_cases hother : other = name.name
      · simp [hlt, hother, hnone]
      · simp [hlt, hother, Ne.symm hother]
    · simp [ht]
  cases hkind : kind.opensScope
  · simp only [hkind, Bool.false_eq_true, ↓reduceIte] at h
    obtain ⟨rfl, rfl⟩ := Prod.mk.inj (Except.ok.inj h)
    exact hadd (fun _ => rfl) hs
  · simp only [hkind, ↓reduceIte] at h
    obtain ⟨rfl, rfl⟩ := Prod.mk.inj (Except.ok.inj h)
    exact hadd (fun _ => symbols_openScope ..) (size_openScope .. ▸ Nat.lt_succ_of_lt hs)

/-- The members of what a name is bound to go on to be where they are. -/
theorem Precedes.membersOf?_eq (h : F.Precedes G) {name : String} {x : Symbol}
    (hx : F.symbol? s name = some x) : G.membersOf? s name = x.members? := by
  obtain ⟨y, hy, hsame⟩ := h.exists_symbol? hx
  rw [membersOf?, hy, Option.bind_some]
  exact (Symbol.mk.inj hsame).2.2.2.2

/-! ### Trees that are filled -/

/-- The tree of a scope goes on to hold the same scopes and the same names. -/
structure KeepsTree (F : ScopeForest) (r : ScopeId) (G : ScopeForest) : Prop where
  /-- No scope leaves the tree. -/
  onward : ∀ t, r ∈ F.chain t → r ∈ G.chain t
  /-- No scope is opened in the tree, and no name changes there. -/
  symbols : ∀ t, r ∈ G.chain t → r ∈ F.chain t ∧ G.symbols t = F.symbols t

theorem KeepsTree.refl (F : ScopeForest) (r : ScopeId) : F.KeepsTree r F :=
  ⟨fun _ ht => ht, fun _ ht => ⟨ht, rfl⟩⟩

theorem KeepsTree.trans (h : F.KeepsTree r G) (h' : G.KeepsTree r H) : F.KeepsTree r H where
  onward t ht := h'.onward t (h.onward t ht)
  symbols t ht := by
    obtain ⟨hmid, hsame'⟩ := h'.symbols t ht
    obtain ⟨hstart, hsame⟩ := h.symbols t hmid
    exact ⟨hstart, hsame'.trans hsame⟩

/-- It does so without the types of the names. -/
theorem KeepsTree.untyped (h : F.KeepsTree r G) : F.untyped.KeepsTree r G.untyped where
  onward t ht := by
    rw [chain_untyped] at ht ⊢
    exact h.onward t ht
  symbols t ht := by
    rw [chain_untyped] at ht ⊢
    obtain ⟨hstart, hsame⟩ := h.symbols t ht
    exact ⟨hstart, by rw [symbols_untyped, symbols_untyped, declarations, hsame, declarations]⟩

/-- The tree of a scope has been filled by a list of declarations, and by nothing else. -/
structure Holds (F : ScopeForest) (r : ScopeId) (D : List Declaration) : Prop where
  /-- The declarations are declarations in the tree. -/
  inside : ∀ d ∈ D, r ∈ F.chain d.scope
  /-- A name is bound as the first declaration of it says. -/
  binds : ∀ t, r ∈ F.chain t → ∀ name,
    Option.Rel Declaration.Binds (Declaration.first? D t name) (F.symbol? t name)

namespace Holds

/-- A tree that binds nothing has been filled by nothing. -/
theorem nil (h : ∀ t, r ∈ F.chain t → ∀ name, F.symbol? t name = none) : F.Holds r [] where
  inside := by simp
  binds t ht name := h t ht name ▸ .none

/-- A name that has been declared is bound. -/
theorem isSome_eq (h : F.Holds r D) (ht : r ∈ F.chain t) (name : String) :
    (F.symbol? t name).isSome = (Declaration.first? D t name).isSome :=
  (isSome_eq_of_rel (h.binds t ht name)).symm

/-- What is declared outside of a tree leaves it as it was. -/
theorem congr (h : F.Holds r D) (hG : F.KeepsTree r G) : G.Holds r D where
  inside d hd := hG.onward _ (h.inside d hd)
  binds t ht name := by
    obtain ⟨ht', hsame⟩ := hG.symbols t ht
    rw [symbol?_eq_find?, hsame, ← symbol?_eq_find?]
    exact h.binds t ht' name

/-- Without the types of its names, the tree is filled by the same declarations. -/
theorem untyped (h : F.Holds r D) : F.untyped.Holds r D where
  inside d hd := by
    rw [chain_untyped]
    exact h.inside d hd
  binds t ht name := by
    rw [chain_untyped] at ht
    rw [symbol?_untyped]
    have hbinds := h.binds t ht name
    generalize Declaration.first? D t name = d, F.symbol? t name = x at hbinds
    cases hbinds with
    | none => exact .none
    | some hbinds => exact .some ⟨hbinds.kind, hbinds.span, rfl⟩

/-- A name that is refused is not declared again. -/
theorem refuse (h : F.Holds r D) {d : Declaration} (hs : r ∈ F.chain d.scope)
    (hd : d.refused D = true) : F.Holds r (D ++ [d]) where
  inside := List.forall_mem_append.mpr ⟨h.inside, List.forall_mem_singleton.mpr hs⟩
  binds t ht name := by
    have hfirst : Declaration.first? (D ++ [d]) t name = Declaration.first? D t name := by
      rw [Declaration.first?_append, Declaration.first?_singleton]
      split
      · next he =>
        obtain ⟨x, hx⟩ := Option.isSome_iff_exists.mp hd
        rw [he.1, he.2, hx, Option.some_or]
      · rw [Option.or_none]
    exact hfirst ▸ h.binds t ht name

/-- A name that is declared is bound from then on. -/
theorem declare (h : F.Holds r D) (hF : F.Sound) (hG : F.Grows G) {d : Declaration}
    (hs : r ∈ F.chain d.scope) {members? : Option ScopeId}
    (hdeclare : F.declare d.scope d.name d.kind none = .ok (members?, G)) :
    G.Holds r (D ++ [d]) where
  inside := by
    refine List.forall_mem_append.mpr ⟨fun e he => ?_, List.forall_mem_singleton.mpr ?_⟩
    · exact hG.mem_chain hF (h.inside e he)
    · exact hG.mem_chain hF hs
  binds t ht name := by
    have hold : Option.Rel Declaration.Binds (Declaration.first? D t name) (F.symbol? t name) := by
      by_cases hlt : t < F.size
      · exact h.binds t (hG.chain_eq hF hlt ▸ ht) name
      · -- In a scope that is new nothing has been declared yet.
        have hnone : F.symbol? t name = none := by
          rw [symbol?, scope?_eq_none (Nat.le_of_not_lt hlt), Option.bind_none]
        have hfirst : Declaration.first? D t name = none := by
          by_contra hsome
          obtain ⟨e, he⟩ := Option.ne_none_iff_exists'.mp hsome
          obtain ⟨hmem, rfl, -⟩ := Declaration.of_first? he
          exact hlt (lt_size_of_mem_chain (h.inside e hmem))
        rw [hnone, hfirst]
        exact .none
    have hfree := symbol?_eq_none_of_declare hdeclare
    rw [symbol?_declare (lt_size_of_mem_chain hs) hdeclare, Declaration.first?_append,
      Declaration.first?_singleton]
    split
    · next he =>
      obtain ⟨rfl, rfl⟩ := he
      rw [hfree] at hold
      generalize Declaration.first? D d.scope d.name.name = x at hold
      cases hold
      exact .some ⟨rfl, rfl, rfl⟩
    · rwa [Option.or_none]

/-! ### Lookups in filled trees -/

/-- What a name means in a filled tree is the nearest declaration of it, unless it is builtin. -/
theorem rel_locate? (h : F.Holds r D) (hF : F.Sound) (hr : F.parent? r = some 0)
    (hs : r ∈ F.chain s) {name : String} (hname : Primitive.ofName? name = none) :
    Option.Rel (fun d y => d.Binds y.2 ∧ d.scope = y.1 ∧ F.symbol? y.1 name = some y.2)
      ((F.chain s).findSome? fun t => Declaration.first? D t name) (F.locate? s name) := by
  have hsame : List.Forall₂ (fun t u => t = u ∧ t ∈ F.chain s) (F.chain s) (F.chain s) :=
    List.forall₂_same.mpr fun t ht => ⟨rfl, ht⟩
  refine rel_findSome? hsame fun {t u} htu => ?_
  obtain ⟨rfl, ht⟩ := htu
  rcases mem_chain_or_eq_zero hF hr hs ht with ht | rfl
  · have hbinds := h.binds t ht name
    generalize hd : Declaration.first? D t name = d, hx : F.symbol? t name = x at hbinds
    cases hbinds with
    | none => exact .none
    | some hbinds => exact .some ⟨hbinds, (Declaration.of_first? hd).2.1, hx⟩
  · -- The builtin types are neither declared nor meant.
    have hnone : F.symbol? 0 name = none := by
      by_contra hsome
      obtain ⟨x, hx⟩ := Option.ne_none_iff_exists'.mp hsome
      obtain ⟨hmem, rfl⟩ := mem_symbols_of_symbol? hx
      have hbuiltin := hF.builtin x hmem
      rw [hname] at hbuiltin
      cases hbuiltin
    have hfirst : Declaration.first? D 0 name = none := by
      by_contra hsome
      obtain ⟨d, hd⟩ := Option.ne_none_iff_exists'.mp hsome
      obtain ⟨hmem, hzero, -⟩ := Declaration.of_first? hd
      exact ne_zero_of_mem_chain hF hr (h.inside d hmem) hzero
    rw [hnone, hfirst]
    exact .none

end Holds

end ScopeForest

end Sable

/-!
## Traces of a declaration

A declaration that is not refused leaves a trace in the scopes for good: the name is bound as it is
declared at its place. A forest that bears no trace of a declaration finds no scope for what stands
inside it.
-/

namespace Sable.ScopeForest

/-- Some scope binds a name as it is declared at its place. -/
def Bears (F : ScopeForest) (x : Ident) : Prop :=
  ∃ s y, F.symbol? s x.name = some y ∧ y.span = x.span

variable {F G : ScopeForest} {s : ScopeId} {x : Ident}

/-! ### Traces stay -/

theorem Precedes.bears (h : F.Precedes G) (hF : F.Bears x) : G.Bears x := by
  obtain ⟨s, y, hy, hspan⟩ := hF
  obtain ⟨z, hz, hsame⟩ := h.exists_symbol? hy
  exact ⟨s, z, hz, (Symbol.mk.inj hsame).2.2.2.1.trans hspan⟩

/-- A scope may be opened anywhere. -/
theorem precedes_openScope (F : ScopeForest) (parent? : Option ScopeId) (kind : ScopeKind) :
    F.Precedes (F.openScope parent? kind).2 := by
  refine ⟨by simp, fun t ht => ?_, fun t => ?_⟩
  · rw [parent?_openScope, if_neg ht.ne]
  · rw [declarations, declarations, symbols_openScope]

/-- A name is declared behind those that were there, whatever scope it is declared in. -/
theorem precedes_declare {name : Ident} {kind : SymbolKind} {ty? : Option Ty}
    {members? : Option ScopeId} (h : F.declare s name kind ty? = .ok (members?, G)) :
    F.Precedes G := by
  have hadd : ∀ (H : ScopeForest) (y : Symbol), H.Precedes
      (H.modify s fun scope => { scope with symbols := scope.symbols ++ [y] }) := fun H y =>
    ⟨(size_modify ..).ge, fun t _ => parent?_modify H s t fun _ => rfl,
      fun t => declarations_addSymbol H s t y ▸ List.prefix_append ..⟩
  unfold declare at h
  split at h
  · cases h
  cases hkind : kind.opensScope
  · simp only [hkind, Bool.false_eq_true, ↓reduceIte] at h
    obtain ⟨-, rfl⟩ := Prod.mk.inj (Except.ok.inj h)
    exact hadd F _
  · simp only [hkind, ↓reduceIte] at h
    obtain ⟨-, rfl⟩ := Prod.mk.inj (Except.ok.inj h)
    exact (precedes_openScope ..).trans (hadd _ _)

/-- An import moves no scope and declares no name. -/
theorem precedes_addImport {b : ImportBinding} (h : F.addImport s b = .ok G) : F.Precedes G := by
  refine ⟨(size_addImport h).ge, fun t _ => ?_, fun t => ?_⟩
  · unfold addImport at h
    split at h
    · split at h <;> cases h
    · split at h
      · cases h
      · cases h
        exact parent?_modify F s t fun _ => rfl
  · rw [declarations, declarations, symbols_addImport h]

/-- A declaration without a trace has no members. -/
theorem declaredMembers?_of_not_bears (h : ¬ F.Bears x) (s : ScopeId) :
    F.declaredMembers? s x = none := by
  unfold declaredMembers?
  split
  · next y hy => exact if_neg fun hspan => h ⟨s, y, hy, hspan⟩
  · rfl

end Sable.ScopeForest
