import Sable.Proofs.Compilation.Populated
import Sable.Proofs.Scope.Binding

/-!
# Members of one name

Just the names of functions, methods and types get a scope for their members, and a scope that is
opened for the members of a name gets a number of its own. So whatever is done to a compilation, no
two names share the scope of their members, and a scope that holds the members of a name tells the
name.

Walks stay outside of the scopes that hold the members of types. So what is declared in such a scope
is a field, by the declaration that the scope has been opened for, or a method.
-/

namespace Sable

namespace ScopeForest

/-- The scopes of members belong to names of the kinds that have members, each to one name. -/
structure Owned (F : ScopeForest) : Prop where
  /-- Just the kinds with members have a scope for them. -/
  isSome : ∀ {s x}, x ∈ F.declarations s → x.members?.isSome = x.kind.opensScope
  /-- The scope of the members of a name is open. -/
  lt_size : ∀ {s x t}, x ∈ F.declarations s → x.members? = some t → t < F.size
  /-- No two names share the scope of their members. -/
  owner : ∀ {s s' x y t}, x ∈ F.declarations s → y ∈ F.declarations s' → x.members? = some t →
    y.members? = some t → s = s' ∧ x = y

variable {F G : ScopeForest} {s : ScopeId}

namespace Owned

/-- Where nothing is declared, scopes go on to be owned. -/
theorem of_same (h : F.Owned) (hsize : F.size ≤ G.size)
    (hsame : ∀ s, G.declarations s = F.declarations s) : G.Owned where
  isSome hx := h.isSome (hsame _ ▸ hx)
  lt_size hx ht := (h.lt_size (hsame _ ▸ hx) ht).trans_le hsize
  owner hx hy := h.owner (hsame _ ▸ hx) (hsame _ ▸ hy)

theorem openScope (h : F.Owned) (parent? : Option ScopeId) (kind : ScopeKind) :
    (F.openScope parent? kind).2.Owned :=
  h.of_same (precedes_openScope ..).size_le fun _ =>
    congrArg (List.map Symbol.untyped) (symbols_openScope ..)

/-- A new name may be declared whose members are open, and are those of no other name. -/
private theorem addSymbol (h : F.Owned) {x : Symbol}
    (hkind : x.members?.isSome = x.kind.opensScope) (hopen : ∀ t ∈ x.members?, t < F.size)
    (hfresh : ∀ t ∈ x.members?, ∀ s', ∀ y ∈ F.declarations s', y.members? ≠ some t) :
    (F.modify s fun scope => { scope with symbols := scope.symbols ++ [x] }).Owned := by
  have hadded : ∀ {t y}, y ∈ (F.modify s fun scope =>
      { scope with symbols := scope.symbols ++ [x] }).declarations t →
      y ∈ F.declarations t ∨ (t = s ∧ y = x.untyped) := by
    intro t y hy
    rw [declarations_addSymbol] at hy
    rcases List.mem_append.mp hy with hy | hy
    · exact Or.inl hy
    · split at hy
      · next ht => exact Or.inr ⟨ht.1, List.mem_singleton.mp hy⟩
      · cases hy
  constructor
  · intro t y hy
    rcases hadded hy with hy | ⟨-, rfl⟩
    · exact h.isSome hy
    · exact hkind
  · intro t y u hy hu
    rw [size_modify]
    rcases hadded hy with hy | ⟨-, rfl⟩
    · exact h.lt_size hy hu
    · exact hopen u hu
  · intro t t' y z u hy hz hyu hzu
    rcases hadded hy with hyold | ⟨rfl, rfl⟩
    · rcases hadded hz with hzold | ⟨rfl, rfl⟩
      · exact h.owner hyold hzold hyu hzu
      · exact absurd hyu (hfresh u hzu t y hyold)
    · rcases hadded hz with hzold | ⟨rfl, rfl⟩
      · exact absurd hzu (hfresh u hyu t' z hzold)
      · exact ⟨rfl, rfl⟩

/-- A declaration opens a scope of its own for the members of its name. -/
theorem declare (h : F.Owned) {name : Ident} {kind : SymbolKind} {ty? : Option Ty}
    {members? : Option ScopeId} (hd : F.declare s name kind ty? = .ok (members?, G)) : G.Owned := by
  unfold ScopeForest.declare at hd
  split at hd
  · cases hd
  cases hkind : kind.opensScope
  · simp only [hkind, Bool.false_eq_true, ↓reduceIte] at hd
    obtain ⟨rfl, rfl⟩ := Prod.mk.inj (Except.ok.inj hd)
    exact h.addSymbol hkind.symm nofun nofun
  · simp only [hkind, ↓reduceIte] at hd
    obtain ⟨rfl, rfl⟩ := Prod.mk.inj (Except.ok.inj hd)
    refine (h.openScope (some s) kind.memberScopeKind).addSymbol hkind.symm ?_ ?_
    · rintro t ⟨⟩
      exact (Nat.lt_succ_self F.size).trans_eq (size_openScope ..).symm
    · rintro t ⟨⟩ s' y hy hyt
      -- Before it was opened, no scope of that number could belong to a name.
      rw [declarations, symbols_openScope] at hy
      exact absurd (h.lt_size hy hyt) (lt_irrefl F.size)

theorem declarePrimitives (h : F.Owned) (s : ScopeId) (ps : List Primitive) :
    (F.declarePrimitives s ps).2.Owned := by
  induction ps generalizing F with
  | nil => exact h
  | cons p ps ih =>
    simp only [ScopeForest.declarePrimitives]
    split
    · exact h
    · next hd => exact ih (h.declare hd)

end Owned

theorem owned_empty : empty.Owned := by
  constructor <;> simp [empty, declarations, symbols, scope?]

/-- No scope declares a name twice. -/
def Unambiguous (F : ScopeForest) : Prop := ∀ s, ((F.declarations s).map Symbol.name).Nodup

namespace Unambiguous

theorem of_same (h : F.Unambiguous) (hsame : ∀ s, G.declarations s = F.declarations s) :
    G.Unambiguous := fun s => hsame s ▸ h s

/-- A name is declared only where it has not been declared. -/
theorem declare (h : F.Unambiguous) {name : Ident} {kind : SymbolKind} {ty? : Option Ty}
    {members? : Option ScopeId} (hd : F.declare s name kind ty? = .ok (members?, G)) :
    G.Unambiguous := by
  have hnone := symbol?_eq_none_of_declare hd
  have hadd : ∀ {H : ScopeForest} (x : Symbol), (∀ t, H.symbols t = F.symbols t) →
      x.name = name.name →
      (H.modify s fun scope => { scope with symbols := scope.symbols ++ [x] }).Unambiguous := by
    intro H x hH hx t
    rw [declarations_addSymbol, List.map_append, declarations, hH, ← declarations]
    refine (h t).append ?_ ?_
    · split
      · exact List.nodup_singleton _
      · exact List.nodup_nil
    · split
      · next ht =>
        rw [List.map_singleton, List.disjoint_singleton]
        intro hmem
        obtain ⟨y, hy, hyx⟩ := List.mem_map.mp hmem
        obtain ⟨z, hz, rfl⟩ := List.mem_map.mp hy
        have hfree := symbol?_eq_find? F s name.name ▸ hnone
        refine List.find?_eq_none.mp hfree z (ht.1 ▸ hz) ?_
        exact beq_iff_eq.mpr (hyx.trans hx)
      · exact List.disjoint_nil_right _
  unfold ScopeForest.declare at hd
  split at hd
  · cases hd
  cases hkind : kind.opensScope
  · simp only [hkind, Bool.false_eq_true, ↓reduceIte] at hd
    obtain ⟨rfl, rfl⟩ := Prod.mk.inj (Except.ok.inj hd)
    exact hadd _ (fun _ => rfl) rfl
  · simp only [hkind, ↓reduceIte] at hd
    obtain ⟨rfl, rfl⟩ := Prod.mk.inj (Except.ok.inj hd)
    exact hadd _ (fun _ => symbols_openScope ..) rfl

theorem declarePrimitives (h : F.Unambiguous) (s : ScopeId) (ps : List Primitive) :
    (F.declarePrimitives s ps).2.Unambiguous := by
  induction ps generalizing F with
  | nil => exact h
  | cons p ps ih =>
    simp only [ScopeForest.declarePrimitives]
    split
    · exact h
    · next hd => exact ih (h.declare hd)

/-- What a scope declares is found under its name. -/
theorem symbol?_eq (h : F.Unambiguous) {x : Symbol} (hx : x ∈ F.symbols s) :
    F.symbol? s x.name = some x := by
  have hnodup : ((F.symbols s).map Symbol.name).Nodup := by
    have hs := h s
    rwa [declarations, List.map_map] at hs
  cases hfind : F.symbol? s x.name with
  | none =>
    rw [symbol?_eq_find?] at hfind
    exact absurd (beq_self_eq_true _) (List.find?_eq_none.mp hfind x hx)
  | some y =>
    obtain ⟨hy, hname⟩ := mem_symbols_of_symbol? hfind
    exact congrArg some (List.inj_on_of_nodup_map hnodup hy hx hname)

end Unambiguous

end ScopeForest

namespace Context

/-- In the beginning, each builtin type has members of its own. -/
theorem owned_initial : initial.scopes.Owned :=
  (ScopeForest.owned_empty.openScope none .global).declarePrimitives builtins Primitive.all

/-- In the beginning, no builtin type is declared twice. -/
theorem unambiguous_initial : initial.scopes.Unambiguous := by
  refine ScopeForest.Unambiguous.declarePrimitives (fun s => ?_) builtins Primitive.all
  have hnone : (ScopeForest.empty.openScope none .global).2.declarations s = [] :=
    congrArg (List.map Symbol.untyped) (ScopeForest.symbols_openScope ..)
  rw [hnone]
  exact List.nodup_nil

/-- In the beginning, nothing but the builtin types is declared. -/
theorem declarations_initial {s : ScopeId} (hs : s ≠ 0) : initial.scopes.declarations s = [] := by
  refine (ScopeForest.declarations_declarePrimitives (by simp) hs _).trans ?_
  exact congrArg (List.map Symbol.untyped) (ScopeForest.symbols_openScope ..)

end Context

namespace Compilation

open Context

/--
What depends on the declarations of a forest, and stays true when one more is made in it, is kept by
the passes.
-/
theorem follows_of_declared {P : ScopeForest → Prop}
    (hsame : ∀ {F G}, P F → F.size ≤ G.size → (∀ s, G.declarations s = F.declarations s) → P G)
    (hdeclare : ∀ {F G s name kind members?}, P F →
      F.declare s name kind none = .ok (members?, G) → P G) :
    Follows fun c d => P c.context.scopes → P d.context.scopes where
  refl _ := id
  trans h h' := h' ∘ h
  report _ _ _ := id
  declare hd h := hdeclare h hd
  regraph _ _ := id
  register c key file h := by
    unfold register
    split
    · exact h
    · next hfree =>
      split
      · rw [addModule_eq (Bool.eq_false_iff.mpr hfree)]
        exact hsame h (ScopeForest.precedes_openScope ..).size_le fun _ =>
          congrArg (List.map Symbol.untyped) (ScopeForest.symbols_openScope ..)
      · exact h
  bind hF h := hsame h (ScopeForest.size_addImport hF).ge fun t =>
    congrArg (List.map Symbol.untyped) (ScopeForest.symbols_addImport hF t)
  setPhase c key h := scopes_setPhase c.context key .collected ▸ h
  types c {ctx} hd h := by
    have hsize : ctx.scopes.size = c.context.scopes.size := by
      rw [← ScopeForest.size_untyped, hd.untyped, ScopeForest.size_untyped]
    exact hsame h hsize.ge (ScopeForest.declarations_of_untyped hd.untyped)
  problem _ _ _ := id
  advance c key p h := scopes_setPhase c.context key p ▸ h

/-- The passes leave the scopes of members owned. -/
theorem follows_owned : Follows fun c d => c.context.scopes.Owned → d.context.scopes.Owned :=
  follows_of_declared .of_same fun h => h.declare

/-- The passes declare no name twice. -/
theorem follows_unambiguous :
    Follows fun c d => c.context.scopes.Unambiguous → d.context.scopes.Unambiguous :=
  follows_of_declared (fun h _ => h.of_same) fun h => h.declare

/-- Behind any checks no scope declares a name twice. -/
theorem unambiguous_checkAll (l : Loader) (entries : List Path) :
    (checkAll entries (new l)).context.scopes.Unambiguous :=
  follows_unambiguous.stages.checkAll _ (fun _ _ => id) entries unambiguous_initial

/-- Behind any checks the scopes of members are owned. -/
theorem owned_checkAll (l : Loader) (entries : List Path) :
    (checkAll entries (new l)).context.scopes.Owned :=
  follows_owned.stages.checkAll _ (fun _ _ => id) entries owned_initial

end Compilation

/-! ### What types have for members -/

namespace ScopeForest

/-- A scope holds no members of a type, unless it is a builtin one. -/
def Outer (F : ScopeForest) (s : ScopeId) : Prop :=
  ∀ {u x}, u ≠ 0 → x ∈ F.declarations u → x.kind.isType = true → x.members? ≠ some s

/-- The members of types are methods, and fields that belong to the name of the type. -/
def Furnished (F : ScopeForest) (fieldOf : Ident → Ident → Prop) : Prop :=
  ∀ {u x t y}, u ≠ 0 → x ∈ F.declarations u → x.kind.isType = true → x.members? = some t →
    y ∈ F.declarations t →
      y.kind = .method ∨ (y.kind = .field ∧ fieldOf ⟨x.name, x.span⟩ ⟨y.name, y.span⟩)

/-- A name may be declared in a scope, since it would be furnished all the same. -/
def Suits (F : ScopeForest) (fieldOf : Ident → Ident → Prop) (s : ScopeId) (kind : SymbolKind)
    (name : Ident) : Prop :=
  F.Outer s ∨ kind = .method ∨ (kind = .field ∧
    ∃ u x, x ∈ F.declarations u ∧ x.members? = some s ∧ fieldOf ⟨x.name, x.span⟩ name)

variable {F G : ScopeForest} {s t : ScopeId} {name : Ident} {kind : SymbolKind} {ty? : Option Ty}
  {members? : Option ScopeId} {fieldOf fieldOf' : Ident → Ident → Prop}

/-- Where nothing is declared, scopes go on to be furnished. -/
theorem Furnished.of_same (h : F.Furnished fieldOf)
    (hsame : ∀ s, G.declarations s = F.declarations s)
    (himp : ∀ x y, fieldOf x y → fieldOf' x y) : G.Furnished fieldOf' :=
  fun hu hx htype ht hy => (h hu (hsame _ ▸ hx) htype ht (hsame _ ▸ hy)).imp_right
    (And.imp_right (himp _ _))

/-- Where nothing is declared, the same scopes are outer ones. -/
theorem Outer.of_same (h : F.Outer s) (hsame : ∀ s, G.declarations s = F.declarations s) :
    G.Outer s := fun hu hx => h hu (hsame _ ▸ hx)

/-- The members of a declared name lie in a scope that has been opened for them. -/
private theorem eq_size_of_declare (h : F.declare s name kind ty? = .ok (members?, G))
    (ht : members? = some t) : t = F.size := by
  unfold declare at h
  split at h
  · cases h
  · cases hkind : kind.opensScope
    · simp only [hkind, Bool.false_eq_true, ↓reduceIte] at h
      obtain ⟨rfl, -⟩ := Prod.mk.inj (Except.ok.inj h)
      cases ht
    · simp only [hkind, ↓reduceIte] at h
      obtain ⟨rfl, -⟩ := Prod.mk.inj (Except.ok.inj h)
      exact (Option.some.inj ht).symm

section

variable (howned : F.Owned) (hs : s < F.size) (hd : F.declare s name kind ty? = .ok (members?, G))
include howned hs hd

/-- A declared name is new, and so is the scope of its members. -/
private theorem mem_declarations_declare {x : Symbol} {u : ScopeId} (hx : x ∈ G.declarations u) :
    (x ∈ F.declarations u ∧ ∀ t ∈ x.members?, t < F.size) ∨
      (u = s ∧ x = ⟨name.name, kind, none, name.span, members?⟩ ∧
        ∀ t ∈ x.members?, t = F.size) := by
  rw [declarations_declare hs hd] at hx
  rcases List.mem_append.mp hx with hx | hx
  · exact Or.inl ⟨hx, fun t ht => howned.lt_size hx ht⟩
  · split at hx
    · next hu =>
      obtain rfl := List.mem_singleton.mp hx
      exact Or.inr ⟨hu, rfl, fun t ht => eq_size_of_declare hd ht⟩
    · cases hx

/-- A name that suits its scope leaves scopes furnished. -/
theorem Furnished.declare (h : F.Furnished fieldOf) (hsuits : F.Suits fieldOf s kind name) :
    G.Furnished fieldOf := by
  intro u x t y hu hx htype ht hy
  rcases mem_declarations_declare howned hs hd hx with ⟨hx, hlt⟩ | ⟨rfl, -, hfresh⟩ <;>
    rcases mem_declarations_declare howned hs hd hy with ⟨hy, -⟩ | ⟨rfl, rfl, -⟩
  · exact h hu hx htype ht hy
  · rcases hsuits with houter | hmethod | ⟨hfield, u', x', hx', ht', hbelongs⟩
    · exact absurd ht (houter hu hx htype)
    · exact Or.inl hmethod
    · obtain ⟨-, rfl⟩ := howned.owner hx hx' ht ht'
      exact Or.inr ⟨hfield, hbelongs⟩
  · -- The scope of the new members is empty.
    have hsize := lt_size_of_mem_declarations hy
    exact absurd (hfresh t ht) hsize.ne
  · exact absurd (hfresh _ ht) hs.ne

/-- An outer scope stays one. -/
theorem Outer.declare {r : ScopeId} (h : F.Outer r) (hr : r < F.size) : G.Outer r := by
  intro u x hu hx htype ht
  rcases mem_declarations_declare howned hs hd hx with ⟨hx, -⟩ | ⟨-, -, hfresh⟩
  · exact h hu hx htype ht
  · exact absurd (hfresh r ht) hr.ne

end

end ScopeForest

namespace Context

/-- A name is that of a field which the declaration of a type states. -/
def FieldOf (ctx : Context) (type field : Ident) : Prop :=
  ∃ p ∈ ctx.modules.map Module.program, ∃ d : TypeDecl, (Step.stop (.typeDecl d)).Occurs p.steps ∧
    d.name = type ∧ field ∈ d.fieldNames

/-- Trees hold what programs declare, and types have no members but their own. -/
structure Furnished (ctx : Context) : Prop where
  /-- The trees of modules hold what their programs declare. -/
  populated : ctx.Populated
  /-- The scopes of members belong to one name each. -/
  owned : ctx.scopes.Owned
  /-- The members of types are their fields and methods. -/
  members : ctx.scopes.Furnished ctx.FieldOf

/-- Modules stay registered, scopes stay where they are, and outer ones stay outer ones. -/
structure Houses (ctx d : Context) : Prop extends ctx.Continues d where
  /-- Scopes and names stay. -/
  scopes : ctx.scopes.Precedes d.scopes
  /-- A scope that holds no members of a type comes to hold none. -/
  outer : ∀ r < ctx.scopes.size, ctx.scopes.Outer r → d.scopes.Outer r

variable {ctx d e : Context} {m : Module} {s : ScopeId}

theorem Houses.refl (ctx : Context) : ctx.Houses ctx := ⟨.refl ctx, .refl _, fun _ _ => id⟩

theorem Houses.trans (h : ctx.Houses d) (h' : d.Houses e) : ctx.Houses e :=
  ⟨h.toContinues.trans h'.toContinues, h.scopes.trans h'.scopes,
    fun r hr => h'.outer r (hr.trans_le h.scopes.size_le) ∘ h.outer r hr⟩

theorem FieldOf.later {x y : Ident} (h : ctx.FieldOf x y) (hd : ctx.Continues d) :
    d.FieldOf x y := by
  obtain ⟨p, hp, hfield⟩ := h
  refine ⟨p, ?_, hfield⟩
  obtain ⟨m, hm, rfl⟩ := List.mem_map.mp hp
  obtain ⟨m', hm', hblank⟩ := List.mem_map.mp (hd.modules (List.mem_map_of_mem hm))
  have hprogram := congrArg Module.program hblank
  exact List.mem_map.mpr ⟨m', hm', hprogram⟩

/-- Where nothing is declared, what is populated stays furnished. -/
theorem Furnished.grow (h : ctx.Furnished) (hd : d.Populated) (hcontinues : ctx.Continues d)
    (hscopes : ctx.scopes.Precedes d.scopes)
    (hsame : ∀ s, d.scopes.declarations s = ctx.scopes.declarations s) :
    d.Furnished ∧ ctx.Houses d :=
  ⟨⟨hd, h.owned.of_same hscopes.size_le hsame, ScopeForest.Furnished.of_same h.members hsame
    fun _ _ hfield => hfield.later hcontinues⟩, hcontinues, hscopes, fun _ _ houter =>
      ScopeForest.Outer.of_same houter hsame⟩

/-- A scope in the tree of a module that holds no members of a type. -/
structure Roams (ctx : Context) (m : Module) (s : ScopeId) : Prop where
  /-- It lies in the tree. -/
  inside : ctx.Inside m s
  /-- It holds no members of a type. -/
  outer : ctx.scopes.Outer s

theorem Roams.later (h : ctx.Roams m s) (hd : ctx.Houses d) : d.Roams m s :=
  ⟨h.inside.later hd.toContinues,
    hd.outer s (ScopeForest.lt_size_of_mem_chain h.inside.2) h.outer⟩

end Context

namespace Compilation

open Context

variable {c d e : Compilation} {m : Module} {s : ScopeId} {kind : SymbolKind} {name : Ident}
  {names : List Ident}

/-- What is furnished stays so, with its modules and scopes. -/
def Furnishes (c d : Compilation) : Prop :=
  c.context.Furnished → d.context.Furnished ∧ c.context.Houses d.context

theorem Furnishes.trans (h : Furnishes c d) (h' : Furnishes d e) : Furnishes c e := fun hc =>
  ⟨(h' (h hc).1).1, (h hc).2.trans (h' (h hc).1).2⟩

/-- What comes of opening a scope for the members of a name in the tree of a module. -/
structure Opened (c : Compilation) (m : Module) (kind : SymbolKind) (name : Ident)
    (r : Option ScopeId × Compilation) : Prop where
  /-- What is furnished stays so. -/
  furnished : r.2.context.Furnished
  /-- Scopes stay where they are. -/
  houses : c.context.Houses r.2.context
  /-- The scope lies in the tree. -/
  inside : ∀ t ∈ r.1, r.2.context.Inside m t
  /-- It holds no members of a type, if the name is not one. -/
  outer : kind.isType = false → ∀ t ∈ r.1, r.2.context.scopes.Outer t
  /-- It holds the members of the name. -/
  owner : ∀ t ∈ r.1, ∃ u x, x ∈ r.2.context.scopes.declarations u ∧ x.members? = some t ∧
    (⟨x.name, x.span⟩ : Ident) = name

section

variable (hc : c.context.Furnished)
include hc

variable (hs : c.context.Roams m s)
include hs

end

end Compilation

end Sable
