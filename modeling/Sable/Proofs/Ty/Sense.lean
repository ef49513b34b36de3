import Sable.Proofs.Scope.Chain
import Sable.Proofs.Scope.Lookup
import Sable.Proofs.Scope.Typed
import Sable.Proofs.Ty.Equality
import Sable.Ty.Denote

/-!
# Written types that mean something

Whether a written type means something, and what is wrong with it otherwise, depends on the kinds of
the names in it, and not on what is known of their types. So a written type that means something in
a scope does so in other tables, as long as the chain of the scope shows the same names and imports
there. What it means does not depend on how much is known of the definitions of the types that it
names, but for the definitions of the aliases in it.
-/

namespace Sable

namespace ScopeForest

/-- The type of a name declared in a scope itself, but for definitions. -/
def bareType? (F : ScopeForest) (s : ScopeId) (name : String) : Option Ty :=
  (F.typeOf? s name).map Ty.bare

/-- What a name declared in a scope itself means as a type, but for definitions. -/
def reading (F : ScopeForest) (s : ScopeId) (name : String) : Ty :=
  (F.bareType? s name).getD (.named name none)

end ScopeForest

namespace Ty

variable {F G : ScopeForest} {s : ScopeId}

/-- What is wrong with a written type, if it means none. -/
def fault? {α : Type} : Except TypeError α → Option TypeError
  | .ok _ => none
  | .error e => some e

private theorem fault?_map {α β : Type} (f : α → β) (x : Except TypeError α) :
    fault? (x.map f) = fault? x := by
  cases x <;> rfl

private theorem isOk_eq_of_fault? {α : Type} {x y : Except TypeError α}
    (h : fault? x = fault? y) : x.isOk = y.isOk := by
  cases x <;> cases y <;> first | rfl | cases h

/-- The same names mean types in a scope of two forests, though the types may be different. -/
structure SameSense (F G : ScopeForest) (s : ScopeId) : Prop where
  /-- The same plain names mean types, and the same is wrong with the others. -/
  plain : ∀ name, fault? (ofName G s name) = fault? (ofName F s name)
  /-- The same qualified names mean types, and the same is wrong with the others. -/
  qualified : ∀ module name,
    fault? (ofQualified G s module name) = fault? (ofQualified F s module name)

namespace SameSense

mutual

/-- The same written types mean something, and the same is wrong with the others. -/
theorem fault?_denote (h : SameSense F G s) : ∀ (structName : String) (ty : TypeExpr),
    fault? (denote G s structName ty) = fault? (denote F s structName ty)
  | _, .primitive _ _ => rfl
  | _, .array elem _ => by
    rw [denote, denote, fault?_map, fault?_map]
    exact fault?_denote h _ elem
  | _, .struct fields _ => by
    rw [denote, denote, fault?_map, fault?_map]
    exact fault?_denoteFields h fields
  | _, .function params ret _ => by
    have hparams := fault?_denoteList h params
    have hret := fault?_denoteOption h ret
    rw [denote, denote]
    generalize denoteList G s params = x, denoteList F s params = y at hparams
    cases x <;> cases y <;> cases hparams
    · rfl
    · rw [fault?_map, fault?_map]
      exact hret
  | _, .named name => h.plain name
  | _, .qualified module name _ => h.qualified module name
termination_by structural _ x => x

private theorem fault?_denoteFields (h : SameSense F G s) : ∀ fields : List FieldDecl,
    fault? (denoteFields G s fields) = fault? (denoteFields F s fields)
  | [] => rfl
  | .mk name ty _ :: fields => by
    have hty := fault?_denote h anonymousStruct ty
    have hfields := fault?_denoteFields h fields
    rw [denoteFields, denoteFields]
    generalize denote G s anonymousStruct ty = x, denote F s anonymousStruct ty = y at hty
    cases x <;> cases y <;> cases hty
    · rfl
    · rw [fault?_map, fault?_map]
      exact hfields
termination_by structural x => x

private theorem fault?_denoteList (h : SameSense F G s) : ∀ tys : List TypeExpr,
    fault? (denoteList G s tys) = fault? (denoteList F s tys)
  | [] => rfl
  | ty :: tys => by
    have hty := fault?_denote h anonymousStruct ty
    have htys := fault?_denoteList h tys
    rw [denoteList, denoteList]
    generalize denote G s anonymousStruct ty = x, denote F s anonymousStruct ty = y at hty
    cases x <;> cases y <;> cases hty
    · rfl
    · rw [fault?_map, fault?_map]
      exact htys
termination_by structural x => x

private theorem fault?_denoteOption (h : SameSense F G s) : ∀ ty? : Option TypeExpr,
    fault? (denoteOption G s ty?) = fault? (denoteOption F s ty?)
  | none => rfl
  | some ty => by
    rw [denoteOption, denoteOption, fault?_map, fault?_map]
    exact fault?_denote h anonymousStruct ty
termination_by structural x => x

end

/-- The same declared types mean something, and the same is wrong with the others. -/
theorem fault?_ofTypeDecl (h : SameSense F G s) (name : String) (ty : TypeExpr) :
    fault? (ofTypeDecl G s name ty) = fault? (ofTypeDecl F s name ty) := by
  rw [ofTypeDecl, ofTypeDecl, fault?_map, fault?_map]
  exact h.fault?_denote name ty

/-- The same written types mean something. -/
theorem isOk_denote (h : SameSense F G s) (structName : String) (ty : TypeExpr) :
    (denote G s structName ty).isOk = (denote F s structName ty).isOk :=
  isOk_eq_of_fault? (h.fault?_denote structName ty)

/-- The same declared types mean something. -/
theorem isOk_ofTypeDecl (h : SameSense F G s) (name : String) (ty : TypeExpr) :
    (ofTypeDecl G s name ty).isOk = (ofTypeDecl F s name ty).isOk :=
  isOk_eq_of_fault? (h.fault?_ofTypeDecl name ty)

/-- A declaration names a type or not, whatever type it has. -/
private theorem fault?_ofSymbol (x : Symbol) (name : Ident) :
    fault? (ofSymbol x name) = fault? (ofSymbol x.untyped name) := by
  have hkind : x.untyped.kind = x.kind := rfl
  rw [ofSymbol, ofSymbol, hkind]
  split <;> rfl

private theorem fault?_ofName (F : ScopeForest) (s : ScopeId) (name : Ident) :
    fault? (ofName F s name) =
      ((F.visible? s name.name).map Symbol.untyped).elim (some (.notFound name.name name.span))
        fun x => fault? (ofSymbol x name) := by
  rw [ofName]
  cases F.visible? s name.name with
  | none => rfl
  | some x => exact fault?_ofSymbol x name

private theorem fault?_ofQualified (F : ScopeForest) (s : ScopeId) (module name : Ident) :
    fault? (ofQualified F s module name) =
      (F.visibleImport? s module.name).elim (some (.moduleNotImported module.name module.span))
        fun b => ((F.symbol? b.root name.name).map Symbol.untyped).elim
          (some (.notFoundInModule name.name module.name name.span))
          fun x => fault? (ofSymbol x name) := by
  rw [ofQualified, ScopeForest.importedRoot]
  cases F.visibleImport? s module.name with
  | none => rfl
  | some b =>
    dsimp only [Option.elim_some]
    cases F.symbol? b.root name.name with
    | none => rfl
    | some x => exact fault?_ofSymbol x name

/-- An alias stands for the same module if the chain shows the same imports. -/
private theorem visibleImport?_congr (hchain : G.chain s = F.chain s)
    (h : ∀ t ∈ F.chain s, G.imports t = F.imports t) (aliasName : String) :
    G.visibleImport? s aliasName = F.visibleImport? s aliasName := by
  simp only [ScopeForest.visibleImport?, ScopeForest.import?_scope?, hchain]
  generalize F.chain s = ts at h
  induction ts with
  | nil => rfl
  | cons t ts ih =>
    rw [List.forall_mem_cons] at h
    rw [List.findSome?_cons, List.findSome?_cons, h.1, ih h.2]

/-- The same names mean types where a chain shows the same names and imports. -/
theorem of_chain (hchain : G.chain s = F.chain s)
    (hnames : ∀ t ∈ F.chain s, G.declarations t = F.declarations t)
    (himports : ∀ t ∈ F.chain s, G.imports t = F.imports t)
    (hroots : ∀ t ∈ F.chain s, ∀ b ∈ F.imports t, G.declarations b.root = F.declarations b.root) :
    SameSense F G s where
  plain name := by rw [fault?_ofName, fault?_ofName, ScopeForest.visible?_congr hchain hnames]
  qualified module name := by
    have hsame := visibleImport?_congr hchain himports module.name
    rw [fault?_ofQualified, fault?_ofQualified, hsame]
    cases hb : F.visibleImport? s module.name with
    | none => rfl
    | some b =>
      obtain ⟨t, ht, hmem⟩ := ScopeForest.exists_of_visibleImport? hb
      rw [Option.elim_some, Option.elim_some, ScopeForest.symbol?_congr (hroots t ht b hmem)]

/-- The same names mean types where tables differ in nothing but types. -/
theorem of_untyped (h : G.untyped = F.untyped) (s : ScopeId) : SameSense F G s := by
  have himports : ∀ (H : ScopeForest) t, H.untyped.imports t = H.imports t := fun H t => by
    rw [ScopeForest.imports, ScopeForest.scope?_untyped, ScopeForest.imports]
    cases H.scope? t <;> rfl
  refine of_chain (ScopeForest.chain_of_untyped h s)
    (fun t _ => ScopeForest.declarations_of_untyped h t) (fun t _ => ?_)
    fun _ _ b _ => ScopeForest.declarations_of_untyped h b.root
  rw [← himports, h, himports]

end SameSense

/-! ### Meanings but for definitions -/

theorem bareFields_insertField (name : String) (t : Ty) (fields : List (String × Ty)) :
    bareFields (insertField name t fields) = insertField name t.bare (bareFields fields) := by
  induction fields with
  | nil => rfl
  | cons field fields ih =>
    obtain ⟨other, u⟩ := field
    rw [insertField, bareFields, insertField]
    split
    · rfl
    · split
      · rfl
      · rw [bareFields, ih]

/-- A struct type is bare if its fields are. -/
theorem bare_structOf (name : String) (fields : List (String × Ty)) :
    (structOf name fields).bare = structOf name (bareFields fields) := by
  have hfold : ∀ acc, bareFields (fields.foldl (fun acc f => insertField f.1 f.2 acc) acc) =
      (bareFields fields).foldl (fun acc f => insertField f.1 f.2 acc) (bareFields acc) := by
    induction fields with
    | nil => exact fun _ => rfl
    | cons field fields ih =>
      intro acc
      rw [List.foldl_cons, ih, bareFields_insertField, bareFields, List.foldl_cons]
  exact congrArg (struct name) (hfold [])

/-- The same names mean the same types in a scope of two forests, but for definitions. -/
structure SameMeaning (F G : ScopeForest) (s : ScopeId) : Prop where
  /-- Plain names mean the same but for definitions. -/
  plain : ∀ name, (ofName G s name).map bare = (ofName F s name).map bare
  /-- Qualified names mean the same but for definitions. -/
  qualified : ∀ module name,
    (ofQualified G s module name).map bare = (ofQualified F s module name).map bare

/-- Results with one image are both in error in the same way, or have values with this image. -/
theorem map_eq_map_cases {α β : Type} {x y : Except TypeError α} {f : α → β}
    (h : x.map f = y.map f) :
    (∃ e, x = .error e ∧ y = .error e) ∨ ∃ a b, x = .ok a ∧ y = .ok b ∧ f a = f b := by
  cases x <;> cases y
  · exact Or.inl ⟨_, rfl, congrArg Except.error (Except.error.inj h).symm⟩
  · cases h
  · cases h
  · exact Or.inr ⟨_, _, rfl, rfl, Except.ok.inj h⟩

private theorem bare_ofSymbol {x : Symbol} {name : Ident} (hx : F.symbol? s name.name = some x) :
    (ofSymbol x name).map bare =
      if x.kind.isType then .ok (F.reading s name.name)
      else .error (.notAType name.name name.span) := by
  have hty : F.reading s name.name = (x.ty?.map bare).getD (.named name.name none) := by
    rw [ScopeForest.reading, ScopeForest.bareType?, ScopeForest.typeOf?, hx, Option.bind_some]
  rw [ofSymbol, hty]
  split
  · cases x.ty? <;> rfl
  · rfl

namespace SameMeaning

/-- A name means the same in tables that have the same reading for it if it names a type. -/
private theorem ofSymbol_of_readings (h : G.untyped = F.untyped)
    (hread : ∀ {u name x}, F.symbol? u name = some x → x.kind.isType = true →
      G.reading u name = F.reading u name) {u : ScopeId} {name : Ident} {x y : Symbol}
    (hx : F.symbol? u name.name = some x) (hy : G.symbol? u name.name = some y) :
    (ofSymbol y name).map bare = (ofSymbol x name).map bare := by
  have hsame : y.untyped = x.untyped := by
    have hboth := G.symbol?_untyped u name.name
    rw [h, ScopeForest.symbol?_untyped, hx, hy] at hboth
    exact (Option.some.inj hboth).symm
  have huntyped : y.untyped.kind = x.untyped.kind := congrArg Symbol.kind hsame
  have hkind : y.kind = x.kind := huntyped
  rw [bare_ofSymbol hx, bare_ofSymbol hy, hkind]
  split
  · next htype => rw [hread hx htype]
  · rfl

/-- Names mean the same in tables that have the same readings for all names of types. -/
theorem of_readings (h : G.untyped = F.untyped)
    (hread : ∀ {u name x}, F.symbol? u name = some x → x.kind.isType = true →
      G.reading u name = F.reading u name) (s : ScopeId) : SameMeaning F G s where
  plain name := by
    have hboth := G.locate?_untyped s name.name
    rw [h, ScopeForest.locate?_untyped] at hboth
    simp only [ofName, ScopeForest.visible?]
    cases hF : F.locate? s name.name with
    | none =>
      rw [hF] at hboth
      rw [Option.map_eq_none_iff.mp hboth.symm]
    | some found =>
      obtain ⟨u, x⟩ := found
      rw [hF] at hboth
      obtain ⟨⟨v, y⟩, hG, he⟩ := Option.map_eq_some_iff.mp hboth.symm
      obtain rfl : v = u := congrArg Prod.fst he
      rw [hG]
      exact ofSymbol_of_readings h hread (ScopeForest.mem_chain_of_locate? hF).2
        (ScopeForest.mem_chain_of_locate? hG).2
  qualified module name := by
    have himport : G.importedRoot s module.name = F.importedRoot s module.name := by
      rw [ScopeForest.importedRoot, ← ScopeForest.visibleImport?_untyped, h,
        ScopeForest.visibleImport?_untyped, ScopeForest.importedRoot]
    rw [ofQualified, ofQualified, himport]
    split
    · rfl
    · next root _ =>
      have hboth := G.symbol?_untyped root name.name
      rw [h, ScopeForest.symbol?_untyped] at hboth
      cases hF : F.symbol? root name.name with
      | none =>
        rw [hF] at hboth
        rw [Option.map_eq_none_iff.mp hboth.symm]
      | some x =>
        rw [hF] at hboth
        obtain ⟨y, hG, -⟩ := Option.map_eq_some_iff.mp hboth.symm
        rw [hG]
        exact ofSymbol_of_readings h hread hF hG

mutual

/-- The same written types mean the same but for definitions. -/
theorem bare_denote (h : SameMeaning F G s) : ∀ (structName : String) (ty : TypeExpr),
    (denote G s structName ty).map bare = (denote F s structName ty).map bare
  | _, .primitive _ _ => rfl
  | _, .array elem _ => by
    rw [denote, denote]
    rcases map_eq_map_cases (bare_denote h anonymousStruct elem) with
      ⟨e, hG, hF⟩ | ⟨t, u, hG, hF, htu⟩ <;> rw [hG, hF]
    exact congrArg (Except.ok ∘ array) htu
  | structName, .struct fields _ => by
    rw [denote, denote]
    rcases map_eq_map_cases (bare_denoteFields h fields) with
      ⟨e, hG, hF⟩ | ⟨ts, us, hG, hF, hts⟩ <;> rw [hG, hF]
    exact congrArg Except.ok (by rw [bare_structOf, hts, bare_structOf])
  | _, .function params ret _ => by
    rw [denote, denote]
    rcases map_eq_map_cases (bare_denoteList h params) with
      ⟨e, hG, hF⟩ | ⟨ps, qs, hG, hF, hps⟩ <;> rw [hG, hF]
    dsimp only
    rcases map_eq_map_cases (bare_denoteOption h ret) with
      ⟨e, hG, hF⟩ | ⟨r, r', hG, hF, hr⟩ <;> rw [hG, hF]
    · rfl
    · exact congrArg Except.ok (congrArg₂ function hps hr)
  | _, .named name => h.plain name
  | _, .qualified module name _ => h.qualified module name
termination_by structural _ x => x

/-- The same fields have the same types but for definitions. -/
theorem bare_denoteFields (h : SameMeaning F G s) : ∀ fields : List FieldDecl,
    (denoteFields G s fields).map bareFields = (denoteFields F s fields).map bareFields
  | [] => rfl
  | .mk name ty _ :: fields => by
    rw [denoteFields, denoteFields]
    rcases map_eq_map_cases (bare_denote h anonymousStruct ty) with
      ⟨e, hG, hF⟩ | ⟨t, u, hG, hF, htu⟩ <;> rw [hG, hF]
    dsimp only
    rcases map_eq_map_cases (bare_denoteFields h fields) with
      ⟨e, hG, hF⟩ | ⟨ts, us, hG, hF, hts⟩ <;> rw [hG, hF]
    · rfl
    · exact congrArg Except.ok (congrArg₂ (fun t ts => (name.name, t) :: ts) htu hts)
termination_by structural x => x

private theorem bare_denoteList (h : SameMeaning F G s) : ∀ tys : List TypeExpr,
    (denoteList G s tys).map bareList = (denoteList F s tys).map bareList
  | [] => rfl
  | ty :: tys => by
    rw [denoteList, denoteList]
    rcases map_eq_map_cases (bare_denote h anonymousStruct ty) with
      ⟨e, hG, hF⟩ | ⟨t, u, hG, hF, htu⟩ <;> rw [hG, hF]
    dsimp only
    rcases map_eq_map_cases (bare_denoteList h tys) with
      ⟨e, hG, hF⟩ | ⟨ts, us, hG, hF, hts⟩ <;> rw [hG, hF]
    · rfl
    · exact congrArg Except.ok (congrArg₂ List.cons htu hts)
termination_by structural x => x

private theorem bare_denoteOption (h : SameMeaning F G s) : ∀ ty? : Option TypeExpr,
    (denoteOption G s ty?).map bareOption = (denoteOption F s ty?).map bareOption
  | none => rfl
  | some ty => by
    rw [denoteOption, denoteOption]
    rcases map_eq_map_cases (bare_denote h anonymousStruct ty) with
      ⟨e, hG, hF⟩ | ⟨t, u, hG, hF, htu⟩ <;> rw [hG, hF]
    exact congrArg (Except.ok ∘ some) htu
termination_by structural x => x

end

/-- A declared struct type has the same fields, with the same types but for definitions. -/
theorem bareFields_of_ofTypeDecl (h : SameMeaning F G s) {name : String} {fields : List FieldDecl}
    {span : Span} {t u : Ty} (ht : ofTypeDecl F s name (.struct fields span) = .ok t)
    (hu : ofTypeDecl G s name (.struct fields span) = .ok u) :
    ∃ ts us, t.unwrap = .struct name ts ∧ u.unwrap = .struct name us ∧
      bareFields us = bareFields ts := by
  have hfields := h.bare_denoteFields fields
  simp only [ofTypeDecl, denote] at ht hu
  generalize denoteFields F s fields = x, denoteFields G s fields = y at ht hu hfields
  cases x <;> cases y <;> cases ht <;> cases hu
  next ts us =>
  refine ⟨_, _, rfl, rfl, ?_⟩
  have hstruct : (structOf name us).bare = (structOf name ts).bare := by
    rw [bare_structOf, bare_structOf, Except.ok.inj hfields]
  exact (Ty.struct.inj hstruct).2

end SameMeaning

end Ty

end Sable
