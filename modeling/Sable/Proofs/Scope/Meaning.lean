import Sable.Proofs.Scope.Alike
import Sable.Proofs.Syntax.Paired
import Sable.Ty.Denote

/-!
# What written types mean in forests that tally

A written type means the same in forests that tally, or fails to mean anything for the same reason.
Of the names behind the alias of a module, only the types of types have to be the same.
-/

namespace Sable

/-- The same error twice, in related places. -/
structure TypeError.Alike (N : Span → Span → Prop) (e f : TypeError) : Prop where
  /-- The wordings are equal. -/
  message : e.message = f.message
  /-- The places are related. -/
  span : N e.span f.span

namespace Ty

variable {N R T : Span → Span → Prop} {K : ScopeId → ScopeId → Prop} {looked : SymbolKind → Prop}
  {F G : ScopeForest} {s t : ScopeId}

/-- A name means the same type, or fails to mean one for the same reason. -/
theorem outcomes_ofSymbol {x y : Symbol} (hxy : x.Reads looked y)
    (hlooked : ∀ k, k.isType = true → looked k) (hN : T ≤ N) {name name' : Ident}
    (hname : name.Alike T name') :
    Outcomes (TypeError.Alike N) Eq (ofSymbol x name) (ofSymbol y name') := by
  rw [ofSymbol, ofSymbol, ← hxy.kind, hname.name]
  split
  · next htype => exact .ok (by rw [hxy.ty? (hlooked _ htype)])
  · exact .error ⟨rfl, hN _ _ hname.span⟩

section

variable (h : F.Tallies R K looked G) (hlooked : ∀ k, k.isType = true → looked k) (hN : T ≤ N)
include h hlooked hN

set_option linter.unusedSectionVars false

theorem outcomes_ofName (hst : K s t) {name name' : Ident} (hname : name.Alike T name') :
    Outcomes (TypeError.Alike N) Eq (ofName F s name) (ofName G t name') := by
  have hx := h.visible? hst name.name
  rw [ofName, ofName, ← hname.name]
  generalize F.visible? s name.name = x?, G.visible? t name.name = y? at hx
  cases hx with
  | none => exact .error ⟨rfl, hN _ _ hname.span⟩
  | some hxy => exact outcomes_ofSymbol (hxy.reads looked) hlooked hN hname

theorem outcomes_ofQualified (hst : K s t) {module module' name name' : Ident}
    (hmodule : module.Alike T module') (hname : name.Alike T name') :
    Outcomes (TypeError.Alike N) Eq (ofQualified F s module name)
      (ofQualified G t module' name') := by
  have hx := h.qualified hst module.name name.name
  rw [ofQualified, ofQualified, ← hmodule.name, ← hname.name]
  generalize F.importedRoot s module.name = r, G.importedRoot t module.name = r' at hx
  cases r with
  | error e =>
    cases r' with
    | error e' => exact .error ⟨rfl, hN _ _ hmodule.span⟩
    | ok root' => cases hx
  | ok root =>
    cases r' with
    | error e' => cases hx
    | ok root' =>
      have hx : Option.Rel (Symbol.Reads looked) (F.symbol? root name.name)
          (G.symbol? root' name.name) := by
        cases hx with
        | ok hx => exact hx
      dsimp only
      generalize F.symbol? root name.name = x?, G.symbol? root' name.name = y? at hx
      cases hx with
      | none => exact .error ⟨rfl, hN _ _ hname.span⟩
      | some hxy => exact outcomes_ofSymbol hxy hlooked hN hname

mutual

/-- A written type means the same type, or fails to mean one for the same reason. -/
theorem outcomes_denote (hst : K s t) : ∀ (structName : String) {ty ty' : TypeExpr},
    ty.Paired N T ty' → Outcomes (TypeError.Alike N) Eq (denote F s structName ty)
      (denote G t structName ty')
  | _, .primitive _ _, _, .primitive _ _ => .ok rfl
  | _, .array _ _, _, .array _ helem => by
    rw [denote, denote]
    exact (outcomes_denote hst _ helem).map fun hab => by rw [hab]
  | _, .struct _ _, _, .struct _ hfields => by
    rw [denote, denote]
    exact (outcomes_denoteFields hst hfields).map fun hab => by rw [hab]
  | _, .function params ret _, .function params' _ _, .function _ hparams hret => by
    have hps := outcomes_denoteList hst hparams
    have hr := outcomes_denoteOption hst hret
    rw [denote, denote]
    generalize denoteList F s params = x, denoteList G t params' = y at hps
    cases hps with
    | error he => exact .error he
    | ok hps => exact hr.map fun hab => by rw [hps, hab]
  | _, .named _, _, .named hname => by
    rw [denote, denote]
    exact outcomes_ofName h hlooked hN hst hname
  | _, .qualified _ _ _, _, .qualified _ hmodule hname => by
    rw [denote, denote]
    exact outcomes_ofQualified h hlooked hN hst hmodule hname
termination_by structural _ x => x

theorem outcomes_denoteFields (hst : K s t) : ∀ {fields fields' : List FieldDecl},
    List.Forall₂ (FieldDecl.Paired N T) fields fields' →
      Outcomes (TypeError.Alike N) Eq (denoteFields F s fields) (denoteFields G t fields')
  | [], _, .nil => .ok rfl
  | .mk _ ty _ :: _, .mk _ ty' _ :: _, .cons (.mk _ hname hty) hfields => by
    have ht := outcomes_denote hst anonymousStruct hty
    have hfs := outcomes_denoteFields hst hfields
    rw [denoteFields, denoteFields]
    generalize denote F s anonymousStruct ty = x, denote G t anonymousStruct ty' = y at ht
    cases ht with
    | error he => exact .error he
    | ok ht => exact hfs.map fun hab => by rw [ht, hname.name, hab]
termination_by structural x => x

theorem outcomes_denoteList (hst : K s t) : ∀ {tys tys' : List TypeExpr},
    List.Forall₂ (TypeExpr.Paired N T) tys tys' →
      Outcomes (TypeError.Alike N) Eq (denoteList F s tys) (denoteList G t tys')
  | [], _, .nil => .ok rfl
  | ty :: _, ty' :: _, .cons hty htys => by
    have ht := outcomes_denote hst anonymousStruct hty
    have hts := outcomes_denoteList hst htys
    rw [denoteList, denoteList]
    generalize denote F s anonymousStruct ty = x, denote G t anonymousStruct ty' = y at ht
    cases ht with
    | error he => exact .error he
    | ok ht => exact hts.map fun hab => by rw [ht, hab]
termination_by structural x => x

theorem outcomes_denoteOption (hst : K s t) : ∀ {ty? ty?' : Option TypeExpr},
    Option.Rel (TypeExpr.Paired N T) ty? ty?' →
      Outcomes (TypeError.Alike N) Eq (denoteOption F s ty?) (denoteOption G t ty?')
  | none, _, .none => .ok rfl
  | some _, _, .some hty => by
    rw [denoteOption, denoteOption]
    exact (outcomes_denote hst _ hty).map fun hab => by rw [hab]
termination_by structural x => x

end

end

end Ty

end Sable
