import Sable.Proofs.Compilation.Declared
import Sable.Proofs.Context.Reading
import Sable.Proofs.Module.Secluded
import Sable.Proofs.Module.Sites
import Sable.Proofs.Syntax.Distinct

/-!
# Stated types

A name of the kind of a type comes from a statement that declares a type. Type checking gives types
to variables only, and a variable stands in another place than every stated type. So what a module
shows as a type is the same in front of type checking and behind it.
-/

namespace Sable

/-! ### Places that declare types and variables -/

/-- The binders of the type at a place, or of the variables that get their values there. -/
def Stop.binders : Stop → List Binder
  | .typeDecl d => [.statement (.typeDecl d) d.name]
  | .declared targets _ => targets.map fun target => .inner target.name
  | _ => []

section

variable {x : Stop}

mutual

private theorem Expr.stop_binders :
    ∀ e : Expr, (Step.stop x).Occurs e.steps → x.binders ⊆ e.binders
  | .literal _ _, h => absurd h Step.occurs_nil
  | .ident _, h => by
    obtain ⟨rfl⟩ := Step.stop.inj (Step.occurs_stop.mp h)
    exact List.nil_subset _
  | .qualified _ _ _, h => by
    obtain ⟨rfl⟩ := Step.stop.inj (Step.occurs_stop.mp h)
    exact List.nil_subset _
  | .binary _ left right _, h => (Step.occurs_append.mp h).elim
      (fun h => List.subset_append_of_subset_left _ (Expr.stop_binders left h))
      (fun h => List.subset_append_of_subset_right _ (Expr.stop_binders right h))
  | .unary _ operand _, h => Expr.stop_binders operand h
  | .call callee args _, h => (Step.occurs_append.mp h).elim
      (fun h => List.subset_append_of_subset_left _ (Expr.stop_binders callee h))
      (fun h => List.subset_append_of_subset_right _ (Expr.stop_bindersAll args h))
  | .field object _ _, h => Expr.stop_binders object h
  | .index object index _, h => (Step.occurs_append.mp h).elim
      (fun h => List.subset_append_of_subset_left _ (Expr.stop_binders object h))
      (fun h => List.subset_append_of_subset_right _ (Expr.stop_binders index h))
  | .array elements _, h => Expr.stop_bindersAll elements h
  | .function f, h => List.subset_cons_of_subset _ (FunctionDef.stop_binders f none h)

private theorem Expr.stop_bindersAll :
    ∀ es : List Expr, (Step.stop x).Occurs (Expr.stepsAll es) → x.binders ⊆ Expr.bindersAll es
  | [], h => absurd h Step.occurs_nil
  | e :: es, h => (Step.occurs_append.mp h).elim
      (fun h => List.subset_append_of_subset_left _ (Expr.stop_binders e h))
      (fun h => List.subset_append_of_subset_right _ (Expr.stop_bindersAll es h))

private theorem FunctionDef.stop_binders :
    ∀ (f : FunctionDef) (receiver? : Option Param), (Step.stop x).Occurs (f.steps receiver?) →
      x.binders ⊆ f.binders receiver?
  | .mk _ _ _ body _, _, h => (Step.occurs_body.mp h).elim nofun
      (fun h => List.subset_append_of_subset_right _ (Block.stop_binders body h))

private theorem Block.stop_binders :
    ∀ b : Block, (Step.stop x).Occurs b.steps → x.binders ⊆ b.binders
  | .mk stmts _, h => Stmt.stop_bindersAll stmts h

private theorem Conditional.stop_binders :
    ∀ cond : Conditional, (Step.stop x).Occurs cond.steps → x.binders ⊆ cond.binders
  | .mk cond body otherwise _, h => (Step.occurs_append.mp h).elim
      (fun h => List.subset_append_of_subset_left _ ((Step.occurs_append.mp h).elim
        (fun h => List.subset_append_of_subset_left _ (Expr.stop_binders cond h))
        (fun h => List.subset_append_of_subset_right _ (Block.stop_binders body h))))
      (fun h => List.subset_append_of_subset_right _ (Alternative.stop_binders otherwise h))

private theorem Alternative.stop_binders :
    ∀ a : Alternative, (Step.stop x).Occurs a.steps → x.binders ⊆ a.binders
  | .nothing, h => absurd h Step.occurs_nil
  | .block body, h => Block.stop_binders body h
  | .conditional next, h => Conditional.stop_binders next h

private theorem Stmt.stop_binders :
    ∀ stmt : Stmt, (Step.stop x).Occurs stmt.steps → x.binders ⊆ stmt.binders
  | .importing _, h => nomatch Step.occurs_importing.mp h
  | .function f, h => List.subset_cons_of_subset _ (FunctionDef.stop_binders f none h)
  | .method receiver f, h =>
    List.subset_cons_of_subset _ (FunctionDef.stop_binders f (some receiver) h)
  | .varDecl isConst targets values span, h => by
    rcases Step.occurs_cons.mp h with h | h
    · obtain ⟨rfl⟩ := Step.stop.inj (Step.occurs_stop.mp h)
      exact List.nil_subset _
    · rcases Step.occurs_append.mp h with h | h
      · exact List.subset_append_of_subset_right _ (Expr.stop_bindersAll values h)
      · obtain ⟨rfl⟩ := Step.stop.inj (Step.occurs_stop.mp h)
        exact List.subset_append_left ..
  | .typeDecl d, h => by
    obtain ⟨rfl⟩ := Step.stop.inj (Step.occurs_stop.mp h)
    exact List.cons_subset_cons _ (List.nil_subset _)
  | .assign targets values span, h => by
    rcases Step.occurs_cons.mp h with h | h
    · obtain ⟨rfl⟩ := Step.stop.inj (Step.occurs_stop.mp h)
      exact List.nil_subset _
    · exact (Step.occurs_append.mp h).elim
        (fun h => List.subset_append_of_subset_left _ (Expr.stop_bindersAll targets h))
        (fun h => List.subset_append_of_subset_right _ (Expr.stop_bindersAll values h))
  | .conditional cond, h => Conditional.stop_binders cond h
  | .ret none _, h => absurd h Step.occurs_nil
  | .ret (some e) _, h => Expr.stop_binders e h
  | .block b, h => Block.stop_binders b h
  | .expr e, h => Expr.stop_binders e h

private theorem Stmt.stop_bindersAll :
    ∀ stmts : List Stmt, (Step.stop x).Occurs (Stmt.stepsAll stmts) →
      x.binders ⊆ Stmt.bindersAll stmts
  | [], h => absurd h Step.occurs_nil
  | stmt :: stmts, h => (Step.occurs_append.mp h).elim
      (fun h => List.subset_append_of_subset_left _ (Stmt.stop_binders stmt h))
      (fun h => List.subset_append_of_subset_right _ (Stmt.stop_bindersAll stmts h))

end

/-- The binders of a place in a program are binders of the program. -/
theorem Stop.binders_subset {p : Program} (h : (Step.stop x).Occurs p.steps) :
    x.binders ⊆ p.binders := Stmt.stop_bindersAll p.stmts h

end

/-- A place in a program at which a type is declared. -/
def Program.StatesType (p : Program) (span : Span) : Prop :=
  ∃ d, .statement (.typeDecl d) d.name ∈ p.binders ∧ d.name.span = span

/-- A place in a program at which a name inside of a statement is declared. -/
def Program.NamesInside (p : Program) (span : Span) : Prop :=
  ∃ name, .inner name ∈ p.binders ∧ name.span = span

/-- A type and a variable are declared in different places. -/
theorem Program.not_namesInside {text : String} {n : Nat} {p : Program} (h : parse text n = .ok p)
    {span : Span} (hstates : p.StatesType span) : ¬ p.NamesInside span := by
  rintro ⟨name, hname, hspan⟩
  obtain ⟨d, hd, rfl⟩ := hstates
  exact absurd (List.inj_on_of_nodup_map (spans_of_parse h).1 hname hd hspan) nofun

/-! ### Names of the kinds of types -/

namespace Context

/-- What a module declares as a type is a type that its program states. -/
def Stated (ctx : Context) (m : Module) : Prop :=
  ∀ s, m.root ∈ ctx.scopes.chain s → ∀ x ∈ ctx.scopes.symbols s, x.kind.isType = true →
    m.program.StatesType x.span

end Context

/-- A name in a scope was declared before, or it is the one that has just been declared. -/
theorem ScopeForest.mem_symbols_of_declare {F G : ScopeForest} {s t : ScopeId} {name : Ident}
    {kind : SymbolKind} {ty? : Option Ty} {members? : Option ScopeId} {x : Symbol}
    (h : F.declare s name kind ty? = .ok (members?, G)) (hx : x ∈ G.symbols t) :
    x ∈ F.symbols t ∨ (x.kind = kind ∧ x.span = name.span) := by
  have hadd : ∀ {H : ScopeForest} {y : Symbol}, (∀ u, H.symbols u = F.symbols u) →
      x ∈ (H.modify s fun scope => { scope with symbols := scope.symbols ++ [y] }).symbols t →
        x ∈ F.symbols t ∨ x = y := by
    intro H y hH hx
    rw [symbols_addSymbol, hH] at hx
    refine (List.mem_append.mp hx).imp_right fun hx => ?_
    split at hx
    · exact List.mem_singleton.mp hx
    · cases hx
  unfold declare at h
  split at h
  · cases h
  cases hkind : kind.opensScope
  · simp only [hkind, Bool.false_eq_true, ↓reduceIte] at h
    obtain ⟨-, rfl⟩ := Prod.mk.inj (Except.ok.inj h)
    exact (hadd (fun _ => rfl) hx).imp_right fun he =>
      ⟨congrArg Symbol.kind he, congrArg Symbol.span he⟩
  · simp only [hkind, ↓reduceIte] at h
    obtain ⟨-, rfl⟩ := Prod.mk.inj (Except.ok.inj h)
    refine (hadd (fun u => symbols_openScope ..) hx).imp_right fun he => ?_
    exact ⟨congrArg Symbol.kind he, congrArg Symbol.span he⟩

namespace Compilation

variable {c d : Compilation} {m : Module} {s : ScopeId} {p : Program}

/-- New names of the kinds of types are types that a program states. -/
def StatesOnly (p : Program) (c d : Compilation) : Prop :=
  ∀ s, ∀ x ∈ d.context.scopes.symbols s, x ∈ c.context.scopes.symbols s ∨
    (x.kind.isType = true → p.StatesType x.span)

namespace StatesOnly

theorem refl (c : Compilation) : StatesOnly p c c := fun _ _ hx => Or.inl hx

theorem trans {e : Compilation} (h : StatesOnly p c d) (h' : StatesOnly p d e) :
    StatesOnly p c e := fun s x hx => (h' s x hx).elim (h s x) Or.inr

end StatesOnly

/-- A declaration adds a name of its kind, where it stands. -/
theorem statesOnly_declare {kind : SymbolKind} {name : Ident}
    (hkind : kind.isType = true → p.StatesType name.span) :
    StatesOnly p c (c.declare m s kind name).2 := by
  unfold declare
  split
  · exact .refl c
  · cases hdeclare : c.context.scopes.declare s name kind none with
    | error e => exact .refl c
    | ok r =>
      obtain ⟨members?, F⟩ := r
      intro t x hx
      refine (ScopeForest.mem_symbols_of_declare hdeclare hx).imp_right fun ⟨hxkind, hspan⟩ => ?_
      rw [hxkind, hspan]
      exact hkind

/-- Names of a kind that is none of types may be declared anywhere. -/
theorem statesOnly_declareAll {kind : SymbolKind} (hkind : kind.isType = false)
    (names : List Ident) (c : Compilation) : StatesOnly p c (declareAll m s kind names c) := by
  induction names generalizing c with
  | nil => exact .refl c
  | cons name names ih =>
    exact (statesOnly_declare fun h => absurd (hkind.symm.trans h) (by decide)).trans (ih _)

/-- So may such names inside another one. -/
theorem statesOnly_declareWith {x : Declaration} {kind : SymbolKind} (hkind : kind.isType = false)
    (names : List Ident) (hx : x.kind.isType = true → p.StatesType x.name.span) :
    StatesOnly p c (declareWith m x kind names c).2 := by
  have hfirst : StatesOnly p c (c.declare m x.scope x.kind x.name).2 := statesOnly_declare hx
  unfold declareWith
  generalize c.declare m x.scope x.kind x.name = r at hfirst
  obtain ⟨_ | members, d⟩ := r
  · exact hfirst
  · exact hfirst.trans (statesOnly_declareAll hkind names d)

theorem statesOnly_stop_collector {x : Stop} (hx : x.binders ⊆ p.binders) :
    StatesOnly p c ((collector m).stop s x c) := by
  cases x with
  | typeDecl d =>
    rw [show (collector m).stop s (.typeDecl d) c = _ from collectTypeDecl_eq m s d c]
    exact statesOnly_declareWith rfl _ fun _ => ⟨d, hx (List.mem_singleton_self _), rfl⟩
  | declaring isConst targets values span =>
    exact statesOnly_declareAll (by cases isConst <;> rfl) _ c
  | _ => exact .refl c

theorem statesOnly_head_collector (hd : Head) : StatesOnly p c ((collector m).head s hd c).2 := by
  obtain ⟨_ | receiver, name, params, ret⟩ := hd
  · exact statesOnly_declareWith (x := ⟨s, .func, name⟩) rfl _ nofun
  · simp only [Visitor.head, collector]
    cases hr : receiverMembers c.context.scopes s receiver with
    | error e =>
      rw [collectMethod_error hr]
      exact .refl c
    | ok members =>
      rw [collectMethod_eq hr]
      exact statesOnly_declareWith rfl _ nofun

/-- Collecting the body of a module declares types only where the program states them. -/
theorem statesOnly_walkBody (m : Module) (phase : Phase) (c : Compilation) :
    StatesOnly m.program c ((collector { m with phase := phase }).walkBody m c) :=
  Visitor.walkBody_respects StatesOnly.refl StatesOnly.trans
    (fun hx _ _ => statesOnly_stop_collector (Stop.binders_subset hx))
    (fun _ _ _ => statesOnly_head_collector _) c

end Compilation

/-! ### Types of variables -/

/-- What a name is bound by stands where the name does. -/
theorem ScopeForest.exists_of_binds {F : ScopeForest} {s : ScopeId} {name : Ident}
    (h : F.binds s name = true) : ∃ x, F.symbol? s name.name = some x ∧ x.span = name.span := by
  unfold binds at h
  split at h
  · next x hx => exact ⟨x, hx, by simpa using h⟩
  · cases h

namespace Context

variable {c d : Context} {m : Module} {s : ScopeId} {p : Program}

/-- The same name in the same place, with the same type unless the place is that of a variable. -/
structure Retyped (p : Program) (x y : Symbol) : Prop where
  /-- The kinds are equal. -/
  kind : x.kind = y.kind
  /-- The places are equal. -/
  span : x.span = y.span
  /-- The types are equal, except for a variable. -/
  ty? : x.ty? = y.ty? ∨ p.NamesInside x.span

/-- Types are given to variables only. -/
def TypesInside (p : Program) (c d : Context) : Prop :=
  ∀ s name, Option.Rel (Retyped p) (c.scopes.symbol? s name) (d.scopes.symbol? s name)

namespace TypesInside

theorem of_scopes (h : d.scopes = c.scopes) : TypesInside p c d := fun s name => by
  rw [h]
  cases c.scopes.symbol? s name with
  | none => exact .none
  | some x => exact .some ⟨rfl, rfl, Or.inl rfl⟩

theorem refl (c : Context) : TypesInside p c c := of_scopes rfl

theorem trans {e : Context} (h : TypesInside p c d) (h' : TypesInside p d e) :
    TypesInside p c e := fun s name => by
  have hfirst := h s name
  have hsecond := h' s name
  generalize c.scopes.symbol? s name = x, d.scopes.symbol? s name = y,
    e.scopes.symbol? s name = z at hfirst hsecond
  cases hfirst with
  | none => cases hsecond; exact .none
  | some hxy =>
    cases hsecond with
    | some hyz =>
      refine .some ⟨hxy.kind.trans hyz.kind, hxy.span.trans hyz.span, ?_⟩
      rcases hxy.ty? with hty | hinside
      · exact hyz.ty?.imp hty.trans fun h => hxy.span ▸ h
      · exact Or.inr hinside

end TypesInside

theorem typesInside_setType {name : Ident} {x : Symbol}
    (hx : c.scopes.symbol? s name.name = some x) (hspan : x.span = name.span)
    (hname : .inner name ∈ p.binders) (ty : Ty) :
    TypesInside p c (c.setType s name.name ty) := fun t other => by
  rw [setType, ScopeForest.symbol?_setType]
  split
  · next h =>
    obtain ⟨rfl, rfl⟩ := h
    rw [hx]
    exact .some ⟨rfl, rfl, Or.inr ⟨name, hname, hspan.symm⟩⟩
  · exact TypesInside.refl c t other

theorem typesInside_checkTarget {target : VarBinder} (h : .inner target.name ∈ p.binders)
    (value : Expr) (c : Context) : TypesInside p c (c.checkTarget m s target value) := by
  unfold checkTarget
  split
  · next hbinds =>
    split
    · exact .refl c
    · split
      · split
        · obtain ⟨x, hx, hspan⟩ := ScopeForest.exists_of_binds hbinds
          exact typesInside_setType hx hspan h _
        · exact .refl c
      · split
        · exact .refl c
        · exact .of_scopes rfl
  · exact .refl c

theorem typesInside_stop_checker {x : Stop} (hx : x.binders ⊆ p.binders) (c : Context) :
    TypesInside p c ((checker m).stop s x c) := by
  cases x with
  | declared targets values =>
    have hall : ∀ pairs : List (VarBinder × Expr), (∀ pair ∈ pairs, pair.1 ∈ targets) →
        ∀ c : Context, TypesInside p c
          (pairs.foldl (fun ctx pair => ctx.checkTarget m s pair.1 pair.2) c) := by
      intro pairs
      induction pairs with
      | nil => exact fun _ c => .refl c
      | cons pair pairs ih =>
        intro hpairs c
        rw [List.forall_mem_cons] at hpairs
        have hinner : .inner pair.1.name ∈ p.binders := hx (List.mem_map_of_mem hpairs.1)
        exact (typesInside_checkTarget hinner pair.2 c).trans (ih hpairs.2 _)
    exact hall _ (fun pair hpair => (List.of_mem_zip hpair).1) c
  | _ => exact .refl c

theorem typesInside_head_checker (hd : Head) (c : Context) :
    TypesInside p c ((checker m).head s hd c).2 := by
  obtain ⟨_ | receiver, name, params, ret⟩ := hd <;> exact .refl c

/-- Checking the body of a module gives types to variables only. -/
theorem typesInside_walkBody (m : Module) (phase : Phase) (c : Context) :
    TypesInside m.program c ((checker { m with phase := phase }).walkBody m c) :=
  Visitor.walkBody_respects TypesInside.refl TypesInside.trans
    (fun hx _ _ => typesInside_stop_checker (Stop.binders_subset hx) _)
    (fun _ _ _ => typesInside_head_checker _ _) c

/-- Where types are given to variables only, what a module declares as a type stays what it is. -/
theorem TypesInside.readsAs (h : TypesInside m.program c d) {text : String} {n : Nat}
    (hparse : parse text n = .ok m.program) (hstated : c.Stated m)
    (hs : m.root ∈ c.scopes.chain s) :
    c.scopes.ReadsAs Phase.resolved.Settles s d.scopes s := fun name => by
  have hname := h s name
  generalize hx : c.scopes.symbol? s name = x, d.scopes.symbol? s name = y at hname
  cases hname with
  | none => exact .none
  | some hxy =>
    refine .some ⟨hxy.kind, fun htype => hxy.ty?.resolve_right ?_⟩
    exact m.program.not_namesInside hparse
      (hstated s hs _ (ScopeForest.mem_symbols_of_symbol? hx).1 htype)

end Context

end Sable
