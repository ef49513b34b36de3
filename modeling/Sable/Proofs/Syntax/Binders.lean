import Sable.Syntax

/-!
# The names that a program declares

A program declares names in its functions, methods and types, which are statements of their own, and
inside of these: function literals, arguments, fields and variables. A program without a name is what
is left of it when the statement that declares the name is struck out, however deeply it is nested.
-/

namespace Sable

/-- The fields that the declaration of a type states. -/
def TypeDecl.fieldNames (d : TypeDecl) : List Ident :=
  match d.ty with
  | .struct fields _ => fields.map FieldDecl.name
  | _ => []

/-- The name of a function, a method or a type that a statement declares. -/
def Stmt.declared? : Stmt → Option Ident
  | .function f => some f.name
  | .method _ f => some f.name
  | .typeDecl d => some d.name
  | _ => none

/-- A place in a program that declares a name. -/
inductive Binder
  /-- A statement that declares a function, a method or a type. -/
  | statement (stmt : Stmt) (name : Ident)
  /-- A function literal, an argument, a field or a variable. -/
  | inner (name : Ident)

/-- The name that is declared. -/
def Binder.name : Binder → Ident
  | statement _ name => name
  | inner name => name

/-- Whether the declaration is a statement of its own. -/
def Binder.isStatement : Binder → Bool
  | statement _ _ => true
  | inner _ => false

/-! ### All binders of a tree -/

mutual

/-- The binders in an expression. -/
def Expr.binders : Expr → List Binder
  | .literal _ _ => []
  | .ident _ => []
  | .qualified _ _ _ => []
  | .binary _ left right _ => left.binders ++ right.binders
  | .unary _ operand _ => operand.binders
  | .call callee args _ => callee.binders ++ Expr.bindersAll args
  | .field object _ _ => object.binders
  | .index object index _ => object.binders ++ index.binders
  | .array elements _ => Expr.bindersAll elements
  | .function f => .inner f.name :: f.binders none

/-- The binders in a list of expressions. -/
def Expr.bindersAll : List Expr → List Binder
  | [] => []
  | e :: es => e.binders ++ Expr.bindersAll es

/-- The binders in a function or, with a receiver, in a method; its own name is not among them. -/
def FunctionDef.binders (receiver? : Option Param) : FunctionDef → List Binder
  | .mk _ params _ body _ =>
    (receiver?.toList ++ params).map (fun p => .inner p.name) ++ body.binders

/-- The binders in a block. -/
def Block.binders : Block → List Binder
  | .mk stmts _ => Stmt.bindersAll stmts

/-- The binders in a condition with all that follows its `else`. -/
def Conditional.binders : Conditional → List Binder
  | .mk cond body otherwise _ => cond.binders ++ body.binders ++ otherwise.binders

/-- The binders in what follows the body of a condition. -/
def Alternative.binders : Alternative → List Binder
  | .nothing => []
  | .block body => body.binders
  | .conditional next => next.binders

/-- The binders in a statement. -/
def Stmt.binders : Stmt → List Binder
  | .importing _ => []
  | .function f => .statement (.function f) f.name :: f.binders none
  | .method receiver f => .statement (.method receiver f) f.name :: f.binders (some receiver)
  | .varDecl _ targets values _ =>
    targets.map (fun target => .inner target.name) ++ Expr.bindersAll values
  | .typeDecl d => .statement (.typeDecl d) d.name :: d.fieldNames.map .inner
  | .assign targets values _ => Expr.bindersAll targets ++ Expr.bindersAll values
  | .conditional cond => cond.binders
  | .ret none _ => []
  | .ret (some e) _ => e.binders
  | .block b => b.binders
  | .expr e => e.binders

/-- The binders in a list of statements. -/
def Stmt.bindersAll : List Stmt → List Binder
  | [] => []
  | stmt :: stmts => stmt.binders ++ Stmt.bindersAll stmts

end

/-- The binders in a program. -/
def Program.binders (p : Program) : List Binder := Stmt.bindersAll p.stmts

/-- The names that a program declares. -/
def Program.names (p : Program) : List Ident := p.binders.map Binder.name

/-! ### Striking a declaration out -/

section

variable (x : Ident)

mutual

/-- An expression without the function, method or type of a given name. -/
def Expr.without : Expr → Expr
  | .literal value span => .literal value span
  | .ident name => .ident name
  | .qualified module name span => .qualified module name span
  | .binary op left right span => .binary op left.without right.without span
  | .unary op operand span => .unary op operand.without span
  | .call callee args span => .call callee.without (Expr.withoutAll args) span
  | .field object field span => .field object.without field span
  | .index object index span => .index object.without index.without span
  | .array elements span => .array (Expr.withoutAll elements) span
  | .function f => .function f.without

/-- A list of expressions without the declaration. -/
def Expr.withoutAll : List Expr → List Expr
  | [] => []
  | e :: es => e.without :: Expr.withoutAll es

/-- A function without the declaration in its body. -/
def FunctionDef.without : FunctionDef → FunctionDef
  | .mk name params ret body span => .mk name params ret body.without span

/-- A block without the declaration. -/
def Block.without : Block → Block
  | .mk stmts span => .mk (Stmt.withoutAll stmts) span

/-- A condition without the declaration. -/
def Conditional.without : Conditional → Conditional
  | .mk cond body otherwise span => .mk cond.without body.without otherwise.without span

/-- What follows the body of a condition, without the declaration. -/
def Alternative.without : Alternative → Alternative
  | .nothing => .nothing
  | .block body => .block body.without
  | .conditional next => .conditional next.without

/-- A statement without the declaration inside of it. -/
def Stmt.without : Stmt → Stmt
  | .importing i => .importing i
  | .function f => .function f.without
  | .method receiver f => .method receiver f.without
  | .varDecl isConst targets values span =>
    .varDecl isConst targets (Expr.withoutAll values) span
  | .typeDecl d => .typeDecl d
  | .assign targets values span =>
    .assign (Expr.withoutAll targets) (Expr.withoutAll values) span
  | .conditional cond => .conditional cond.without
  | .ret none span => .ret none span
  | .ret (some e) span => .ret (some e.without) span
  | .block b => .block b.without
  | .expr e => .expr e.without

/-- A list of statements without the declaration. -/
def Stmt.withoutAll : List Stmt → List Stmt
  | [] => []
  | stmt :: stmts =>
    if stmt.declared? = some x then Stmt.withoutAll stmts
    else stmt.without :: Stmt.withoutAll stmts

end

end

/-- A program without the function, method or type of a given name. -/
def Program.without (x : Ident) (p : Program) : Program := ⟨Stmt.withoutAll x p.stmts, p.span⟩

theorem Expr.span_without (x : Ident) : ∀ e : Expr, (e.without x).span = e.span
  | .literal _ _ => rfl
  | .ident _ => rfl
  | .qualified _ _ _ => rfl
  | .binary _ _ _ _ => rfl
  | .unary _ _ _ => rfl
  | .call _ _ _ => rfl
  | .field _ _ _ => rfl
  | .index _ _ _ => rfl
  | .array _ _ => rfl
  | .function (.mk _ _ _ _ _) => rfl

theorem Expr.withoutAll_eq_map (x : Ident) (es : List Expr) :
    Expr.withoutAll x es = es.map (Expr.without x) := by
  induction es with
  | nil => rfl
  | cons e es ih => rw [Expr.withoutAll, ih, List.map_cons]

/-! ### Programs that do not declare a name -/

section

variable {x : Ident}

mutual

private theorem Expr.without_eq_self :
    ∀ e : Expr, (∀ b ∈ e.binders, b.name ≠ x) → e.without x = e
  | .literal _ _, _ => rfl
  | .ident _, _ => rfl
  | .qualified _ _ _, _ => rfl
  | .binary _ left right _, h => by
    simp only [Expr.binders, List.forall_mem_append] at h
    rw [Expr.without, Expr.without_eq_self left h.1, Expr.without_eq_self right h.2]
  | .unary _ operand _, h => by rw [Expr.without, Expr.without_eq_self operand h]
  | .call callee args _, h => by
    simp only [Expr.binders, List.forall_mem_append] at h
    rw [Expr.without, Expr.without_eq_self callee h.1, Expr.withoutAll_eq_self args h.2]
  | .field object _ _, h => by rw [Expr.without, Expr.without_eq_self object h]
  | .index object index _, h => by
    simp only [Expr.binders, List.forall_mem_append] at h
    rw [Expr.without, Expr.without_eq_self object h.1, Expr.without_eq_self index h.2]
  | .array elements _, h => by rw [Expr.without, Expr.withoutAll_eq_self elements h]
  | .function f, h => by
    rw [Expr.without, FunctionDef.without_eq_self f (List.forall_mem_cons.mp h).2]

private theorem Expr.withoutAll_eq_self :
    ∀ es : List Expr, (∀ b ∈ Expr.bindersAll es, b.name ≠ x) → Expr.withoutAll x es = es
  | [], _ => rfl
  | e :: es, h => by
    simp only [Expr.bindersAll, List.forall_mem_append] at h
    rw [Expr.withoutAll, Expr.without_eq_self e h.1, Expr.withoutAll_eq_self es h.2]

private theorem FunctionDef.without_eq_self : ∀ (f : FunctionDef) {receiver? : Option Param},
    (∀ b ∈ f.binders receiver?, b.name ≠ x) → f.without x = f
  | .mk _ _ _ body _, _, h => by
    simp only [FunctionDef.binders, List.forall_mem_append] at h
    rw [FunctionDef.without, Block.without_eq_self body h.2]

private theorem Block.without_eq_self :
    ∀ b : Block, (∀ b' ∈ b.binders, b'.name ≠ x) → b.without x = b
  | .mk stmts _, h => by rw [Block.without, Stmt.withoutAll_eq_self stmts h]

private theorem Conditional.without_eq_self :
    ∀ cond : Conditional, (∀ b ∈ cond.binders, b.name ≠ x) → cond.without x = cond
  | .mk cond body otherwise _, h => by
    simp only [Conditional.binders, List.forall_mem_append] at h
    rw [Conditional.without, Expr.without_eq_self cond h.1.1, Block.without_eq_self body h.1.2,
      Alternative.without_eq_self otherwise h.2]

private theorem Alternative.without_eq_self :
    ∀ a : Alternative, (∀ b ∈ a.binders, b.name ≠ x) → a.without x = a
  | .nothing, _ => rfl
  | .block body, h => by rw [Alternative.without, Block.without_eq_self body h]
  | .conditional next, h => by rw [Alternative.without, Conditional.without_eq_self next h]

private theorem Stmt.without_eq_self :
    ∀ stmt : Stmt, (∀ b ∈ stmt.binders, b.name ≠ x) → stmt.without x = stmt
  | .importing _, _ => rfl
  | .function f, h => by
    rw [Stmt.without, FunctionDef.without_eq_self f (List.forall_mem_cons.mp h).2]
  | .method _ f, h => by
    rw [Stmt.without, FunctionDef.without_eq_self f (List.forall_mem_cons.mp h).2]
  | .varDecl _ _ values _, h => by
    simp only [Stmt.binders, List.forall_mem_append] at h
    rw [Stmt.without, Expr.withoutAll_eq_self values h.2]
  | .typeDecl _, _ => rfl
  | .assign targets values _, h => by
    simp only [Stmt.binders, List.forall_mem_append] at h
    rw [Stmt.without, Expr.withoutAll_eq_self targets h.1, Expr.withoutAll_eq_self values h.2]
  | .conditional cond, h => by rw [Stmt.without, Conditional.without_eq_self cond h]
  | .ret none _, _ => rfl
  | .ret (some e) _, h => by rw [Stmt.without, Expr.without_eq_self e h]
  | .block b, h => by rw [Stmt.without, Block.without_eq_self b h]
  | .expr e, h => by rw [Stmt.without, Expr.without_eq_self e h]

private theorem Stmt.withoutAll_eq_self :
    ∀ stmts : List Stmt, (∀ b ∈ Stmt.bindersAll stmts, b.name ≠ x) → Stmt.withoutAll x stmts = stmts
  | [], _ => rfl
  | stmt :: stmts, h => by
    simp only [Stmt.bindersAll, List.forall_mem_append] at h
    have hkept : stmt.declared? ≠ some x := by
      intro hx
      cases stmt <;> simp_all [Stmt.declared?, Stmt.binders, Binder.name]
    rw [Stmt.withoutAll, if_neg hkept, Stmt.without_eq_self stmt h.1,
      Stmt.withoutAll_eq_self stmts h.2]

end

end

/-- There is nothing to strike out in a program that does not declare the name. -/
theorem Program.without_eq_self {x : Ident} {p : Program} (h : x ∉ p.names) : p.without x = p := by
  have hall : ∀ b ∈ Stmt.bindersAll p.stmts, b.name ≠ x :=
    fun b hb hx => h (List.mem_map.mpr ⟨b, hb, hx⟩)
  rw [Program.without, Stmt.withoutAll_eq_self p.stmts hall]

end Sable
