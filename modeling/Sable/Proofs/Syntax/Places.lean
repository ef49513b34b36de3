import Sable.Syntax

/-!
# Places in a program

Two places in a program decide where a pass may go: an import leads to another module, and the
receiver of a method leads to the scope of another declaration. Everything else stays below
the scope that it stands in. The lists here name these places however deeply they are nested;
and of the imports, those that no function encloses, since they concern the scope itself.
-/

namespace Sable

/-- A place from which a pass may leave the scope around it. -/
inductive Place
  /-- An import. -/
  | importing (i : Import)
  /-- The receiver of a method. -/
  | receiver (p : Param)

mutual

/-- The places in an expression. -/
def Expr.places : Expr → List Place
  | .literal _ _ => []
  | .ident _ => []
  | .qualified _ _ _ => []
  | .binary _ left right _ => left.places ++ right.places
  | .unary _ operand _ => operand.places
  | .call callee args _ => callee.places ++ Expr.placesAll args
  | .field object _ _ => object.places
  | .index object index _ => object.places ++ index.places
  | .array elements _ => Expr.placesAll elements
  | .function f => f.places

/-- The places in a list of expressions. -/
def Expr.placesAll : List Expr → List Place
  | [] => []
  | e :: es => e.places ++ Expr.placesAll es

/-- The places in the body of a function. -/
def FunctionDef.places : FunctionDef → List Place
  | .mk _ _ _ body _ => body.places

/-- The places in a block. -/
def Block.places : Block → List Place
  | .mk stmts _ => Stmt.placesAll stmts

/-- The places in a condition with all that follows its `else`. -/
def Conditional.places : Conditional → List Place
  | .mk cond body otherwise _ => cond.places ++ body.places ++ otherwise.places

/-- The places in what follows the body of a condition. -/
def Alternative.places : Alternative → List Place
  | .nothing => []
  | .block body => body.places
  | .conditional next => next.places

/-- The places in a statement. -/
def Stmt.places : Stmt → List Place
  | .importing i => [.importing i]
  | .function f => f.places
  | .method receiver f => .receiver receiver :: f.places
  | .varDecl _ _ values _ => Expr.placesAll values
  | .typeDecl _ => []
  | .assign targets values _ => Expr.placesAll targets ++ Expr.placesAll values
  | .conditional cond => cond.places
  | .ret none _ => []
  | .ret (some e) _ => e.places
  | .block b => b.places
  | .expr e => e.places

/-- The places in a list of statements. -/
def Stmt.placesAll : List Stmt → List Place
  | [] => []
  | stmt :: stmts => stmt.places ++ Stmt.placesAll stmts

end

/-- The places in a program. -/
def Program.places (p : Program) : List Place := Stmt.placesAll p.stmts

theorem Expr.mem_placesAll {p : Place} {es : List Expr} :
    p ∈ Expr.placesAll es ↔ ∃ e ∈ es, p ∈ e.places := by
  induction es with
  | nil => simp [Expr.placesAll]
  | cons e es ih => simp [Expr.placesAll, ih]

theorem Stmt.mem_placesAll {p : Place} {stmts : List Stmt} :
    p ∈ Stmt.placesAll stmts ↔ ∃ stmt ∈ stmts, p ∈ stmt.places := by
  induction stmts with
  | nil => simp [Stmt.placesAll]
  | cons stmt stmts ih => simp [Stmt.placesAll, ih]

/-! ### Imports outside of functions -/

mutual

/-- The imports in a block that no function in it encloses. -/
def Block.outerImports : Block → List Import
  | .mk stmts _ => Stmt.outerImportsAll stmts

/-- The imports in a condition that no function in it encloses. -/
def Conditional.outerImports : Conditional → List Import
  | .mk _ body otherwise _ => body.outerImports ++ otherwise.outerImports

/-- The imports in what follows the body of a condition that no function in it encloses. -/
def Alternative.outerImports : Alternative → List Import
  | .nothing => []
  | .block body => body.outerImports
  | .conditional next => next.outerImports

/-- The imports in a statement that no function in it encloses. -/
def Stmt.outerImports : Stmt → List Import
  | .importing i => [i]
  | .conditional cond => cond.outerImports
  | .block b => b.outerImports
  | _ => []

/-- The imports in a list of statements that no function in them encloses. -/
def Stmt.outerImportsAll : List Stmt → List Import
  | [] => []
  | stmt :: stmts => stmt.outerImports ++ Stmt.outerImportsAll stmts

end

/-- The imports in a program that no function encloses. -/
def Program.outerImports (p : Program) : List Import := Stmt.outerImportsAll p.stmts

mutual

theorem Block.mem_places_of_mem_outerImports {i : Import} :
    ∀ b : Block, i ∈ b.outerImports → .importing i ∈ b.places
  | .mk stmts _, h => Stmt.mem_placesAll_of_mem_outerImportsAll stmts h

private theorem Conditional.mem_places_of_mem_outerImports {i : Import} :
    ∀ cond : Conditional, i ∈ cond.outerImports → .importing i ∈ cond.places
  | .mk cond body otherwise _, h => by
    rcases List.mem_append.mp h with h | h
    · have := Block.mem_places_of_mem_outerImports body h
      simp [Conditional.places, this]
    · have := Alternative.mem_places_of_mem_outerImports otherwise h
      simp [Conditional.places, this]

private theorem Alternative.mem_places_of_mem_outerImports {i : Import} :
    ∀ a : Alternative, i ∈ a.outerImports → .importing i ∈ a.places
  | .block body, h => Block.mem_places_of_mem_outerImports body h
  | .conditional next, h => Conditional.mem_places_of_mem_outerImports next h

private theorem Stmt.mem_places_of_mem_outerImports {i : Import} :
    ∀ stmt : Stmt, i ∈ stmt.outerImports → .importing i ∈ stmt.places
  | .importing i', h => by
    obtain rfl := List.mem_singleton.mp h
    exact List.mem_singleton_self _
  | .conditional cond, h => Conditional.mem_places_of_mem_outerImports cond h
  | .block b, h => Block.mem_places_of_mem_outerImports b h

/-- An import that no function encloses is one of the places. -/
theorem Stmt.mem_placesAll_of_mem_outerImportsAll {i : Import} :
    ∀ stmts : List Stmt, i ∈ Stmt.outerImportsAll stmts → .importing i ∈ Stmt.placesAll stmts
  | stmt :: stmts, h => by
    rcases List.mem_append.mp h with h | h
    · exact List.mem_append_left _ (Stmt.mem_places_of_mem_outerImports stmt h)
    · exact List.mem_append_right _ (Stmt.mem_placesAll_of_mem_outerImportsAll stmts h)

end

/-- An import among the statements themselves is enclosed by no function. -/
theorem Stmt.mem_outerImportsAll {i : Import} {stmts : List Stmt} (h : .importing i ∈ stmts) :
    i ∈ Stmt.outerImportsAll stmts := by
  induction stmts with
  | nil => cases h
  | cons stmt stmts ih =>
    rcases List.mem_cons.mp h with rfl | h
    · exact List.mem_append_left _ (List.mem_singleton_self _)
    · exact List.mem_append_right _ (ih h)

end Sable
