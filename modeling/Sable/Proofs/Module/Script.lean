import Sable.Module.Visitor
import Sable.Proofs.Syntax.Places

/-!
# Scripts

What a walk does with a program depends on the tree of the program only through the places that
it comes to, in order, and through the bodies that hold them. A script is a program reduced to
this: a list of steps, each of them an import, a place that stays in its scope, or the head of a
function with the steps of its body. Walking a program is following its script.
-/

namespace Sable

/-- A place where a visitor does something and goes nowhere else. -/
inductive Stop
  /-- A declared type. -/
  | typeDecl (d : TypeDecl)
  /-- In front of the values of a declaration of variables or constants. -/
  | declaring (isConst : Bool) (targets : List VarBinder) (values : List Expr) (span : Span)
  /-- Behind the values of a declaration of variables or constants. -/
  | declared (targets : List VarBinder) (values : List Expr)
  /-- In front of the sides of an assignment. -/
  | assigning (targets values : List Expr) (span : Span)
  /-- A name. -/
  | name (name : Ident)
  /-- A name with a qualifier in front of it. -/
  | qualified (module name : Ident)

/-- The head of a function or, with a receiver, of a method. -/
structure Head where
  /-- The receiver of a method. -/
  receiver? : Option Param
  /-- The name. -/
  name : Ident
  /-- The parameters. -/
  params : List Param
  /-- The written result type. -/
  ret : Option TypeExpr

/-- One step of a script. -/
inductive Step
  /-- An import. -/
  | importing (i : Import)
  /-- A place that stays in the scope. -/
  | stop (x : Stop)
  /-- The head of a function with the steps of its body. -/
  | body (h : Head) (inner : List Step)

/-! ### Scripts of programs -/

mutual

/-- The script of an expression. -/
def Expr.steps : Expr → List Step
  | .literal _ _ => []
  | .ident name => [.stop (.name name)]
  | .qualified module name _ => [.stop (.qualified module name)]
  | .binary _ left right _ => left.steps ++ right.steps
  | .unary _ operand _ => operand.steps
  | .call callee args _ => callee.steps ++ Expr.stepsAll args
  | .field object _ _ => object.steps
  | .index object index _ => object.steps ++ index.steps
  | .array elements _ => Expr.stepsAll elements
  | .function f => f.steps none

/-- The script of a list of expressions. -/
def Expr.stepsAll : List Expr → List Step
  | [] => []
  | e :: es => e.steps ++ Expr.stepsAll es

/-- The script of a function or, with a receiver, of a method. -/
def FunctionDef.steps (receiver? : Option Param) : FunctionDef → List Step
  | .mk name params ret body _ => [.body ⟨receiver?, name, params, ret⟩ body.steps]

/-- The script of a block. -/
def Block.steps : Block → List Step
  | .mk stmts _ => Stmt.stepsAll stmts

/-- The script of a condition with all that follows its `else`. -/
def Conditional.steps : Conditional → List Step
  | .mk cond body otherwise _ => cond.steps ++ body.steps ++ otherwise.steps

/-- The script of what follows the body of a condition. -/
def Alternative.steps : Alternative → List Step
  | .nothing => []
  | .block body => body.steps
  | .conditional next => next.steps

/-- The script of a statement. -/
def Stmt.steps : Stmt → List Step
  | .importing i => [.importing i]
  | .function f => f.steps none
  | .method receiver f => f.steps (some receiver)
  | .varDecl isConst targets values span =>
    .stop (.declaring isConst targets values span) ::
      (Expr.stepsAll values ++ [.stop (.declared targets values)])
  | .typeDecl d => [.stop (.typeDecl d)]
  | .assign targets values span =>
    .stop (.assigning targets values span) :: (Expr.stepsAll targets ++ Expr.stepsAll values)
  | .conditional cond => cond.steps
  | .ret none _ => []
  | .ret (some e) _ => e.steps
  | .block b => b.steps
  | .expr e => e.steps

/-- The script of a list of statements. -/
def Stmt.stepsAll : List Stmt → List Step
  | [] => []
  | stmt :: stmts => stmt.steps ++ Stmt.stepsAll stmts

end

/-- The script of a program. -/
def Program.steps (p : Program) : List Step := Stmt.stepsAll p.stmts

theorem Stmt.stepsAll_eq_flatMap (stmts : List Stmt) :
    Stmt.stepsAll stmts = stmts.flatMap Stmt.steps := by
  induction stmts with
  | nil => rfl
  | cons stmt stmts ih => rw [Stmt.stepsAll, ih, List.flatMap_cons]

/-! ### Steps in a script -/

/-- A step stands in a script, however deeply. -/
inductive Step.Occurs (y : Step) : List Step → Prop
  /-- It is one of the steps themselves. -/
  | here {ys : List Step} : y ∈ ys → Step.Occurs y ys
  /-- It stands in the body of a function. -/
  | inside {ys zs : List Step} {h : Head} : .body h zs ∈ ys → Step.Occurs y zs → Step.Occurs y ys

/-- What stands in a part of a script stands in the script. -/
theorem Step.Occurs.mono {y : Step} {ys zs : List Step} (h : y.Occurs ys) (hsub : ys ⊆ zs) :
    y.Occurs zs := by
  cases h with
  | here hy => exact .here (hsub hy)
  | inside hbody hy => exact .inside (hsub hbody) hy

/-- What stands in the body of a function that stands in a script stands in the script. -/
theorem Step.Occurs.trans {y : Step} {h : Head} {ys zs : List Step}
    (hbody : (Step.body h zs).Occurs ys) (hy : y.Occurs zs) : y.Occurs ys := by
  induction hbody with
  | here hmem => exact .inside hmem hy
  | inside hmem _ ih => exact .inside hmem ih

/-! ### Places in scripts -/

mutual

/-- The places in a step from which a pass may leave the scope around it. -/
def Step.places : Step → List Place
  | .importing i => [.importing i]
  | .stop _ => []
  | .body h inner => h.receiver?.toList.map .receiver ++ Step.placesAll inner

/-- The places in a script. -/
def Step.placesAll : List Step → List Place
  | [] => []
  | y :: ys => y.places ++ Step.placesAll ys

end

@[simp] theorem Step.placesAll_append (ys zs : List Step) :
    Step.placesAll (ys ++ zs) = Step.placesAll ys ++ Step.placesAll zs := by
  induction ys with
  | nil => rfl
  | cons y ys ih => rw [List.cons_append, placesAll, ih, placesAll, List.append_assoc]

mutual

private theorem Expr.placesAll_steps : ∀ e : Expr, Step.placesAll e.steps = e.places
  | .literal _ _ => rfl
  | .ident _ => rfl
  | .qualified _ _ _ => rfl
  | .binary _ left right _ => by
    rw [Expr.steps, Step.placesAll_append, Expr.placesAll_steps left,
      Expr.placesAll_steps right, Expr.places]
  | .unary _ operand _ => Expr.placesAll_steps operand
  | .call callee args _ => by
    rw [Expr.steps, Step.placesAll_append, Expr.placesAll_steps callee,
      Expr.placesAll_stepsAll args, Expr.places]
  | .field object _ _ => Expr.placesAll_steps object
  | .index object index _ => by
    rw [Expr.steps, Step.placesAll_append, Expr.placesAll_steps object,
      Expr.placesAll_steps index, Expr.places]
  | .array elements _ => Expr.placesAll_stepsAll elements
  | .function f => by
    rw [Expr.steps, FunctionDef.placesAll_steps f, Expr.places]
    rfl

private theorem Expr.placesAll_stepsAll :
    ∀ es : List Expr, Step.placesAll (Expr.stepsAll es) = Expr.placesAll es
  | [] => rfl
  | e :: es => by
    rw [Expr.stepsAll, Step.placesAll_append, Expr.placesAll_steps e,
      Expr.placesAll_stepsAll es, Expr.placesAll]

private theorem FunctionDef.placesAll_steps : ∀ (f : FunctionDef) {receiver? : Option Param},
    Step.placesAll (f.steps receiver?) = receiver?.toList.map Place.receiver ++ f.places
  | .mk name params ret body _, receiver? => by
    rw [FunctionDef.steps, Step.placesAll, Step.places, Block.placesAll_steps body, Step.placesAll,
      List.append_nil, FunctionDef.places]

private theorem Block.placesAll_steps : ∀ b : Block, Step.placesAll b.steps = b.places
  | .mk stmts _ => Stmt.placesAll_stepsAll stmts

private theorem Conditional.placesAll_steps :
    ∀ cond : Conditional, Step.placesAll cond.steps = cond.places
  | .mk cond body otherwise _ => by
    rw [Conditional.steps, Step.placesAll_append, Step.placesAll_append,
      Expr.placesAll_steps cond, Block.placesAll_steps body,
      Alternative.placesAll_steps otherwise, Conditional.places]

private theorem Alternative.placesAll_steps :
    ∀ a : Alternative, Step.placesAll a.steps = a.places
  | .nothing => rfl
  | .block body => Block.placesAll_steps body
  | .conditional next => Conditional.placesAll_steps next

private theorem Stmt.placesAll_steps : ∀ stmt : Stmt, Step.placesAll stmt.steps = stmt.places
  | .importing _ => rfl
  | .function f => FunctionDef.placesAll_steps f
  | .method _ f => FunctionDef.placesAll_steps f
  | .varDecl isConst targets values span => by
    rw [Stmt.steps, Step.placesAll, Step.placesAll_append, Expr.placesAll_stepsAll values]
    exact List.append_nil _
  | .typeDecl _ => rfl
  | .assign targets values span => by
    rw [Stmt.steps, Step.placesAll, Step.placesAll_append, Expr.placesAll_stepsAll targets,
      Expr.placesAll_stepsAll values]
    rfl
  | .conditional cond => Conditional.placesAll_steps cond
  | .ret none _ => rfl
  | .ret (some e) _ => Expr.placesAll_steps e
  | .block b => Block.placesAll_steps b
  | .expr e => Expr.placesAll_steps e

theorem Stmt.placesAll_stepsAll :
    ∀ stmts : List Stmt, Step.placesAll (Stmt.stepsAll stmts) = Stmt.placesAll stmts
  | [] => rfl
  | stmt :: stmts => by
    rw [Stmt.stepsAll, Step.placesAll_append, Stmt.placesAll_steps stmt,
      Stmt.placesAll_stepsAll stmts, Stmt.placesAll]

end

/-- A script has the places of its program. -/
theorem Program.placesAll_steps (p : Program) : Step.placesAll p.steps = p.places :=
  Stmt.placesAll_stepsAll p.stmts

private theorem Step.places_subset {y : Step} {ys : List Step} (h : y ∈ ys) :
    y.places ⊆ Step.placesAll ys := by
  induction ys with
  | nil => cases h
  | cons z ys ih =>
    rw [placesAll]
    rcases List.mem_cons.mp h with rfl | h
    · exact List.subset_append_left ..
    · exact List.Subset.trans (ih h) (List.subset_append_right ..)

/-- The places in a step are places in every script that it stands in. -/
theorem Step.Occurs.places_subset {y : Step} {ys : List Step} (h : y.Occurs ys) :
    y.places ⊆ Step.placesAll ys := by
  induction h with
  | here h => exact Step.places_subset h
  | inside hbody _ ih =>
    exact List.Subset.trans ih
      (List.Subset.trans (List.subset_append_right ..) (Step.places_subset hbody))

/-! ### Imports outside of functions -/

/-- A body is no import. -/
private theorem FunctionDef.importing_notMem_steps (i : Import) :
    ∀ (f : FunctionDef) (receiver? : Option Param), .importing i ∉ f.steps receiver?
  | .mk _ _ _ _ _, _ => by simp [FunctionDef.steps]

mutual

private theorem Expr.importing_notMem_steps (i : Import) : ∀ e : Expr, .importing i ∉ e.steps
  | .literal _ _ => by simp [Expr.steps]
  | .ident _ => by simp [Expr.steps]
  | .qualified _ _ _ => by simp [Expr.steps]
  | .binary _ left right _ => by
    simp [Expr.steps, Expr.importing_notMem_steps i left, Expr.importing_notMem_steps i right]
  | .unary _ operand _ => Expr.importing_notMem_steps i operand
  | .call callee args _ => by
    simp [Expr.steps, Expr.importing_notMem_steps i callee, Expr.importing_notMem_stepsAll i args]
  | .field object _ _ => Expr.importing_notMem_steps i object
  | .index object position _ => by
    simp [Expr.steps, Expr.importing_notMem_steps i object,
      Expr.importing_notMem_steps i position]
  | .array elements _ => Expr.importing_notMem_stepsAll i elements
  | .function f => FunctionDef.importing_notMem_steps i f none

private theorem Expr.importing_notMem_stepsAll (i : Import) :
    ∀ es : List Expr, .importing i ∉ Expr.stepsAll es
  | [] => by simp [Expr.stepsAll]
  | e :: es => by
    simp [Expr.stepsAll, Expr.importing_notMem_steps i e, Expr.importing_notMem_stepsAll i es]

end

mutual

private theorem Block.importing_mem_steps (i : Import) :
    ∀ b : Block, .importing i ∈ b.steps ↔ i ∈ b.outerImports
  | .mk stmts _ => Stmt.importing_mem_stepsAll i stmts

private theorem Conditional.importing_mem_steps (i : Import) :
    ∀ cond : Conditional, .importing i ∈ cond.steps ↔ i ∈ cond.outerImports
  | .mk cond body otherwise _ => by
    simp [Conditional.steps, Conditional.outerImports, Expr.importing_notMem_steps i cond,
      Block.importing_mem_steps i body, Alternative.importing_mem_steps i otherwise]

private theorem Alternative.importing_mem_steps (i : Import) :
    ∀ a : Alternative, .importing i ∈ a.steps ↔ i ∈ a.outerImports
  | .nothing => by simp [Alternative.steps, Alternative.outerImports]
  | .block body => Block.importing_mem_steps i body
  | .conditional next => Conditional.importing_mem_steps i next

private theorem Stmt.importing_mem_steps (i : Import) :
    ∀ stmt : Stmt, .importing i ∈ stmt.steps ↔ i ∈ stmt.outerImports
  | .importing j => by simp [Stmt.steps, Stmt.outerImports]
  | .function f => by simp [Stmt.steps, Stmt.outerImports, FunctionDef.importing_notMem_steps i f]
  | .method receiver f => by
    simp [Stmt.steps, Stmt.outerImports, FunctionDef.importing_notMem_steps i f]
  | .varDecl isConst targets values span => by
    simp [Stmt.steps, Stmt.outerImports, Expr.importing_notMem_stepsAll i values]
  | .typeDecl _ => by simp [Stmt.steps, Stmt.outerImports]
  | .assign targets values span => by
    simp [Stmt.steps, Stmt.outerImports, Expr.importing_notMem_stepsAll i targets,
      Expr.importing_notMem_stepsAll i values]
  | .conditional cond => Conditional.importing_mem_steps i cond
  | .ret none _ => by simp [Stmt.steps, Stmt.outerImports]
  | .ret (some e) _ => by simp [Stmt.steps, Stmt.outerImports, Expr.importing_notMem_steps i e]
  | .block b => Block.importing_mem_steps i b
  | .expr e => by simp [Stmt.steps, Stmt.outerImports, Expr.importing_notMem_steps i e]

private theorem Stmt.importing_mem_stepsAll (i : Import) :
    ∀ stmts : List Stmt, .importing i ∈ Stmt.stepsAll stmts ↔ i ∈ Stmt.outerImportsAll stmts
  | [] => by simp [Stmt.stepsAll, Stmt.outerImportsAll]
  | stmt :: stmts => by
    simp [Stmt.stepsAll, Stmt.outerImportsAll, Stmt.importing_mem_steps i stmt,
      Stmt.importing_mem_stepsAll i stmts]

end

/-- The imports among the steps themselves are those that no function encloses. -/
theorem Program.importing_mem_steps (p : Program) (i : Import) :
    .importing i ∈ p.steps ↔ i ∈ p.outerImports := Stmt.importing_mem_stepsAll i p.stmts

/-! ### Declarations of variables -/

/-- A script that comes to the front of each declaration of variables as well as to its end. -/
inductive Step.Paired : List Step → Prop
  | nil : Step.Paired []
  | append {ys zs : List Step} : Step.Paired ys → Step.Paired zs → Step.Paired (ys ++ zs)
  | importing (i : Import) : Step.Paired [.importing i]
  | stop {x : Stop} : (∀ targets values, x ≠ .declared targets values) → Step.Paired [.stop x]
  | body {ys : List Step} (h : Head) : Step.Paired ys → Step.Paired [.body h ys]
  | declares {ys : List Step} (isConst : Bool) (targets : List VarBinder) (values : List Expr)
      (span : Span) :
    Step.Paired ys → Step.Paired
      (.stop (.declaring isConst targets values span) :: (ys ++ [.stop (.declared targets values)]))

mutual

private theorem Expr.paired_steps : ∀ e : Expr, Step.Paired e.steps
  | .literal _ _ => .nil
  | .ident _ => .stop nofun
  | .qualified _ _ _ => .stop nofun
  | .binary _ left right _ => .append (Expr.paired_steps left) (Expr.paired_steps right)
  | .unary _ operand _ => Expr.paired_steps operand
  | .call callee args _ => .append (Expr.paired_steps callee) (Expr.paired_stepsAll args)
  | .field object _ _ => Expr.paired_steps object
  | .index object position _ => .append (Expr.paired_steps object) (Expr.paired_steps position)
  | .array elements _ => Expr.paired_stepsAll elements
  | .function f => FunctionDef.paired_steps none f

private theorem Expr.paired_stepsAll : ∀ es : List Expr, Step.Paired (Expr.stepsAll es)
  | [] => .nil
  | e :: es => .append (Expr.paired_steps e) (Expr.paired_stepsAll es)

private theorem FunctionDef.paired_steps (receiver? : Option Param) :
    ∀ f : FunctionDef, Step.Paired (f.steps receiver?)
  | .mk _ _ _ body _ => .body _ (Block.paired_steps body)

private theorem Block.paired_steps : ∀ b : Block, Step.Paired b.steps
  | .mk stmts _ => Stmt.paired_stepsAll stmts

private theorem Conditional.paired_steps : ∀ cond : Conditional, Step.Paired cond.steps
  | .mk cond body otherwise _ =>
    .append (.append (Expr.paired_steps cond) (Block.paired_steps body))
      (Alternative.paired_steps otherwise)

private theorem Alternative.paired_steps : ∀ a : Alternative, Step.Paired a.steps
  | .nothing => .nil
  | .block body => Block.paired_steps body
  | .conditional next => Conditional.paired_steps next

private theorem Stmt.paired_steps : ∀ stmt : Stmt, Step.Paired stmt.steps
  | .importing i => .importing i
  | .function f => FunctionDef.paired_steps none f
  | .method receiver f => FunctionDef.paired_steps (some receiver) f
  | .varDecl isConst targets values span =>
    .declares isConst targets values span (Expr.paired_stepsAll values)
  | .typeDecl _ => .stop nofun
  | .assign targets values span =>
    .append (.stop (x := .assigning targets values span) nofun)
      (.append (Expr.paired_stepsAll targets) (Expr.paired_stepsAll values))
  | .conditional cond => Conditional.paired_steps cond
  | .ret none _ => .nil
  | .ret (some e) _ => Expr.paired_steps e
  | .block b => Block.paired_steps b
  | .expr e => Expr.paired_steps e

private theorem Stmt.paired_stepsAll : ∀ stmts : List Stmt, Step.Paired (Stmt.stepsAll stmts)
  | [] => .nil
  | stmt :: stmts => .append (Stmt.paired_steps stmt) (Stmt.paired_stepsAll stmts)

end

theorem Program.paired_steps (p : Program) : Step.Paired p.steps := Stmt.paired_stepsAll p.stmts

/-! ### Following a script -/

namespace Visitor

variable {σ : Type} (v : Visitor σ) (turnTo : String → σ → σ)

/-- What a visitor does at a place that stays in its scope. -/
def stop (s : ScopeId) : Stop → σ → σ
  | .typeDecl d => v.typeDecl s d
  | .declaring isConst targets values span => v.declaring s isConst targets values span
  | .declared targets values => v.declared s targets values
  | .assigning targets values span => v.assigning targets values span
  | .name name => v.name s name
  | .qualified module name => v.qualified s module name

/-- What a visitor does at the head of a function or a method, and the scope of the body. -/
def head (s : ScopeId) (h : Head) (c : σ) : Option ScopeId × σ :=
  match h.receiver? with
  | none => v.function s h.name h.params h.ret c
  | some receiver => v.method s receiver h.name h.params h.ret c

mutual

/-- Follows a step of a script. -/
def walkStep (s : ScopeId) : Step → σ → σ
  | .importing i, c => v.walkImport turnTo s i c
  | .stop x, c => v.stop s x c
  | .body h inner, c =>
    match v.head s h c with
    | (none, c) => c
    | (some t, c) => walkSteps t inner c

/-- Follows a script. -/
def walkSteps (s : ScopeId) : List Step → σ → σ
  | [], c => c
  | y :: ys, c => walkSteps s ys (walkStep s y c)

end

/-- A script is followed part by part. -/
theorem walkSteps_append (s : ScopeId) (ys zs : List Step) (c : σ) :
    v.walkSteps turnTo s (ys ++ zs) c = v.walkSteps turnTo s zs (v.walkSteps turnTo s ys c) := by
  induction ys generalizing c with
  | nil => rfl
  | cons y ys ih => exact ih (v.walkStep turnTo s y c)

private theorem walkSteps_singleton (s : ScopeId) (y : Step) (c : σ) :
    v.walkSteps turnTo s [y] c = v.walkStep turnTo s y c := rfl

mutual

private theorem walkExpr_eq (s : ScopeId) :
    ∀ (e : Expr) (c : σ), v.walkExpr turnTo s e c = v.walkSteps turnTo s e.steps c
  | .literal _ _, _ => rfl
  | .ident _, _ => rfl
  | .qualified _ _ _, _ => rfl
  | .binary _ left right _, c => by
    rw [walkExpr, Expr.steps, walkSteps_append, walkExpr_eq s left, walkExpr_eq s right]
  | .unary _ operand _, c => walkExpr_eq s operand c
  | .call callee args _, c => by
    rw [walkExpr, Expr.steps, walkSteps_append, walkExpr_eq s callee, walkExprs_eq s args]
  | .field object _ _, c => walkExpr_eq s object c
  | .index object index _, c => by
    rw [walkExpr, Expr.steps, walkSteps_append, walkExpr_eq s object, walkExpr_eq s index]
  | .array elements _, c => walkExprs_eq s elements c
  | .function f, c => walkFunction_eq s f c

private theorem walkExprs_eq (s : ScopeId) :
    ∀ (es : List Expr) (c : σ),
      v.walkExprs turnTo s es c = v.walkSteps turnTo s (Expr.stepsAll es) c
  | [], _ => rfl
  | e :: es, c => by
    rw [walkExprs, Expr.stepsAll, walkSteps_append, walkExpr_eq s e, walkExprs_eq s es]

private theorem walkFunction_eq (s : ScopeId) :
    ∀ (f : FunctionDef) (c : σ),
      v.walkFunction turnTo s f c = v.walkSteps turnTo s (f.steps none) c
  | .mk name params ret body _, c => by
    rw [walkFunction, FunctionDef.steps, walkSteps_singleton, walkStep, head]
    rcases v.function s name params ret c with ⟨_ | t, d⟩
    · rfl
    · exact walkBlock_eq t body d

private theorem walkMethod_eq (s : ScopeId) (receiver : Param) :
    ∀ (f : FunctionDef) (c : σ),
      v.walkMethod turnTo s receiver f c = v.walkSteps turnTo s (f.steps (some receiver)) c
  | .mk name params ret body _, c => by
    rw [walkMethod, FunctionDef.steps, walkSteps_singleton, walkStep]
    dsimp only [head]
    rcases v.method s receiver name params ret c with ⟨_ | t, d⟩
    · rfl
    · exact walkBlock_eq t body d

private theorem walkBlock_eq (s : ScopeId) :
    ∀ (b : Block) (c : σ), v.walkBlock turnTo s b c = v.walkSteps turnTo s b.steps c
  | .mk stmts _, c => walkStmts_eq s stmts c

private theorem walkConditional_eq (s : ScopeId) :
    ∀ (cond : Conditional) (c : σ),
      v.walkConditional turnTo s cond c = v.walkSteps turnTo s cond.steps c
  | .mk cond body otherwise _, c => by
    rw [walkConditional, Conditional.steps, walkSteps_append, walkSteps_append, walkExpr_eq s cond,
      walkBlock_eq s body, walkAlternative_eq s otherwise]

private theorem walkAlternative_eq (s : ScopeId) :
    ∀ (a : Alternative) (c : σ), v.walkAlternative turnTo s a c = v.walkSteps turnTo s a.steps c
  | .nothing, _ => rfl
  | .block body, c => walkBlock_eq s body c
  | .conditional next, c => walkConditional_eq s next c

private theorem walkStmt_eq (s : ScopeId) :
    ∀ (stmt : Stmt) (c : σ), v.walkStmt turnTo s stmt c = v.walkSteps turnTo s stmt.steps c
  | .importing _, _ => rfl
  | .function f, c => walkFunction_eq s f c
  | .method receiver f, c => walkMethod_eq s receiver f c
  | .varDecl isConst targets values span, c => by
    rw [walkStmt, Stmt.steps, walkSteps, walkSteps_append, walkExprs_eq s values]
    rfl
  | .typeDecl _, _ => rfl
  | .assign targets values span, c => by
    rw [walkStmt, Stmt.steps, walkSteps, walkSteps_append, walkExprs_eq s targets,
      walkExprs_eq s values]
    rfl
  | .conditional cond, c => walkConditional_eq s cond c
  | .ret none _, _ => rfl
  | .ret (some e) _, c => walkExpr_eq s e c
  | .block b, c => walkBlock_eq s b c
  | .expr e, c => walkExpr_eq s e c

/-- Walking statements is following their script. -/
theorem walkStmts_eq (s : ScopeId) :
    ∀ (stmts : List Stmt) (c : σ),
      v.walkStmts turnTo s stmts c = v.walkSteps turnTo s (Stmt.stepsAll stmts) c
  | [], _ => rfl
  | stmt :: stmts, c => by
    rw [walkStmts, Stmt.stepsAll, walkSteps_append, walkStmt_eq s stmt, walkStmts_eq s stmts]

end

end Visitor

end Sable
