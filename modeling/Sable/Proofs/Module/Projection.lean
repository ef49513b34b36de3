import Sable.Module.Traversal

/-!
# Projected walks

A state may hold more than a pass looks at. If every visit acts on a part of the state as
another visitor acts on that part alone, so does every walk, and every traversal.
-/

namespace Sable

variable {σ τ : Type}

/-- Every visit acts on a part of the state as another visitor acts on the part alone. -/
structure Visitor.Projects (v : Visitor τ) (π : τ → σ) (w : Visitor σ) : Prop where
  /-- An import acts on the part, and turns to the same module. -/
  importing : ∀ s i c, w.importing s i (π c) = Prod.map id π (v.importing s i c)
  /-- A function acts on the part, and its body has the same scope. -/
  function : ∀ s name params ret c,
    w.function s name params ret (π c) = Prod.map id π (v.function s name params ret c)
  /-- A method acts on the part, and its body has the same scope. -/
  method : ∀ s receiver name params ret c,
    w.method s receiver name params ret (π c) =
      Prod.map id π (v.method s receiver name params ret c)
  /-- A declared type acts on the part. -/
  typeDecl : ∀ s d c, w.typeDecl s d (π c) = π (v.typeDecl s d c)
  /-- What stands in front of the values of a declaration acts on the part. -/
  declaring : ∀ s isConst targets values span c,
    w.declaring s isConst targets values span (π c) =
      π (v.declaring s isConst targets values span c)
  /-- What stands behind the values of a declaration acts on the part. -/
  declared : ∀ s targets values c,
    w.declared s targets values (π c) = π (v.declared s targets values c)
  /-- An assignment acts on the part. -/
  assigning : ∀ targets values span c,
    w.assigning targets values span (π c) = π (v.assigning targets values span c)
  /-- A name acts on the part. -/
  name : ∀ s name c, w.name s name (π c) = π (v.name s name c)
  /-- A qualified name acts on the part. -/
  qualified : ∀ s module name c, w.qualified s module name (π c) = π (v.qualified s module name c)

namespace Visitor

variable {v : Visitor τ} {π : τ → σ} {w : Visitor σ} {turnTo : String → τ → τ}
  {turnTo' : String → σ → σ}

/-- An import acts on the part with all that it turns to. -/
private theorem walkImport_projects (hv : v.Projects π w)
    (ht : ∀ key c, turnTo' key (π c) = π (turnTo key c)) (s : ScopeId) (i : Import) (c : τ) :
    w.walkImport turnTo' s i (π c) = π (v.walkImport turnTo s i c) := by
  simp only [walkImport, hv.importing]
  rcases v.importing s i c with ⟨_ | key, d⟩
  · rfl
  · exact ht key d

mutual

private theorem walkExpr_projects (hv : v.Projects π w)
    (ht : ∀ key c, turnTo' key (π c) = π (turnTo key c)) {s : ScopeId} :
    ∀ (e : Expr) (c : τ), w.walkExpr turnTo' s e (π c) = π (v.walkExpr turnTo s e c)
  | .literal _ _, _ => rfl
  | .ident name, c => hv.name s name c
  | .qualified module name _, c => hv.qualified s module name c
  | .binary _ left right _, c => by
    simp only [walkExpr, walkExpr_projects hv ht left, walkExpr_projects hv ht right]
  | .unary _ operand _, c => walkExpr_projects hv ht operand c
  | .call callee args _, c => by
    simp only [walkExpr, walkExpr_projects hv ht callee, walkExprs_projects hv ht args]
  | .field object _ _, c => walkExpr_projects hv ht object c
  | .index object index _, c => by
    simp only [walkExpr, walkExpr_projects hv ht object, walkExpr_projects hv ht index]
  | .array elements _, c => walkExprs_projects hv ht elements c
  | .function f, c => walkFunction_projects hv ht f c

private theorem walkExprs_projects (hv : v.Projects π w)
    (ht : ∀ key c, turnTo' key (π c) = π (turnTo key c)) {s : ScopeId} :
    ∀ (es : List Expr) (c : τ), w.walkExprs turnTo' s es (π c) = π (v.walkExprs turnTo s es c)
  | [], _ => rfl
  | e :: es, c => by
    simp only [walkExprs, walkExpr_projects hv ht e, walkExprs_projects hv ht es]

private theorem walkFunction_projects (hv : v.Projects π w)
    (ht : ∀ key c, turnTo' key (π c) = π (turnTo key c)) {s : ScopeId} :
    ∀ (f : FunctionDef) (c : τ), w.walkFunction turnTo' s f (π c) = π (v.walkFunction turnTo s f c)
  | .mk name params ret body _, c => by
    simp only [walkFunction, hv.function]
    rcases v.function s name params ret c with ⟨_ | inner, d⟩
    · rfl
    · exact walkBlock_projects hv ht body d

private theorem walkMethod_projects (hv : v.Projects π w)
    (ht : ∀ key c, turnTo' key (π c) = π (turnTo key c)) {s : ScopeId} (receiver : Param) :
    ∀ (f : FunctionDef) (c : τ),
      w.walkMethod turnTo' s receiver f (π c) = π (v.walkMethod turnTo s receiver f c)
  | .mk name params ret body _, c => by
    simp only [walkMethod, hv.method]
    rcases v.method s receiver name params ret c with ⟨_ | inner, d⟩
    · rfl
    · exact walkBlock_projects hv ht body d

private theorem walkBlock_projects (hv : v.Projects π w)
    (ht : ∀ key c, turnTo' key (π c) = π (turnTo key c)) {s : ScopeId} :
    ∀ (b : Block) (c : τ), w.walkBlock turnTo' s b (π c) = π (v.walkBlock turnTo s b c)
  | .mk stmts _, c => walkStmts_projects hv ht stmts c

private theorem walkConditional_projects (hv : v.Projects π w)
    (ht : ∀ key c, turnTo' key (π c) = π (turnTo key c)) {s : ScopeId} :
    ∀ (cond : Conditional) (c : τ),
      w.walkConditional turnTo' s cond (π c) = π (v.walkConditional turnTo s cond c)
  | .mk cond body otherwise _, c => by
    simp only [walkConditional, walkExpr_projects hv ht cond, walkBlock_projects hv ht body,
      walkAlternative_projects hv ht otherwise]

private theorem walkAlternative_projects (hv : v.Projects π w)
    (ht : ∀ key c, turnTo' key (π c) = π (turnTo key c)) {s : ScopeId} :
    ∀ (a : Alternative) (c : τ),
      w.walkAlternative turnTo' s a (π c) = π (v.walkAlternative turnTo s a c)
  | .nothing, _ => rfl
  | .block body, c => walkBlock_projects hv ht body c
  | .conditional next, c => walkConditional_projects hv ht next c

private theorem walkStmt_projects (hv : v.Projects π w)
    (ht : ∀ key c, turnTo' key (π c) = π (turnTo key c)) {s : ScopeId} :
    ∀ (stmt : Stmt) (c : τ), w.walkStmt turnTo' s stmt (π c) = π (v.walkStmt turnTo s stmt c)
  | .importing i, c => walkImport_projects hv ht s i c
  | .function f, c => walkFunction_projects hv ht f c
  | .method receiver f, c => walkMethod_projects hv ht receiver f c
  | .varDecl isConst targets values span, c => by
    simp only [walkStmt, hv.declaring, walkExprs_projects hv ht values, hv.declared]
  | .typeDecl d, c => hv.typeDecl s d c
  | .assign targets values span, c => by
    simp only [walkStmt, hv.assigning, walkExprs_projects hv ht targets,
      walkExprs_projects hv ht values]
  | .conditional cond, c => walkConditional_projects hv ht cond c
  | .ret none _, _ => rfl
  | .ret (some e) _, c => walkExpr_projects hv ht e c
  | .block b, c => walkBlock_projects hv ht b c
  | .expr e, c => walkExpr_projects hv ht e c

/-- A walk over statements acts on the part. -/
theorem walkStmts_projects (hv : v.Projects π w)
    (ht : ∀ key c, turnTo' key (π c) = π (turnTo key c)) {s : ScopeId} :
    ∀ (stmts : List Stmt) (c : τ),
      w.walkStmts turnTo' s stmts (π c) = π (v.walkStmts turnTo s stmts c)
  | [], _ => rfl
  | stmt :: stmts, c => by
    simp only [walkStmts, walkStmt_projects hv ht stmt, walkStmts_projects hv ht stmts]

end

end Visitor

namespace Traversal

/-- Every step of a traversal acts on a part of the state as another one acts on it alone. -/
structure Projects (t : Traversal τ) (π : τ → σ) (u : Traversal σ) : Prop where
  /-- The same modules are processed. -/
  enter : ∀ key c, u.enter key (π c) = Prod.map id π (t.enter key c)
  /-- The visits act on the part. -/
  visitor : ∀ m, (t.visitor m).Projects π (u.visitor m)
  /-- The end of a module acts on the part. -/
  leave : ∀ key c, u.leave key (π c) = π (t.leave key c)
  /-- Stopping short acts on the part. -/
  giveUp : ∀ key c, u.giveUp key (π c) = π (t.giveUp key c)

/-- A traversal acts on the part. -/
theorem Projects.runWithin {t : Traversal τ} {π : τ → σ} {u : Traversal σ} (h : t.Projects π u)
    (n : Nat) (key : String) (c : τ) : u.runWithin n key (π c) = π (t.runWithin n key c) := by
  induction n generalizing key c with
  | zero => exact h.giveUp key c
  | succ n ih =>
    simp only [Traversal.runWithin, h.enter]
    rcases t.enter key c with ⟨_ | m, d⟩
    · rfl
    · simp only [Prod.map_apply, id_eq, Visitor.walkStmts_projects (h.visitor m) ih, h.leave]

end Traversal

/-! ### Parts of parts -/

variable {ρ : Type} {π : τ → σ} {π' : σ → ρ}

private theorem Visitor.Projects.trans {v : Visitor τ} {w : Visitor σ} {u : Visitor ρ}
    (h : v.Projects π w) (h' : w.Projects π' u) : v.Projects (π' ∘ π) u where
  importing s i c := (h'.importing s i (π c)).trans (congrArg (Prod.map id π') (h.importing s i c))
  function s name params ret c :=
    (h'.function s name params ret (π c)).trans
      (congrArg (Prod.map id π') (h.function s name params ret c))
  method s receiver name params ret c :=
    (h'.method s receiver name params ret (π c)).trans
      (congrArg (Prod.map id π') (h.method s receiver name params ret c))
  typeDecl s d c := (h'.typeDecl s d (π c)).trans (congrArg π' (h.typeDecl s d c))
  declaring s isConst targets values span c :=
    (h'.declaring s isConst targets values span (π c)).trans
      (congrArg π' (h.declaring s isConst targets values span c))
  declared s targets values c :=
    (h'.declared s targets values (π c)).trans (congrArg π' (h.declared s targets values c))
  assigning targets values span c :=
    (h'.assigning targets values span (π c)).trans
      (congrArg π' (h.assigning targets values span c))
  name s name c := (h'.name s name (π c)).trans (congrArg π' (h.name s name c))
  qualified s module name c :=
    (h'.qualified s module name (π c)).trans (congrArg π' (h.qualified s module name c))

/-- A traversal that acts on a part acts on the parts of the part. -/
theorem Traversal.Projects.trans {t : Traversal τ} {u : Traversal σ} {w : Traversal ρ}
    (h : t.Projects π u) (h' : u.Projects π' w) : t.Projects (π' ∘ π) w where
  enter key c := (h'.enter key (π c)).trans (congrArg (Prod.map id π') (h.enter key c))
  visitor m := (h.visitor m).trans (h'.visitor m)
  leave key c := (h'.leave key (π c)).trans (congrArg π' (h.leave key c))
  giveUp key c := (h'.giveUp key (π c)).trans (congrArg π' (h.giveUp key c))

end Sable
