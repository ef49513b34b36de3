import Sable.Proofs.Module.Respect
import Sable.Proofs.Module.Walk
import Sable.Proofs.Syntax.Binders

/-!
# Walks that omit a declaration

One walk goes over a program, another one over the program without one of its declarations. The first
one comes to the declaration on its way; if its visit there finds no body and leaves the states in
step, so do the whole walks. It may also turn out on the way that the declaration is none that may be
struck out: then the first walk is off for good, and nothing is said of the second one.
-/

namespace Sable

variable {σ τ : Type} {x : Ident} {A : σ → τ → Prop} {Off : σ → Prop}

/-- Two states are in step, or the first one is off. -/
def InStepOr (A : σ → τ → Prop) (Off : σ → Prop) (c : σ) (d : τ) : Prop := A c d ∨ Off c

/-- What keeps two states in step, and a state that is off as well, keeps either. -/
theorem InStepOr.elim {c c' : σ} {d d' : τ} (h : InStepOr A Off c d)
    (hA : A c d → InStepOr A Off c' d') (hOff : Off c → Off c') : InStepOr A Off c' d' :=
  Or.elim h hA fun hoff => Or.inr (hOff hoff)

namespace Visitor

/--
Visits of one program and of the same program without a declaration keep the states in step, and so
does the visit of the declaration itself, which has no body there.
-/
structure Omits (x : Ident) (A : σ → τ → Prop) (Off : σ → Prop) (v : Visitor σ) (w : Visitor τ) :
    Prop where
  /-- An import leads to the same module. -/
  importing : ∀ {s c d} i, A c d →
    (v.importing s i c).1 = (w.importing s i d).1 ∧ A (v.importing s i c).2 (w.importing s i d).2
  /-- Another function has the same body. -/
  function : ∀ {s c d name} {params : List Param} ret, A c d → name ≠ x →
    x ∉ params.map Param.name →
    (v.function s name params ret c).1 = (w.function s name params ret d).1 ∧
      A (v.function s name params ret c).2 (w.function s name params ret d).2
  /-- Another method has the same body. -/
  method : ∀ {s c d receiver name} {params : List Param} ret, A c d → name ≠ x →
    x ∉ (receiver :: params).map Param.name →
    (v.method s receiver name params ret c).1 = (w.method s receiver name params ret d).1 ∧
      A (v.method s receiver name params ret c).2 (w.method s receiver name params ret d).2
  /-- Another type. -/
  typeDecl : ∀ {s c d D}, A c d → D.name ≠ x → x ∉ D.fieldNames →
    A (v.typeDecl s D c) (w.typeDecl s D d)
  /-- What stands in front of the values of a declaration. -/
  declaring : ∀ {s c d targets} isConst values span, A c d → x ∉ targets.map VarBinder.name →
    A (v.declaring s isConst targets values span c)
      (w.declaring s isConst targets (Expr.withoutAll x values) span d)
  /-- What stands behind the values of a declaration. -/
  declared : ∀ {s c d} targets values, A c d →
    A (v.declared s targets values c) (w.declared s targets (Expr.withoutAll x values) d)
  /-- An assignment. -/
  assigning : ∀ {c d} targets values span, A c d →
    A (v.assigning targets values span c)
      (w.assigning (Expr.withoutAll x targets) (Expr.withoutAll x values) span d)
  /-- A name. -/
  name : ∀ {s c d} name, A c d → A (v.name s name c) (w.name s name d)
  /-- A qualified name. -/
  qualified : ∀ {s c d} module name, A c d →
    A (v.qualified s module name c) (w.qualified s module name d)
  /-- The function that is struck out. -/
  omittedFunction : ∀ {s c d} {params : List Param} ret, A c d → x ∉ params.map Param.name →
    ((v.function s x params ret c).1 = none ∧ A (v.function s x params ret c).2 d) ∨
      Off (v.function s x params ret c).2
  /-- The method that is struck out. -/
  omittedMethod : ∀ {s c d receiver} {params : List Param} ret, A c d →
    x ∉ (receiver :: params).map Param.name →
    ((v.method s receiver x params ret c).1 = none ∧ A (v.method s receiver x params ret c).2 d) ∨
      Off (v.method s receiver x params ret c).2
  /-- The type that is struck out. -/
  omittedType : ∀ {s c d D}, A c d → D.name = x → x ∉ D.fieldNames →
    InStepOr A Off (v.typeDecl s D c) d

/-- A walk that is off stays off. -/
abbrev StaysOff (Off : σ → Prop) (v : Visitor σ) (turnTo : String → σ → σ) : Prop :=
  v.Keeps turnTo (fun _ => True) (fun _ _ => True) (fun _ _ => True) fun c d => Off c → Off d

variable {v : Visitor σ} {w : Visitor τ} {turnTo : String → σ → σ} {turnTo' : String → τ → τ}

/-- The declaration that is struck out is walked on one side only. -/
private theorem walkStmt_omitted (hv : v.Omits x A Off w) (hoff : v.StaysOff Off turnTo)
    {s : ScopeId} {stmt : Stmt} (hdeclared : stmt.declared? = some x)
    (hx : .inner x ∉ stmt.binders) {c : σ} {d : τ} (h : InStepOr A Off c d) :
    InStepOr A Off (v.walkStmt turnTo s stmt c) d := by
  refine h.elim (fun hA => ?_) (walkStmt_keeps hoff stmt (by simp) (by simp) trivial)
  unfold Stmt.declared? at hdeclared
  split at hdeclared
  · next f =>
    obtain ⟨name, params, ret, body, span⟩ := f
    obtain rfl : name = x := Option.some.inj hdeclared
    have hparams : name ∉ params.map Param.name ∧ .inner name ∉ body.binders := by
      simpa [Stmt.binders, FunctionDef.binders, eq_comm] using hx
    have hhead := hv.omittedFunction (s := s) ret hA hparams.1
    simp only [walkStmt, walkFunction]
    generalize v.function s name params ret c = r at hhead
    obtain ⟨inner?, c'⟩ := r
    cases inner? with
    | none => exact hhead.imp_left And.right
    | some inner =>
      have hoff' := hhead.resolve_left fun hnone => Option.some_ne_none _ hnone.1
      exact Or.inr (walkBlock_keeps hoff body (by simp) (by simp) trivial hoff')
  · next receiver f =>
    obtain ⟨name, params, ret, body, span⟩ := f
    obtain rfl : name = x := Option.some.inj hdeclared
    have hparams : name ∉ (receiver :: params).map Param.name ∧ .inner name ∉ body.binders := by
      simpa [Stmt.binders, FunctionDef.binders, eq_comm, and_assoc] using hx
    have hhead := hv.omittedMethod (s := s) ret hA hparams.1
    simp only [walkStmt, walkMethod]
    generalize v.method s receiver name params ret c = r at hhead
    obtain ⟨inner?, c'⟩ := r
    cases inner? with
    | none => exact hhead.imp_left And.right
    | some inner =>
      have hoff' := hhead.resolve_left fun hnone => Option.some_ne_none _ hnone.1
      exact Or.inr (walkBlock_keeps hoff body (by simp) (by simp) trivial hoff')
  · next D =>
    exact hv.omittedType hA (Option.some.inj hdeclared) (by simpa [Stmt.binders] using hx)
  · cases hdeclared

section

variable (hv : v.Omits x A Off w) (hoff : v.StaysOff Off turnTo)
  (hturn : ∀ key {c d}, InStepOr A Off c d → InStepOr A Off (turnTo key c) (turnTo' key d))
include hv hoff hturn

-- The assumptions are used somewhere in the recursion, though not in every theorem of it.
set_option linter.unusedSectionVars false

theorem walkImport_omits (s : ScopeId) (i : Import) {c : σ} {d : τ} (h : InStepOr A Off c d) :
    InStepOr A Off (v.walkImport turnTo s i c) (w.walkImport turnTo' s i d) := by
  refine h.elim (fun hA => ?_) (hoff.importing i trivial trivial)
  have himport := hv.importing (s := s) i hA
  simp only [walkImport]
  generalize v.importing s i c = r, w.importing s i d = r' at himport
  obtain ⟨key?, c'⟩ := r
  obtain ⟨key?', d'⟩ := r'
  obtain ⟨hkey, hA'⟩ := himport
  obtain rfl : key? = key?' := hkey
  cases key? with
  | none => exact Or.inl hA'
  | some key => exact hturn key (Or.inl hA')

mutual

theorem walkExpr_omits (s : ScopeId) : ∀ (e : Expr), .inner x ∉ e.binders → ∀ {c : σ} {d : τ},
    InStepOr A Off c d →
      InStepOr A Off (v.walkExpr turnTo s e c) (w.walkExpr turnTo' s (e.without x) d)
  | .literal _ _, _, _, _, h => h
  | .ident name, _, _, _, h =>
    h.elim (fun hA => Or.inl (hv.name name hA)) (hoff.name name trivial)
  | .qualified module name _, _, _, _, h =>
    h.elim (fun hA => Or.inl (hv.qualified module name hA)) (hoff.qualified module name trivial)
  | .binary _ left right _, hx, _, _, h => by
    simp only [Expr.binders, List.mem_append, not_or] at hx
    exact walkExpr_omits s right hx.2 (walkExpr_omits s left hx.1 h)
  | .unary _ operand _, hx, _, _, h => walkExpr_omits s operand hx h
  | .call callee args _, hx, _, _, h => by
    simp only [Expr.binders, List.mem_append, not_or] at hx
    exact walkExprs_omits s args hx.2 (walkExpr_omits s callee hx.1 h)
  | .field object _ _, hx, _, _, h => walkExpr_omits s object hx h
  | .index object index _, hx, _, _, h => by
    simp only [Expr.binders, List.mem_append, not_or] at hx
    exact walkExpr_omits s index hx.2 (walkExpr_omits s object hx.1 h)
  | .array elements _, hx, _, _, h => walkExprs_omits s elements hx h
  | .function f, hx, _, _, h => by
    simp only [Expr.binders, List.mem_cons, not_or, Binder.inner.injEq] at hx
    exact walkFunction_omits s f (Ne.symm hx.1) hx.2 h

theorem walkExprs_omits (s : ScopeId) :
    ∀ (es : List Expr), .inner x ∉ Expr.bindersAll es → ∀ {c : σ} {d : τ}, InStepOr A Off c d →
      InStepOr A Off (v.walkExprs turnTo s es c) (w.walkExprs turnTo' s (Expr.withoutAll x es) d)
  | [], _, _, _, h => h
  | e :: es, hx, _, _, h => by
    simp only [Expr.bindersAll, List.mem_append, not_or] at hx
    exact walkExprs_omits s es hx.2 (walkExpr_omits s e hx.1 h)

/-- A function of another name. -/
theorem walkFunction_omits (s : ScopeId) :
    ∀ (f : FunctionDef), f.name ≠ x → .inner x ∉ f.binders none → ∀ {c : σ} {d : τ},
      InStepOr A Off c d →
        InStepOr A Off (v.walkFunction turnTo s f c) (w.walkFunction turnTo' s (f.without x) d)
  | .mk name params ret body span, hname, hx, c, d, h => by
    have hx' : x ∉ params.map Param.name ∧ .inner x ∉ body.binders := by
      simpa [FunctionDef.binders, eq_comm] using hx
    refine h.elim (fun hA => ?_) (walkFunction_keeps hoff (.mk name params ret body span) (by simp)
      trivial)
    have hother : name ≠ x := hname
    have hhead := hv.function (s := s) ret hA hother hx'.1
    simp only [FunctionDef.without, walkFunction]
    generalize v.function s name params ret c = r, w.function s name params ret d = r' at hhead
    obtain ⟨inner?, c'⟩ := r
    obtain ⟨inner?', d'⟩ := r'
    obtain ⟨hinner, hA'⟩ := hhead
    obtain rfl : inner? = inner?' := hinner
    cases inner? with
    | none => exact Or.inl hA'
    | some inner => exact walkBlock_omits inner body hx'.2 (Or.inl hA')

/-- A method of another name. -/
theorem walkMethod_omits (s : ScopeId) (receiver : Param) :
    ∀ (f : FunctionDef), f.name ≠ x → .inner x ∉ f.binders (some receiver) → ∀ {c : σ} {d : τ},
      InStepOr A Off c d → InStepOr A Off (v.walkMethod turnTo s receiver f c)
        (w.walkMethod turnTo' s receiver (f.without x) d)
  | .mk name params ret body span, hname, hx, c, d, h => by
    have hx' : x ∉ (receiver :: params).map Param.name ∧ .inner x ∉ body.binders := by
      simpa [FunctionDef.binders, eq_comm, and_assoc] using hx
    refine h.elim (fun hA => ?_) (walkMethod_keeps hoff receiver trivial
      (.mk name params ret body span) (by simp) trivial)
    have hother : name ≠ x := hname
    have hhead := hv.method (s := s) ret hA hother hx'.1
    simp only [FunctionDef.without, walkMethod]
    generalize v.method s receiver name params ret c = r,
      w.method s receiver name params ret d = r' at hhead
    obtain ⟨inner?, c'⟩ := r
    obtain ⟨inner?', d'⟩ := r'
    obtain ⟨hinner, hA'⟩ := hhead
    obtain rfl : inner? = inner?' := hinner
    cases inner? with
    | none => exact Or.inl hA'
    | some inner => exact walkBlock_omits inner body hx'.2 (Or.inl hA')

theorem walkBlock_omits (s : ScopeId) : ∀ (b : Block), .inner x ∉ b.binders → ∀ {c : σ} {d : τ},
    InStepOr A Off c d →
      InStepOr A Off (v.walkBlock turnTo s b c) (w.walkBlock turnTo' s (b.without x) d)
  | .mk stmts _, hx, _, _, h => walkStmts_omits s stmts hx h

theorem walkConditional_omits (s : ScopeId) :
    ∀ (cond : Conditional), .inner x ∉ cond.binders → ∀ {c : σ} {d : τ}, InStepOr A Off c d →
      InStepOr A Off (v.walkConditional turnTo s cond c)
        (w.walkConditional turnTo' s (cond.without x) d)
  | .mk cond body otherwise _, hx, _, _, h => by
    simp only [Conditional.binders, List.mem_append, not_or] at hx
    exact walkAlternative_omits s otherwise hx.2
      (walkBlock_omits s body hx.1.2 (walkExpr_omits s cond hx.1.1 h))

theorem walkAlternative_omits (s : ScopeId) :
    ∀ (a : Alternative), .inner x ∉ a.binders → ∀ {c : σ} {d : τ}, InStepOr A Off c d →
      InStepOr A Off (v.walkAlternative turnTo s a c) (w.walkAlternative turnTo' s (a.without x) d)
  | .nothing, _, _, _, h => h
  | .block body, hx, _, _, h => walkBlock_omits s body hx h
  | .conditional next, hx, _, _, h => walkConditional_omits s next hx h

/-- A statement that is not struck out. -/
theorem walkStmt_omits (s : ScopeId) :
    ∀ (stmt : Stmt), stmt.declared? ≠ some x → .inner x ∉ stmt.binders → ∀ {c : σ} {d : τ},
      InStepOr A Off c d →
        InStepOr A Off (v.walkStmt turnTo s stmt c) (w.walkStmt turnTo' s (stmt.without x) d)
  | .importing i, _, _, _, _, h => walkImport_omits hv hoff hturn s i h
  | .function f, hname, hx, _, _, h =>
    walkFunction_omits s f (fun he => hname (congrArg some he)) (List.not_mem_of_not_mem_cons hx) h
  | .method receiver f, hname, hx, _, _, h =>
    walkMethod_omits s receiver f (fun he => hname (congrArg some he))
      (List.not_mem_of_not_mem_cons hx) h
  | .varDecl isConst targets values span, _, hx, c, d, h => by
    have hx' : x ∉ targets.map VarBinder.name ∧ .inner x ∉ Expr.bindersAll values := by
      simpa [Stmt.binders, eq_comm] using hx
    have hfront : InStepOr A Off (v.declaring s isConst targets values span c)
        (w.declaring s isConst targets (Expr.withoutAll x values) span d) :=
      h.elim (fun hA => Or.inl (hv.declaring isConst values span hA hx'.1))
        (hoff.declaring isConst targets values span trivial)
    exact (walkExprs_omits s values hx'.2 hfront).elim
      (fun hA => Or.inl (hv.declared targets values hA)) (hoff.declared targets values trivial)
  | .typeDecl D, hname, hx, _, _, h => by
    have hx' : x ∉ D.fieldNames := by simpa [Stmt.binders] using hx
    exact h.elim (fun hA => Or.inl (hv.typeDecl hA (fun he => hname (congrArg some he)) hx'))
      (hoff.typeDecl D trivial)
  | .assign targets values span, _, hx, c, d, h => by
    simp only [Stmt.binders, List.mem_append, not_or] at hx
    have hfront : InStepOr A Off (v.assigning targets values span c)
        (w.assigning (Expr.withoutAll x targets) (Expr.withoutAll x values) span d) :=
      h.elim (fun hA => Or.inl (hv.assigning targets values span hA))
        (hoff.assigning (s := s) targets values span trivial)
    exact walkExprs_omits s values hx.2 (walkExprs_omits s targets hx.1 hfront)
  | .conditional cond, _, hx, _, _, h => walkConditional_omits s cond hx h
  | .ret none _, _, _, _, _, h => h
  | .ret (some e) _, _, hx, _, _, h => walkExpr_omits s e hx h
  | .block b, _, hx, _, _, h => walkBlock_omits s b hx h
  | .expr e, _, hx, _, _, h => walkExpr_omits s e hx h

/-- A walk over statements and one without a declaration among them, or deeper inside. -/
theorem walkStmts_omits (s : ScopeId) :
    ∀ (stmts : List Stmt), .inner x ∉ Stmt.bindersAll stmts → ∀ {c : σ} {d : τ},
      InStepOr A Off c d → InStepOr A Off (v.walkStmts turnTo s stmts c)
        (w.walkStmts turnTo' s (Stmt.withoutAll x stmts) d)
  | [], _, _, _, h => h
  | stmt :: stmts, hx, _, _, h => by
    simp only [Stmt.bindersAll, List.mem_append, not_or] at hx
    rw [Stmt.withoutAll]
    split
    · next hdeclared =>
      exact walkStmts_omits s stmts hx.2 (walkStmt_omitted hv hoff hdeclared hx.1 h)
    · next hkept => exact walkStmts_omits s stmts hx.2 (walkStmt_omits s stmt hkept hx.1 h)

end

end

end Visitor

/-! ### Traversals -/

/-- A module without a declaration. -/
def Module.without (x : Ident) (m : Module) : Module := { m with program := m.program.without x }

namespace Traversal

/-- Two traversals keep states in step whose modules are the same, but for a declaration. -/
structure Omits (x : Ident) (A : σ → τ → Prop) (Off : σ → Prop) (t : Traversal σ)
    (u : Traversal τ) : Prop where
  /-- The same module is entered, and the name is declared by no more than statements in it. -/
  enter : ∀ key {c d}, A c d → (A (t.enter key c).2 (u.enter key d).2 ∧
    (u.enter key d).1 = (t.enter key c).1.map (Module.without x) ∧
      ∀ m ∈ (t.enter key c).1, .inner x ∉ m.program.binders) ∨ Off (t.enter key c).2
  /-- The visits keep the states in step. -/
  visitor : ∀ m, (t.visitor m).Omits x A Off (u.visitor (m.without x))
  /-- Leaving a module does. -/
  leave : ∀ key {c d}, A c d → A (t.leave key c) (u.leave key d)
  /-- So does giving a module up. -/
  giveUp : ∀ key {c d}, A c d → A (t.giveUp key c) (u.giveUp key d)
  /-- A run that is off stays off. -/
  off : t.Respects fun c d => Off c → Off d

/-- What every step of a traversal keeps is kept by the walks over modules. -/
theorem Respects.staysOff {t : Traversal σ} (h : t.Respects fun c d => Off c → Off d) (n : Nat)
    (m : Module) : (t.visitor m).StaysOff Off (t.runWithin n) where
  function name params ret _ := ⟨h.head m _ ⟨none, name, params, ret⟩ _, fun _ _ => ⟨trivial, by simp⟩⟩
  method receiver name params ret _ _ :=
    ⟨h.head m _ ⟨some receiver, name, params, ret⟩ _, fun _ _ => ⟨trivial, by simp⟩⟩
  typeDecl d _ := h.stop m _ (.typeDecl d) _
  declaring isConst targets values span _ := h.stop m _ (.declaring isConst targets values span) _
  declared targets values _ := h.stop m _ (.declared targets values) _
  assigning targets values span _ := h.stop m 0 (.assigning targets values span) _
  name name _ := h.stop m _ (.name name) _
  qualified module name _ := h.stop m _ (.qualified module name) _
  refl := h.refl
  trans := h.trans
  later _ _ := trivial
  importing {s c} i _ _ := by
    have himport := h.importing m s i c
    rw [Visitor.walkImport]
    generalize (t.visitor m).importing s i c = r at himport
    obtain ⟨_ | key, d⟩ := r
    · exact himport
    · exact h.trans himport (h.runWithin n key d)

/-- Two traversals in step run in step, unless the first one gets off. -/
theorem Omits.runWithin {t : Traversal σ} {u : Traversal τ} (h : t.Omits x A Off u) (n : Nat)
    (key : String) {c : σ} {d : τ} (hcd : InStepOr A Off c d) :
    InStepOr A Off (t.runWithin n key c) (u.runWithin n key d) := by
  induction n generalizing key c d with
  | zero => exact hcd.elim (fun hA => Or.inl (h.giveUp key hA)) (h.off.giveUp key c)
  | succ n ih =>
    refine hcd.elim (fun hA => ?_) (h.off.runWithin (n + 1) key c)
    have henter := h.enter key hA
    rw [Traversal.runWithin, Traversal.runWithin]
    generalize t.enter key c = r, u.enter key d = r' at henter
    obtain ⟨m?, c'⟩ := r
    obtain ⟨m?', d'⟩ := r'
    rcases henter with ⟨hstates, hmodules, hinner⟩ | hoff
    · obtain rfl : m?' = m?.map (Module.without x) := hmodules
      cases m? with
      | none => exact Or.inl hstates
      | some m =>
        have hwalk := Visitor.walkStmts_omits (h.visitor m) (h.off.staysOff n m)
          (fun key _ _ => ih key) m.root m.program.stmts (hinner m rfl) (Or.inl hstates)
        exact hwalk.elim (fun hA => Or.inl (h.leave key hA)) (h.off.leave key _)
    · cases m? with
      | none => exact Or.inr hoff
      | some m =>
        dsimp only
        rw [Visitor.walkStmts_eq]
        exact Or.inr (h.off.leave key _ (h.off.walkSteps (h.off.runWithin n) m _ _ _ hoff))

end Traversal

end Sable
