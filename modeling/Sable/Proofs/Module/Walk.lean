import Sable.Module.Visitor
import Sable.Proofs.Syntax.Places

/-!
# What a walk keeps

A walk visits the places of a program one after the other, so a relation between states that
every visit respects holds between the two ends of the walk. Where a visit is allowed depends
on the scope: `At` says in which state a scope may be visited, and the scope that comes out of
the head of a function may be visited next. Which imports may stand in a scope is said by `Q`;
a function may enclose any. Imports are left to the caller, since they may turn to other modules.
-/

namespace Sable.Visitor

variable {σ : Type}

/-- The body of a function may be visited in a scope, and may hold any import. -/
def Opens (P : Place → Prop) (Q : ScopeId → Import → Prop) (At : ScopeId → σ → Prop)
    (inner : ScopeId) (c : σ) : Prop := At inner c ∧ ∀ i, P (.importing i) → Q inner i

theorem Opens.outer {P : Place → Prop} {Q : ScopeId → Import → Prop} {At : ScopeId → σ → Prop}
    {inner : ScopeId} {c : σ} (h : Opens P Q At inner c) {b : Block} (hp : ∀ p ∈ b.places, P p) :
    ∀ i ∈ b.outerImports, Q inner i :=
  fun i hi => h.2 i (hp _ (b.mem_places_of_mem_outerImports hi))

/-- Every visit but that of an import respects a relation between states. -/
structure Visits (v : Visitor σ) (P : Place → Prop) (Q : ScopeId → Import → Prop)
    (At : ScopeId → σ → Prop) (R : σ → σ → Prop) : Prop where
  /-- A function keeps the relation, and its body may be visited. -/
  function : ∀ {s c} name params ret, At s c →
    R c (v.function s name params ret c).2 ∧
      ∀ inner ∈ (v.function s name params ret c).1,
        Opens P Q At inner (v.function s name params ret c).2
  /-- A method keeps the relation, and its body may be visited. -/
  method : ∀ {s c} receiver name params ret, P (.receiver receiver) → At s c →
    R c (v.method s receiver name params ret c).2 ∧
      ∀ inner ∈ (v.method s receiver name params ret c).1,
        Opens P Q At inner (v.method s receiver name params ret c).2
  /-- A declared type keeps the relation. -/
  typeDecl : ∀ {s c} d, At s c → R c (v.typeDecl s d c)
  /-- What stands in front of the values of a declaration keeps the relation. -/
  declaring : ∀ {s c} isConst targets values span, At s c →
    R c (v.declaring s isConst targets values span c)
  /-- What stands behind the values of a declaration keeps the relation. -/
  declared : ∀ {s c} targets values, At s c → R c (v.declared s targets values c)
  /-- An assignment keeps the relation. -/
  assigning : ∀ {s c} targets values span, At s c → R c (v.assigning targets values span c)
  /-- A name keeps the relation. -/
  name : ∀ {s c} name, At s c → R c (v.name s name c)
  /-- A qualified name keeps the relation. -/
  qualified : ∀ {s c} module name, At s c → R c (v.qualified s module name c)

/-- Visits that respect a relation respect every weaker one. -/
theorem Visits.imp {v : Visitor σ} {P : Place → Prop} {Q : ScopeId → Import → Prop}
    {At : ScopeId → σ → Prop} {R R' : σ → σ → Prop} (h : v.Visits P Q At R)
    (hR : ∀ {s c d}, At s c → R c d → R' c d) : v.Visits P Q At R' where
  function name params ret hs := (h.function name params ret hs).imp_left (hR hs)
  method receiver name params ret hr hs :=
    (h.method receiver name params ret hr hs).imp_left (hR hs)
  typeDecl d hs := hR hs (h.typeDecl d hs)
  declaring isConst targets values span hs := hR hs (h.declaring isConst targets values span hs)
  declared targets values hs := hR hs (h.declared targets values hs)
  assigning targets values span hs := hR hs (h.assigning targets values span hs)
  name name hs := hR hs (h.name name hs)
  qualified module name hs := hR hs (h.qualified module name hs)

/-- Visits that respect two relations respect both together. -/
theorem Visits.and {v : Visitor σ} {P : Place → Prop} {Q : ScopeId → Import → Prop}
    {At : ScopeId → σ → Prop} {R R' : σ → σ → Prop} (h : v.Visits P Q At R)
    (h' : v.Visits P Q At R') : v.Visits P Q At fun c d => R c d ∧ R' c d where
  function name params ret hs :=
    (h.function name params ret hs).imp_left fun hR => ⟨hR, (h'.function name params ret hs).1⟩
  method receiver name params ret hr hs :=
    (h.method receiver name params ret hr hs).imp_left fun hR =>
      ⟨hR, (h'.method receiver name params ret hr hs).1⟩
  typeDecl d hs := ⟨h.typeDecl d hs, h'.typeDecl d hs⟩
  declaring isConst targets values span hs :=
    ⟨h.declaring isConst targets values span hs, h'.declaring isConst targets values span hs⟩
  declared targets values hs := ⟨h.declared targets values hs, h'.declared targets values hs⟩
  assigning targets values span hs :=
    ⟨h.assigning targets values span hs, h'.assigning targets values span hs⟩
  name name hs := ⟨h.name name hs, h'.name name hs⟩
  qualified module name hs := ⟨h.qualified module name hs, h'.qualified module name hs⟩

/-- Every visit respects a relation that may be followed from visit to visit. -/
structure Keeps (v : Visitor σ) (turnTo : String → σ → σ) (P : Place → Prop)
    (Q : ScopeId → Import → Prop) (At : ScopeId → σ → Prop) (R : σ → σ → Prop) : Prop
    extends v.Visits P Q At R where
  /-- Nothing may happen. -/
  refl : ∀ c, R c c
  /-- One thing may happen after the other. -/
  trans : ∀ {c d e}, R c d → R d e → R c e
  /-- A scope that may be visited may be visited later as well. -/
  later : ∀ {s c d}, R c d → At s c → At s d
  /-- An import keeps the relation, with all that it turns to. -/
  importing : ∀ {s c} i, Q s i → At s c → R c (v.walkImport turnTo s i c)

variable {v : Visitor σ} {turnTo : String → σ → σ} {P : Place → Prop}
  {Q : ScopeId → Import → Prop} {At : ScopeId → σ → Prop} {R : σ → σ → Prop}

mutual

theorem walkExpr_keeps (hv : v.Keeps turnTo P Q At R) {s : ScopeId} :
    ∀ (e : Expr) {c : σ}, (∀ p ∈ e.places, P p) → At s c → R c (v.walkExpr turnTo s e c)
  | .literal _ _, c, _, _ => hv.refl c
  | .ident name, _, _, hs => hv.name name hs
  | .qualified module name _, _, _, hs => hv.qualified module name hs
  | .binary _ left right _, c, hp, hs => by
    simp only [Expr.places, List.forall_mem_append] at hp
    have hleft := walkExpr_keeps hv left hp.1 hs
    exact hv.trans hleft (walkExpr_keeps hv right hp.2 (hv.later hleft hs))
  | .unary _ operand _, _, hp, hs => walkExpr_keeps hv operand hp hs
  | .call callee args _, c, hp, hs => by
    simp only [Expr.places, List.forall_mem_append] at hp
    have hcallee := walkExpr_keeps hv callee hp.1 hs
    exact hv.trans hcallee (walkExprs_keeps hv args hp.2 (hv.later hcallee hs))
  | .field object _ _, _, hp, hs => walkExpr_keeps hv object hp hs
  | .index object index _, c, hp, hs => by
    simp only [Expr.places, List.forall_mem_append] at hp
    have hobject := walkExpr_keeps hv object hp.1 hs
    exact hv.trans hobject (walkExpr_keeps hv index hp.2 (hv.later hobject hs))
  | .array elements _, _, hp, hs => walkExprs_keeps hv elements hp hs
  | .function f, _, hp, hs => walkFunction_keeps hv f hp hs

theorem walkExprs_keeps (hv : v.Keeps turnTo P Q At R) {s : ScopeId} :
    ∀ (es : List Expr) {c : σ}, (∀ p ∈ Expr.placesAll es, P p) → At s c →
      R c (v.walkExprs turnTo s es c)
  | [], c, _, _ => hv.refl c
  | e :: es, c, hp, hs => by
    simp only [Expr.placesAll, List.forall_mem_append] at hp
    have he := walkExpr_keeps hv e hp.1 hs
    exact hv.trans he (walkExprs_keeps hv es hp.2 (hv.later he hs))

theorem walkFunction_keeps (hv : v.Keeps turnTo P Q At R) {s : ScopeId} :
    ∀ (f : FunctionDef) {c : σ}, (∀ p ∈ f.places, P p) → At s c →
      R c (v.walkFunction turnTo s f c)
  | .mk name params ret body _, c, hp, hs => by
    have hhead := hv.function name params ret hs
    simp only [walkFunction]
    rcases hf : v.function s name params ret c with ⟨_ | inner, d⟩
    · simpa [hf] using hhead.1
    · simp only [hf, Option.mem_def, Option.some.injEq, forall_eq'] at hhead
      exact hv.trans hhead.1 (walkBlock_keeps hv body hp (hhead.2.outer hp) hhead.2.1)

theorem walkMethod_keeps (hv : v.Keeps turnTo P Q At R) {s : ScopeId}
    (receiver : Param) (hr : P (.receiver receiver)) :
    ∀ (f : FunctionDef) {c : σ}, (∀ p ∈ f.places, P p) → At s c →
      R c (v.walkMethod turnTo s receiver f c)
  | .mk name params ret body _, c, hp, hs => by
    have hhead := hv.method receiver name params ret hr hs
    simp only [walkMethod]
    rcases hf : v.method s receiver name params ret c with ⟨_ | inner, d⟩
    · simpa [hf] using hhead.1
    · simp only [hf, Option.mem_def, Option.some.injEq, forall_eq'] at hhead
      exact hv.trans hhead.1 (walkBlock_keeps hv body hp (hhead.2.outer hp) hhead.2.1)

theorem walkBlock_keeps (hv : v.Keeps turnTo P Q At R) {s : ScopeId} :
    ∀ (b : Block) {c : σ}, (∀ p ∈ b.places, P p) → (∀ i ∈ b.outerImports, Q s i) → At s c →
      R c (v.walkBlock turnTo s b c)
  | .mk stmts _, _, hp, hq, hs => walkStmts_keeps hv stmts hp hq hs

theorem walkConditional_keeps (hv : v.Keeps turnTo P Q At R) {s : ScopeId} :
    ∀ (cond : Conditional) {c : σ}, (∀ p ∈ cond.places, P p) →
      (∀ i ∈ cond.outerImports, Q s i) → At s c → R c (v.walkConditional turnTo s cond c)
  | .mk cond body otherwise _, c, hp, hq, hs => by
    simp only [Conditional.places, List.forall_mem_append] at hp
    simp only [Conditional.outerImports, List.forall_mem_append] at hq
    have hcond := walkExpr_keeps hv cond hp.1.1 hs
    have hbody := hv.trans hcond (walkBlock_keeps hv body hp.1.2 hq.1 (hv.later hcond hs))
    exact hv.trans hbody (walkAlternative_keeps hv otherwise hp.2 hq.2 (hv.later hbody hs))

theorem walkAlternative_keeps (hv : v.Keeps turnTo P Q At R) {s : ScopeId} :
    ∀ (a : Alternative) {c : σ}, (∀ p ∈ a.places, P p) → (∀ i ∈ a.outerImports, Q s i) →
      At s c → R c (v.walkAlternative turnTo s a c)
  | .nothing, c, _, _, _ => hv.refl c
  | .block body, _, hp, hq, hs => walkBlock_keeps hv body hp hq hs
  | .conditional next, _, hp, hq, hs => walkConditional_keeps hv next hp hq hs

/-- A walk over a statement respects the relation. -/
theorem walkStmt_keeps (hv : v.Keeps turnTo P Q At R) {s : ScopeId} :
    ∀ (stmt : Stmt) {c : σ}, (∀ p ∈ stmt.places, P p) → (∀ i ∈ stmt.outerImports, Q s i) →
      At s c → R c (v.walkStmt turnTo s stmt c)
  | .importing i, c, _, hq, hs => hv.importing i (hq _ (List.mem_singleton_self _)) hs
  | .function f, _, hp, _, hs => walkFunction_keeps hv f hp hs
  | .method receiver f, _, hp, _, hs => by
    simp only [Stmt.places, List.forall_mem_cons] at hp
    exact walkMethod_keeps hv receiver hp.1 f hp.2 hs
  | .varDecl isConst targets values span, c, hp, _, hs => by
    have hin := hv.declaring isConst targets values span hs
    have hvalues := hv.trans hin (walkExprs_keeps hv values hp (hv.later hin hs))
    exact hv.trans hvalues (hv.declared targets values (hv.later hvalues hs))
  | .typeDecl d, _, _, _, hs => hv.typeDecl d hs
  | .assign targets values span, c, hp, _, hs => by
    simp only [Stmt.places, List.forall_mem_append] at hp
    have hin := hv.assigning targets values span hs
    have htargets := hv.trans hin (walkExprs_keeps hv targets hp.1 (hv.later hin hs))
    exact hv.trans htargets (walkExprs_keeps hv values hp.2 (hv.later htargets hs))
  | .conditional cond, _, hp, hq, hs => walkConditional_keeps hv cond hp hq hs
  | .ret none _, c, _, _, _ => hv.refl c
  | .ret (some e) _, _, hp, _, hs => walkExpr_keeps hv e hp hs
  | .block b, _, hp, hq, hs => walkBlock_keeps hv b hp hq hs
  | .expr e, _, hp, _, hs => walkExpr_keeps hv e hp hs

/-- A walk over statements respects the relation. -/
theorem walkStmts_keeps (hv : v.Keeps turnTo P Q At R) {s : ScopeId} :
    ∀ (stmts : List Stmt) {c : σ}, (∀ p ∈ Stmt.placesAll stmts, P p) →
      (∀ i ∈ Stmt.outerImportsAll stmts, Q s i) → At s c → R c (v.walkStmts turnTo s stmts c)
  | [], c, _, _, _ => hv.refl c
  | stmt :: stmts, c, hp, hq, hs => by
    simp only [Stmt.placesAll, List.forall_mem_append] at hp
    simp only [Stmt.outerImportsAll, List.forall_mem_append] at hq
    have hstmt := walkStmt_keeps hv stmt hp.1 hq.1 hs
    exact hv.trans hstmt (walkStmts_keeps hv stmts hp.2 hq.2 (hv.later hstmt hs))

end

/-! ### What is achieved for imports -/

/-- Every visit of an import in a scope leaves something behind that later visits keep. -/
structure Achieves (v : Visitor σ) (turnTo : String → σ → σ) (Q : ScopeId → Import → Prop)
    (At : ScopeId → σ → Prop) (R : σ → σ → Prop) (s : ScopeId) (Done : Import → σ → Prop) :
    Prop where
  /-- What is left behind stays. -/
  later : ∀ {i c d}, At s c → R c d → Done i c → Done i d
  /-- A visit leaves it behind. -/
  visited : ∀ {i c}, Q s i → At s c → Done i (v.walkImport turnTo s i c)

section

variable {s : ScopeId} {Done : Import → σ → Prop}

mutual

private theorem walkBlock_done (hv : v.Keeps turnTo P Q At R)
    (hdone : v.Achieves turnTo Q At R s Done) :
    ∀ (b : Block) {c : σ}, (∀ p ∈ b.places, P p) → (∀ i ∈ b.outerImports, Q s i) → At s c →
      ∀ i ∈ b.outerImports, Done i (v.walkBlock turnTo s b c)
  | .mk stmts _, _, hp, hq, hs, i, hi => walkStmts_done hv hdone stmts hp hq hs i hi

private theorem walkConditional_done (hv : v.Keeps turnTo P Q At R)
    (hdone : v.Achieves turnTo Q At R s Done) :
    ∀ (cond : Conditional) {c : σ}, (∀ p ∈ cond.places, P p) → (∀ i ∈ cond.outerImports, Q s i) →
      At s c → ∀ i ∈ cond.outerImports, Done i (v.walkConditional turnTo s cond c)
  | .mk cond body otherwise _, c, hp, hq, hs, i, hi => by
    simp only [Conditional.places, List.forall_mem_append] at hp
    simp only [Conditional.outerImports, List.forall_mem_append] at hq
    have hcond := hv.later (walkExpr_keeps hv cond hp.1.1 hs) hs
    have hbody := hv.later (walkBlock_keeps hv body hp.1.2 hq.1 hcond) hcond
    rcases List.mem_append.mp hi with hi | hi
    · exact hdone.later hbody (walkAlternative_keeps hv otherwise hp.2 hq.2 hbody)
        (walkBlock_done hv hdone body hp.1.2 hq.1 hcond i hi)
    · exact walkAlternative_done hv hdone otherwise hp.2 hq.2 hbody i hi

private theorem walkAlternative_done (hv : v.Keeps turnTo P Q At R)
    (hdone : v.Achieves turnTo Q At R s Done) :
    ∀ (a : Alternative) {c : σ}, (∀ p ∈ a.places, P p) → (∀ i ∈ a.outerImports, Q s i) →
      At s c → ∀ i ∈ a.outerImports, Done i (v.walkAlternative turnTo s a c)
  | .block body, _, hp, hq, hs, i, hi => walkBlock_done hv hdone body hp hq hs i hi
  | .conditional next, _, hp, hq, hs, i, hi => walkConditional_done hv hdone next hp hq hs i hi

private theorem walkStmt_done (hv : v.Keeps turnTo P Q At R)
    (hdone : v.Achieves turnTo Q At R s Done) :
    ∀ (stmt : Stmt) {c : σ}, (∀ p ∈ stmt.places, P p) → (∀ i ∈ stmt.outerImports, Q s i) →
      At s c → ∀ i ∈ stmt.outerImports, Done i (v.walkStmt turnTo s stmt c)
  | .importing _, _, _, hq, hs, i, hi => by
    obtain rfl := List.mem_singleton.mp hi
    exact hdone.visited (hq i hi) hs
  | .conditional cond, _, hp, hq, hs, i, hi => walkConditional_done hv hdone cond hp hq hs i hi
  | .block b, _, hp, hq, hs, i, hi => walkBlock_done hv hdone b hp hq hs i hi

/-- What every visit of an import leaves behind is there at the end of a walk. -/
theorem walkStmts_done (hv : v.Keeps turnTo P Q At R)
    (hdone : v.Achieves turnTo Q At R s Done) :
    ∀ (stmts : List Stmt) {c : σ}, (∀ p ∈ Stmt.placesAll stmts, P p) →
      (∀ i ∈ Stmt.outerImportsAll stmts, Q s i) → At s c →
        ∀ i ∈ Stmt.outerImportsAll stmts, Done i (v.walkStmts turnTo s stmts c)
  | stmt :: stmts, c, hp, hq, hs, i, hi => by
    simp only [Stmt.placesAll, List.forall_mem_append] at hp
    simp only [Stmt.outerImportsAll, List.forall_mem_append] at hq
    have hstmt := hv.later (walkStmt_keeps hv stmt hp.1 hq.1 hs) hs
    rcases List.mem_append.mp hi with hi | hi
    · exact hdone.later hstmt (walkStmts_keeps hv stmts hp.2 hq.2 hstmt)
        (walkStmt_done hv hdone stmt hp.1 hq.1 hs i hi)
    · exact walkStmts_done hv hdone stmts hp.2 hq.2 hstmt i hi

end

end

end Sable.Visitor
