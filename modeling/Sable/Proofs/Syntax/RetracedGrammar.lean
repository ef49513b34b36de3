import Sable.Proofs.Syntax.ProlongedGrammar
import Sable.Proofs.Syntax.Retracing

/-!
# Constructs without the tokens behind them

Every construct is read in the same way where tokens behind it are left out. The calls, fields and
indices behind an expression are read one at a time, and so are the operators behind an operand; a
step reads one of them, and the loop reads the rest.
-/

namespace Sable

namespace Parser

variable {b : Bool} {g : Grammar} {start : Span}

/-! ### Types -/

theorem retraces_fieldDecl {nested : Parser TypeExpr} (h : ∀ b, nested.Retraces b true) :
    (fieldDecl nested).Retraces b true := by
  refine retraces_here fun start => retraces_accept (r := true) nofun ?_ ?_
  all_goals
    exact retraces_ident.bind fun name => (retraces_mark _).bind fun _ => (h _).bind fun ty =>
      (retraces_spanSince start).bind fun span => retraces_pure _

/-- Both a type and an expression may be a name that is qualified by another one. -/
theorem retraces_qualified {α : Type} {f : Ident → Option Ident → Parser α}
    (hf : ∀ name member?, (f name member?).Retraces true false) :
    (ident >>= fun name => behind (.punct .colonColon) ident >>= f name).Retraces b true :=
  retraces_ident.bind fun name => (retraces_ident.behind (by nofun)).bind (hf name)

theorem retraces_namedType (start : Span) : (namedType start).Retraces b true := by
  refine retraces_qualified fun name member? => ?_
  cases member? with
  | some member => exact (retraces_spanSince start).bind fun span => retraces_pure _
  | none => exact retraces_pure _

theorem retraces_typeWithin (n : Nat) : (typeWithin n).Retraces b true := by
  induction n generalizing b with
  | zero => exact retraces_fail _
  | succ n ih =>
    have hty : ∀ b, (typeWithin n).Retraces b true := fun _ => ih
    refine retraces_here fun start => retraces_kind fun kind => ?_
    split
    · exact retraces_skip nofun fun _ => (retraces_mark _).bind fun _ => (hty _).bind fun _ =>
        (retraces_spanSince start).bind fun _ => retraces_pure _
    · exact retraces_skip nofun fun _ => (retraces_mark _).bind fun _ =>
        (Retraces.itemsUntil (fun b => retraces_fieldDecl hty) _ _).bind fun _ =>
          (retraces_spanSince start).bind fun _ => retraces_pure _
    · exact retraces_skip nofun fun _ => (retraces_mark _).bind fun _ =>
        (Retraces.itemsUntil hty _ _).bind fun _ => ((hty _).behind (by nofun)).bind fun _ =>
          (retraces_spanSince start).bind fun _ => retraces_pure _
    · exact (retraces_namedType start).on
    · exact (retraces_fail _).on

theorem retraces_param (n : Nat) : (param n).Retraces b true :=
  retraces_here fun start => retraces_ident.bind fun _ => (retraces_mark _).bind fun _ =>
    (retraces_typeWithin n).bind fun _ => (retraces_spanSince start).bind fun _ => retraces_pure _

end Parser

/-! ### The grammar -/

/-- The parsers for nested constructs read the same without the tokens behind. -/
structure Grammar.Retraces (g : Grammar) : Prop where
  /-- The expressions between operators. -/
  operand : ∀ b level, (g.operand level).Retraces b true
  /-- The operands. -/
  unary : ∀ b, g.unary.Retraces b true
  /-- The statements. -/
  statement : ∀ b, g.statement.Retraces b true
  /-- The conditions. -/
  conditional : ∀ b, g.conditional.Retraces b true

namespace Parser

variable {b : Bool} {g : Grammar} {start : Span}

/-! ### Blocks and functions -/

theorem retraces_statements {stmt : Parser Stmt} (h : ∀ b, stmt.Retraces b true)
    (close : TokenKind) (n : Nat) : (statements stmt close n).Retraces b false := by
  induction n generalizing b with
  | zero => exact retraces_pure []
  | succ n ih =>
    refine retraces_stop (fun k => k = close ∨ k = .eof) (retraces_pure []) (fun k hk => if_pos hk)
      (fun k hk => ?_) (.inr rfl)
    rw [if_neg hk]
    refine Retraces.on (retraces_accept (r := false) nofun ih ?_)
    exact (h b).bind fun s => ih.bind fun ss => retraces_pure (s :: ss)

theorem retraces_block (hg : g.Retraces) : (block g).Retraces b true :=
  retraces_here fun start => (retraces_mark _).bind fun _ =>
    (retraces_statements hg.statement _ _).bind fun _ => (retraces_mark _).bind fun _ =>
      (retraces_spanSince start).bind fun _ => retraces_pure _

theorem retraces_functionRest (hg : g.Retraces) (name : Ident) :
    (functionRest g name start).Retraces b true :=
  (retraces_mark _).bind fun _ => (Retraces.itemsUntil (fun _ => retraces_param _) _ _).bind
    fun _ => ((retraces_typeWithin _).behind (by nofun)).bind fun _ => (retraces_block hg).bind
      fun _ => (retraces_spanSince start).bind fun _ => retraces_pure _

/-! ### Expressions -/

theorem retraces_expressions (hg : g.Retraces) : (expressions g).Retraces b true :=
  Retraces.items (fun b => hg.operand b 0) _

theorem retraces_expressionsUntil (hg : g.Retraces) (close : Punct) :
    (expressionsUntil g (.punct close)).Retraces b true :=
  retraces_accept (r := false) nofun (retraces_pure []) ((retraces_expressions hg).bind fun es =>
    (retraces_mark _).bind fun _ => retraces_pure es)

theorem retraces_nameExpr : (nameExpr start).Retraces b true := by
  refine retraces_qualified fun name member? => ?_
  cases member? with
  | some member => exact (retraces_spanSince start).bind fun span => retraces_pure _
  | none => exact retraces_pure _

theorem retraces_atom (hg : g.Retraces) : (atom g).Retraces b true := by
  refine retraces_here fun start => retraces_kind fun kind => ?_
  split
  case h_6 => exact retraces_nameExpr.on
  case h_7 =>
    exact retraces_skip nofun fun _ => (hg.operand _ 0).bind fun _ => (retraces_mark _).bind
      fun _ => retraces_pure _
  case h_8 =>
    exact retraces_skip nofun fun _ => (retraces_expressionsUntil hg _).bind fun _ =>
      (retraces_spanSince start).bind fun _ => retraces_pure _
  case h_9 =>
    exact retraces_skip nofun fun _ => retraces_nextLiteral.bind fun _ =>
      (retraces_functionRest hg _).bind fun _ => retraces_pure _
  case h_10 => exact (retraces_fail _).on
  all_goals exact retraces_skip nofun fun _ => retraces_pure _

/-- Reads one call, field or index behind an expression, where it starts with a given token. -/
def applicationStep (g : Grammar) (start : Span) (e : Expr) (k : TokenKind) : Parser Expr :=
  match k with
  | .punct .lparen => do
    skip
    let args ← expressionsUntil g (.punct .rparen)
    let span ← spanSince start
    pure (.call e args span)
  | .punct .dot => do
    skip
    let field ← ident
    let span ← spanSince start
    pure (.field e field span)
  | .punct .lbracket => do
    skip
    let index ← g.operand 0
    expect (.punct .rbracket)
    let span ← spanSince start
    pure (.index e index span)
  | _ => fail .expectedExpr

theorem retraces_applicationStep (hg : g.Retraces) (start : Span) (e : Expr) (k : TokenKind) :
    (on k (applicationStep g start e k)).Retraces b true := by
  unfold applicationStep
  split
  · exact retraces_skip nofun fun _ => (retraces_expressionsUntil hg _).bind fun _ =>
      (retraces_spanSince start).bind fun _ => retraces_pure _
  · exact retraces_skip nofun fun _ => retraces_ident.bind fun _ =>
      (retraces_spanSince start).bind fun _ => retraces_pure _
  · exact retraces_skip nofun fun _ => (hg.operand _ 0).bind fun _ => (retraces_mark _).bind
      fun _ => (retraces_spanSince start).bind fun _ => retraces_pure _
  · exact (retraces_fail _).on

/-- A loop takes one step and goes on. -/
theorem applications_go {c : Cursor} (hk : ¬ c.kind.EndsApplications) (n : Nat) (e : Expr) :
    applications g start (n + 1) e c =
      (applicationStep g start e c.kind >>= applications g start n) c := by
  generalize hkind : c.kind = k at hk ⊢
  have hlook : ∀ {f : TokenKind → Parser Expr}, (look Cursor.kind >>= f) c = f k c := by
    intro f
    rw [← hkind]
    rfl
  rw [applications, hlook]
  unfold applicationStep
  split
  · simp only [bind_assoc, pure_bind]
  · simp only [bind_assoc, pure_bind]
  · simp only [bind_assoc, pure_bind]
  · next hcall hfield hindex => exact absurd ⟨hcall, hfield, hindex⟩ hk

theorem retraces_applications (hg : g.Retraces) (n : Nat) (e : Expr) :
    (applications g start n e).Retraces true false := by
  induction n generalizing e with
  | zero => exact retraces_pure e
  | succ n ih =>
    refine retraces_cases (f := fun k => applicationStep g start e k >>= applications g start n)
      TokenKind.EndsApplications (retraces_pure e) (fun c hk => applications_of_ends hk)
      (fun c hk => applications_go hk n e) (fun k _ => ?_) (by decide)
    rw [on_bind]
    exact (retraces_applicationStep hg start e k).bind ih

theorem retraces_applied (hg : g.Retraces) : (applied g).Retraces b true :=
  retraces_here fun _ => (retraces_atom hg).bind fun e => retraces_applications hg _ e

theorem retraces_unaryStep (hg : g.Retraces) : (unaryStep g).Retraces b true := by
  refine retraces_here fun start => retraces_kind fun kind => ?_
  split
  · next op hop =>
    exact retraces_skip (ne_eof_of_unaryOp? hop) fun _ => (hg.unary _).bind fun _ =>
      (retraces_spanSince start).bind fun _ => retraces_pure _
  · exact (retraces_applied hg).on

/-- Reads an operator with its right operand behind a left operand. -/
def operationStep (g : Grammar) (left : Expr) (op : BinaryOp) : Parser Expr := do
  skip
  let right ← g.operand (op.precedence + 1)
  pure (.binary op left right (left.span.merge right.span))

theorem retraces_operationStep (hg : g.Retraces) (left : Expr) (op : BinaryOp) {k : TokenKind}
    (hk : k ≠ .eof) : (on k (operationStep g left op)).Retraces b true :=
  retraces_skip hk fun _ => (hg.operand _ _).bind fun _ => retraces_pure _

/-- A loop takes an operator that binds tightly enough, and goes on. -/
theorem operations_go {c : Cursor} {level : Nat} {op : BinaryOp}
    (hop : c.kind.binaryOp? = some op) (hlevel : level ≤ op.precedence) (n : Nat) (left : Expr) :
    operations g level (n + 1) left c = (operationStep g left op >>= operations g level n) c := by
  rw [operations, operationStep]
  simp only [bind_assoc, pure_bind]
  simp only [look, Bind.bind, Parser.bind, hop, Nat.not_lt.mpr hlevel, ↓reduceIte]

theorem exists_binaryOp? {k : TokenKind} {level : Nat}
    (hk : ¬ ∀ op, k.binaryOp? = some op → op.precedence < level) :
    ∃ op, k.binaryOp? = some op ∧ level ≤ op.precedence := by
  push Not at hk
  exact hk

theorem retraces_operations (hg : g.Retraces) (level n : Nat) (left : Expr) :
    (operations g level n left).Retraces b false := by
  induction n generalizing b left with
  | zero => exact retraces_pure left
  | succ n ih =>
    refine retraces_cases (f := fun k => k.binaryOp?.elim (pure left) fun op =>
      operationStep g left op >>= operations g level n)
      (fun k => ∀ op, k.binaryOp? = some op → op.precedence < level) (retraces_pure left)
      (fun c hk => operations_of_ends hk) (fun c hk => ?_) (fun k hk => ?_) nofun
    · obtain ⟨op, hop, hlevel⟩ := exists_binaryOp? hk
      rw [operations_go hop hlevel, hop]
      rfl
    · obtain ⟨op, hop, -⟩ := exists_binaryOp? hk
      rw [hop, Option.elim_some, on_bind]
      exact (retraces_operationStep hg left op (TokenKind.ne_eof_of_binaryOp? hop)).bind ih

theorem retraces_operandStep (hg : g.Retraces) (level : Nat) :
    (operandStep g level).Retraces b true :=
  (retraces_unaryStep hg).bind fun left => retraces_operations hg level _ left

/-! ### Statements -/

theorem retraces_importing : importing.Retraces b true := by
  refine retraces_here fun start => (retraces_word _).bind (r := true) fun _ =>
    retraces_kind fun kind => ?_
  split
  · exact retraces_skip nofun fun _ => (retraces_ident.behind (by nofun)).bind fun _ =>
      (retraces_spanSince start).bind fun _ => retraces_pure _
  · exact (retraces_unexpected _).on

private theorem retraces_named (hg : g.Retraces) :
    (ident >>= fun name => functionRest g name start).Retraces b true :=
  retraces_ident.bind fun name => retraces_functionRest hg name

theorem retraces_functionDecl (hg : g.Retraces) : (functionDecl g).Retraces b true :=
  retraces_here fun _ => (retraces_word _).bind fun _ => retraces_named hg

private theorem retraces_received (hg : g.Retraces) : Retraces b true (do
    expect (.punct .lparen)
    let receiver ← param g.size
    expect (.punct .rparen)
    let name ← ident
    let f ← functionRest g name start
    pure (receiver, f)) :=
  (retraces_mark _).bind fun _ => (retraces_param _).bind fun _ => (retraces_mark _).bind fun _ =>
    retraces_ident.bind fun name => (retraces_functionRest hg name).bind fun _ => retraces_pure _

theorem retraces_methodDecl (hg : g.Retraces) : (methodDecl g).Retraces b true :=
  retraces_here fun _ => (retraces_word _).bind fun _ => retraces_received hg

/-- A declaration has read the token by which it is told from the other kind. -/
theorem two_le_functionDecl (hg : g.Retraces) {c d : Cursor} {f : FunctionDef}
    (h : functionDecl g c = (.ok f, d)) : d.rest.length + 2 ≤ c.rest.length := by
  rw [functionDecl, look_bind] at h
  exact (retraces_word (b := true) _).two_le (fun _ => retraces_named hg) h

theorem two_le_methodDecl (hg : g.Retraces) {c d : Cursor} {r : Param × FunctionDef}
    (h : methodDecl g c = (.ok r, d)) : d.rest.length + 2 ≤ c.rest.length := by
  rw [methodDecl, look_bind] at h
  exact (retraces_word (b := true) _).two_le (fun _ => retraces_received hg) h

theorem retraces_varBinder (n : Nat) : (varBinder n).Retraces b true :=
  retraces_ident.bind fun _ => ((retraces_typeWithin n).behind (by nofun)).bind fun _ =>
    retraces_pure _

theorem retraces_initialValues (hg : g.Retraces) : (initialValues g).Retraces b false :=
  retraces_accept nofun (retraces_expressions hg)
    (retraces_accept nofun (retraces_expressions hg) (retraces_pure []))

theorem retraces_varDecl (hg : g.Retraces) {k : TokenKind} (hk : k ≠ .eof) :
    (on k (varDecl g)).Retraces b true := by
  rw [on_varDecl]
  exact retraces_here fun start => retraces_skip hk fun _ =>
    (Retraces.items (fun b => retraces_varBinder _) _).bind fun _ =>
      (retraces_initialValues hg).bind fun _ => (retraces_spanSince start).bind fun _ =>
        retraces_pure _

theorem retraces_typeDecl (n : Nat) : (typeDecl n).Retraces b true :=
  retraces_here fun start => (retraces_word _).bind fun _ => retraces_ident.bind fun _ =>
    (retraces_typeWithin n).bind fun _ => (retraces_spanSince start).bind fun _ => retraces_pure _

theorem retraces_alternative (hg : g.Retraces) : (alternative g).Retraces b false := by
  refine retraces_accept (r := true) nofun ?_ (retraces_pure _)
  refine retraces_kind fun k => Retraces.on (.ite ?_ ?_)
  · exact (hg.conditional _).bind fun _ => retraces_pure _
  · exact (retraces_block hg).bind fun _ => retraces_pure _

theorem retraces_conditionalStep (hg : g.Retraces) : (conditionalStep g).Retraces b true :=
  retraces_here fun start => (retraces_word _).bind fun _ => (hg.operand _ 0).bind fun _ =>
    (retraces_block hg).bind fun _ => (retraces_alternative hg).bind fun _ =>
      (retraces_spanSince start).bind fun _ => retraces_pure _

theorem retraces_returning (hg : g.Retraces) : (returning g).Retraces b true := by
  refine retraces_here fun start => (retraces_word _).bind (r := false) fun _ => ?_
  refine retraces_stop (fun k => endsReturn k = true)
    ((retraces_spanSince start).bind fun _ => retraces_pure _) (fun k hk => if_pos hk)
    (fun k hk => ?_) rfl
  rw [if_neg hk]
  exact Retraces.on ((hg.operand _ 0).bind fun _ => (retraces_spanSince start).bind fun _ =>
    retraces_pure _)

theorem retraces_assignmentOrExpr (hg : g.Retraces) : (assignmentOrExpr g).Retraces b true := by
  refine retraces_here fun start => (Retraces.items (fun b => retraces_operandStep hg 0) _).bind
    (r := false) fun targets => ?_
  refine retraces_accept (r := true) nofun ?_ ?_
  · exact (retraces_expressions hg).bind fun _ => (retraces_spanSince start).bind fun _ =>
      retraces_pure _
  · match targets with
    | [] | _ :: _ :: _ => exact retraces_unexpected _
    | [e] => exact retraces_pure _

theorem retraces_statementBody (hg : g.Retraces) : (statementBody g).Retraces b true := by
  refine retraces_kind fun kind => ?_
  split
  · exact retraces_importing.map.on
  · refine Retraces.on (retraces_nextKind (fun k => .ite ?_ ?_) fun {k c a d} h => ?_)
    · exact (retraces_methodDecl hg).bind fun _ => retraces_pure _
    · exact (retraces_functionDecl hg).map
    · split at h
      · obtain ⟨_, _, hmethod, ⟨⟩⟩ := bind_eq_ok h
        exact two_le_methodDecl hg hmethod
      · obtain ⟨_, _, hfunction, ⟨⟩⟩ := bind_eq_ok h
        exact two_le_functionDecl hg hfunction
  · exact retraces_varDecl hg nofun
  · exact retraces_varDecl hg nofun
  · exact (retraces_typeDecl _).map.on
  · exact (retraces_conditionalStep hg).map.on
  · exact (retraces_returning hg).on
  · exact (retraces_block hg).map.on
  · exact (retraces_assignmentOrExpr hg).on

theorem retraces_statementStep (hg : g.Retraces) : (statementStep g).Retraces b true :=
  (retraces_statementBody hg).bind fun s =>
    retraces_accept nofun (retraces_pure s) (retraces_pure s)

end Parser

/-- A grammar reads the same where tokens behind are left out. -/
theorem Grammar.retraces_within (n : Nat) : (Grammar.within n).Retraces := by
  induction n with
  | zero =>
    exact ⟨fun _ _ => Parser.retraces_fail _, fun _ => Parser.retraces_fail _,
      fun _ => Parser.retraces_fail _, fun _ => Parser.retraces_unexpected _⟩
  | succ n ih =>
    exact ⟨fun _ => Parser.retraces_operandStep ih, fun _ => Parser.retraces_unaryStep ih,
      fun _ => Parser.retraces_statementStep ih, fun _ => Parser.retraces_conditionalStep ih⟩

end Sable
