import Sable.Proofs.Syntax.Performing

/-!
# The grammar and the machine

Every parser of the grammar performs the part that it reads. The proofs follow the grammar: where a
parser looks at the next token, the machine replaces the part by what it consists of in front of
that token, and then each of these parts is performed by the parser for it.
-/

namespace Sable

open Pending

namespace Parser

variable {K : TokenKind → Prop} {n : Nat} {nested : Parser TypeExpr} {start : Span}

/-! ### Types -/

theorem performs_fieldDecl (hty : nested.Performs (fun _ => True) n 0 [.type]) :
    (fieldDecl nested).Performs K n 0 [.field] := by
  refine performs_of_act (fun _ _ => rfl) <| performs_look fun _ => ?_
  exact (performs_mark (by simp)).then fun _ => performs_ident.then fun _ =>
    (performs_expect (by simp)).then fun _ => hty.then fun _ => performs_look fun _ => performs_pure _

theorem performs_arrayType (hty : nested.Performs (fun _ => True) n 0 [.type]) :
    (arrayType nested start).Performs K n 1 [.token (.punct .rbracket), .type] :=
  (performs_expect (by simp)).then fun _ => hty.then fun _ => performs_look fun _ => performs_pure _

theorem performs_structType (hty : nested.Performs (fun _ => True) n 0 [.type]) :
    (structType n nested start).Performs K n 1
      [.token (.punct .lbrace), .list (.punct .rbrace) .field, .token (.punct .rbrace)] :=
  (performs_expect (by simp)).then fun _ => (performs_fieldDecl hty).itemsUntil_then (by simp) fun _ =>
    performs_look fun _ => performs_pure _

theorem performs_functionType (hty : nested.Performs (fun _ => True) n 0 [.type]) :
    (functionType n nested start).Performs K n 1
      [.token (.punct .lparen), .list (.punct .rparen) .type, .token (.punct .rparen),
        .behind (.punct .arrow) .type] :=
  (performs_expect (by simp)).then fun _ => hty.itemsUntil_then (by simp) fun _ =>
    (performs_behind (by simp) hty).then fun _ => performs_look fun _ => performs_pure _

/-- Both a type and an expression may be a name that is qualified by another one. -/
theorem performs_qualified {β : Type} {f : Ident → Option Ident → Parser β}
    (hf : ∀ x member?, (f x member?).Performs (fun _ => True) n 0 []) :
    (ident >>= fun x => behind (.punct .colonColon) ident >>= f x).Performs K n 1
      [.name, .behind (.punct .colonColon) .name] :=
  performs_ident.then fun x => (performs_behind (by simp) performs_ident.weaken).then (hf x)

theorem performs_namedType :
    (namedType start).Performs K n 1 [.name, .behind (.punct .colonColon) .name] := by
  refine performs_qualified fun x member? => ?_
  cases member? with
  | some _ => exact performs_look fun _ => performs_pure _
  | none => exact performs_pure _

theorem performs_typeWithin (n : Nat) : (typeWithin n).Performs K n 1 [.type] := by
  induction n generalizing K with
  | zero => exact performs_zero (performs_stop (by simp [act]) fun _ => rfl)
  | succ n ih =>
    have hty : (typeWithin n).Performs (fun _ => True) n 0 [.type] := ih.weaken
    refine performs_look fun start => performs_kind fun k _ => ?_
    split
    · refine performs_of_act (by rintro _ rfl; rfl) ?_
      exact (performs_skip_token (by simp)).then_less fun _ => performs_arrayType hty
    · refine performs_of_act (by rintro _ rfl; rfl) ?_
      exact (performs_skip_token (by simp)).then_less fun _ => performs_structType hty
    · refine performs_of_act (by rintro _ rfl; rfl) ?_
      exact (performs_skip_token (by simp)).then_less fun _ => performs_functionType hty
    · exact performs_of_act (by rintro _ rfl; rfl) performs_namedType
    · refine performs_stop ?_ fun _ => rfl
      rintro _ rfl
      simp only [act]

theorem performs_param (n : Nat) : (param n).Performs K n 1 [.param] := by
  refine performs_of_act (fun _ _ => rfl) <| performs_look fun _ => ?_
  exact performs_ident.then fun _ => (performs_expect (by simp)).then fun _ =>
    (performs_typeWithin n).then fun _ => performs_look fun _ => performs_pure _

end Parser

/-! ### Blocks and functions -/

/-- The parsers for what may be nested perform it on as many tokens as they are able to read. -/
structure Grammar.Performs (g : Grammar) : Prop where
  /-- The expressions between operators. -/
  operand : ∀ level, (g.operand level).Performs (fun _ => True) g.size 1 [.operand level]
  /-- The operands. -/
  unary : g.unary.Performs (fun _ => True) g.size 1 [.unary]
  /-- The statements. -/
  statement : g.statement.Performs (fun _ => True) g.size 1 [.statement]
  /-- The conditions. -/
  conditional : g.conditional.Performs (fun _ => True) g.size 1 [.conditional]

namespace Parser

variable {K : TokenKind → Prop} {n m : Nat} {g : Grammar} {start : Span} {close : TokenKind}

theorem performs_statements {stmt : Parser Stmt} (hclose : close ≠ .punct .semicolon)
    (hstmt : stmt.Performs (fun _ => True) n 1 [.statement]) (hmn : m ≤ n) :
    (statements stmt close m).Performs K m 0 [.statements close] := by
  induction m generalizing K with
  | zero => exact performs_zero (performs_missing (by simp [act]))
  | succ m ih =>
    have hle := Nat.le_of_succ_le hmn
    refine performs_kind fun k _ => ?_
    split
    case isTrue h => exact performs_missing (by rintro _ rfl; simp [act, h])
    case isFalse h =>
      have hact : (Pending.statements close).act (.punct .semicolon) =
          .expand [.token (.punct .semicolon), .statements close] := by simp [act, hclose.symm]
      refine performs_accept (by simp) le_rfl hact (ih hle) ?_
      refine performs_of_act (A := [.statement, .statements close]) ?_ ?_
      · rintro k' ⟨rfl, hk'⟩
        simp [act, h, hk']
      · exact ((hstmt.of_le hmn).anywhere.then_less fun s => (ih hle).map).weaken

theorem performs_block (hg : g.Performs) : (block g).Performs K (g.size + 1) 1 [.block] := by
  refine performs_of_act (fun _ _ => rfl) <| performs_look fun _ => ?_
  exact (performs_expect (by simp)).then_less fun _ =>
    (performs_statements (by simp) hg.statement le_rfl).then fun _ =>
      (performs_expect (by simp)).then fun _ => performs_look fun _ => performs_pure _

theorem performs_functionRest (hg : g.Performs) (name : Ident) :
    (functionRest g name start).Performs K g.size 1 [.function] := by
  refine performs_of_act (fun _ _ => rfl) ?_
  exact (performs_expect (by simp)).then fun _ =>
    (performs_param g.size).weaken.itemsUntil_then (by simp) fun _ =>
      (performs_behind (by simp) (performs_typeWithin g.size).weaken).then fun _ =>
        ((performs_block hg).of_le (Nat.le_succ _)).then fun _ => performs_look fun _ =>
          performs_pure _

/-! ### Expressions -/

theorem performs_expressions_then {β : Type} {f : List Expr → Parser β} {t : Nat}
    {B : List Pending} (hg : g.Performs) (hf : ∀ es, (f es).Performs (fun _ => True) g.size t B) :
    (expressions g >>= f).Performs K g.size 1 (.operand 0 :: .further (.operand 0) :: B) :=
  (hg.operand 0).items_then hf

theorem performs_expressions (hg : g.Performs) :
    (expressions g).Performs K g.size 0 [.operand 0, .further (.operand 0)] :=
  (performs_items (hg.operand 0)).weaken

theorem performs_expressionsUntil (hg : g.Performs) (hclose : close ≠ .eof) :
    (expressionsUntil g close).Performs K g.size 0 [.arguments close] := by
  refine performs_accept hclose (Nat.le_succ _) (by simp [act]) (performs_pure _) ?_
  refine performs_of_act (A := [.operand 0, .further (.operand 0), .token close])
    (fun k h => by simp [act, h.2]) ?_
  exact (performs_expressions_then hg fun _ => (performs_expect hclose).map).weaken

theorem performs_literal (value : Literal) {k : TokenKind} (hk : k ≠ .eof)
    (hact : Pending.atom.act k = .shift) :
    (literal value start).Performs (· = k) n 1 [.atom] :=
  (performs_skip (by rintro _ rfl; exact ⟨hk, hact⟩)).then fun _ => performs_pure _

theorem performs_nameExpr :
    (nameExpr start).Performs K n 1 [.name, .behind (.punct .colonColon) .name] := by
  refine performs_qualified fun x member? => ?_
  cases member? with
  | some _ => exact performs_look fun _ => performs_pure _
  | none => exact performs_pure _

theorem performs_atom (hg : g.Performs) : (atom g).Performs K (g.size + 1) 1 [.atom] := by
  refine performs_look fun start => performs_kind fun k _ => ?_
  split
  case h_6 => exact performs_of_act (by rintro _ rfl; rfl) performs_nameExpr
  case h_7 =>
    refine performs_of_act (by rintro _ rfl; rfl) ?_
    exact (performs_skip_token (by simp)).then_less fun _ => (hg.operand 0).then fun _ =>
      (performs_expect (by simp)).then fun _ => performs_pure _
  case h_8 =>
    refine performs_of_act (by rintro _ rfl; rfl) ?_
    exact (performs_skip_token (by simp)).then_less fun _ =>
      (performs_expressionsUntil hg (by simp)).then fun _ => performs_look fun _ => performs_pure _
  case h_9 =>
    refine performs_of_act (by rintro _ rfl; rfl) ?_
    exact (performs_skip_token (by simp)).then_less fun _ => performs_nextLiteral fun _ =>
      (performs_functionRest hg _).then fun _ => performs_pure _
  case h_10 =>
    refine performs_stop ?_ fun _ => rfl
    rintro _ rfl
    simp only [act]
  all_goals exact performs_literal _ (by simp) rfl

theorem performs_applications (hg : g.Performs) (hmn : m ≤ g.size) (e : Expr) :
    (applications g start m e).Performs K m 0 [.applications] := by
  induction m generalizing K e with
  | zero => exact performs_zero (performs_missing (by simp [act]))
  | succ m ih =>
    have hle := Nat.le_of_succ_le hmn
    refine performs_kind fun k _ => ?_
    split
    · refine performs_of_act (by rintro _ rfl; rfl) ?_
      exact ((performs_skip_token (by simp)).then_less fun _ =>
        ((performs_expressionsUntil hg (by simp)).of_le hle).then fun _ => performs_look fun _ =>
          ih hle _).weaken
    · refine performs_of_act (by rintro _ rfl; rfl) ?_
      exact ((performs_skip_token (by simp)).then_less fun _ =>
        performs_ident.then fun _ => performs_look fun _ => ih hle _).weaken
    · refine performs_of_act (by rintro _ rfl; rfl) ?_
      exact ((performs_skip_token (by simp)).then_less fun _ =>
        ((hg.operand 0).of_le hle).then fun _ => (performs_expect (by simp)).then fun _ =>
          performs_look fun _ => ih hle _).weaken
    · refine performs_missing ?_
      rintro _ rfl
      simp only [act]

theorem performs_applied (hg : g.Performs) :
    (applied g).Performs K (g.size + 1) 1 [.atom, .applications] :=
  performs_look fun _ => (performs_atom hg).then_less fun _ => performs_applications hg le_rfl _

theorem performs_unaryStep (hg : g.Performs) : (unaryStep g).Performs K (g.size + 1) 1 [.unary] := by
  refine performs_look fun start => performs_kind fun k _ => ?_
  split
  case h_1 op hop =>
    have hk : k ≠ .eof := by
      rintro rfl
      simp [unaryOp?] at hop
    refine performs_of_act (A := [.token k, .unary]) (by rintro _ rfl; simp [act, hop]) ?_
    exact (performs_skip_token hk).then_less fun _ => hg.unary.then fun _ => performs_look fun _ =>
      performs_pure _
  case h_2 hop =>
    refine performs_of_act (A := [.atom, .applications]) (by rintro _ rfl; simp [act, hop]) ?_
    exact performs_applied hg

theorem performs_operations (hg : g.Performs) (level : Nat) (hmn : m ≤ g.size) (left : Expr) :
    (operations g level m left).Performs K m 0 [.operations level] := by
  induction m generalizing K left with
  | zero => exact performs_zero (performs_missing (by simp [act, TokenKind.binaryOp?]))
  | succ m ih =>
    have hle := Nat.le_of_succ_le hmn
    refine performs_kind fun k _ => ?_
    split
    case h_1 op hop =>
      have hk : k ≠ .eof := by
        rintro rfl
        simp [TokenKind.binaryOp?] at hop
      split
      case isTrue hlt => exact performs_missing (by rintro _ rfl; simp [act, hop, hlt])
      case isFalse hlt =>
        refine performs_of_act
          (A := [.token k, .operand (op.precedence + 1), .operations level])
          (by rintro _ rfl; simp [act, hop, hlt]) ?_
        exact ((performs_skip_token hk).then_less fun _ =>
          ((hg.operand _).of_le hle).then fun _ => ih hle _).weaken
    case h_2 hop => exact performs_missing (by rintro _ rfl; simp [act, hop])

theorem performs_operandStep (hg : g.Performs) (level : Nat) :
    (operandStep g level).Performs K (g.size + 1) 1 [.operand level] := by
  refine performs_of_act (fun _ _ => rfl) ?_
  exact (performs_unaryStep hg).then_less fun _ => performs_operations hg level le_rfl _

/-! ### Statements -/

theorem performs_importing :
    importing.Performs K n 1
      [.token (.keyword .importKw), .path, .behind (.keyword .asKw) .name] := by
  refine performs_look fun _ => ?_
  apply (performs_expect (by simp)).then
  intro _
  refine performs_kind (t := 1) fun k _ => ?_
  split
  · have hskip : ∀ path, skip.Performs (· = .string path) n 1 [.path] := fun path =>
      performs_skip (by rintro _ rfl; exact ⟨by simp, rfl⟩)
    exact (hskip _).then fun _ => (performs_behind (by simp) performs_ident.weaken).then fun _ =>
      performs_look fun _ => performs_pure _
  · refine performs_unexpected ?_
    rintro _ rfl
    simp only [act]

theorem performs_varBinder (n : Nat) : (varBinder n).Performs K n 1 [.binder] := by
  refine performs_of_act (fun _ _ => rfl) ?_
  exact performs_ident.then fun _ =>
    (performs_behind (by simp) (performs_typeWithin n).weaken).then fun _ => performs_pure _

theorem performs_initialValues (hg : g.Performs) :
    (initialValues g).Performs K g.size 0 [.initial] := by
  refine performs_accept (by simp) (Nat.le_succ _) (by simp [act]) (performs_expressions hg) ?_
  refine performs_accept (by simp) (Nat.le_succ _) (by simp [act]) (performs_expressions hg) ?_
  exact performs_missing fun k h => by simp [act, h.1.2, h.2]

theorem performs_varDecl (hg : g.Performs) {k : TokenKind} (hk : k ≠ .eof) :
    (varDecl g).Performs (· = k) (g.size + 1) 1
      [.token k, .binder, .further .binder, .initial] :=
  performs_look fun _ => performs_look fun _ => (performs_skip_token hk).then_less fun _ =>
    (performs_varBinder g.size).items_then fun _ => (performs_initialValues hg).then fun _ =>
      performs_look fun _ => performs_pure _

theorem performs_typeDecl (n : Nat) :
    (typeDecl n).Performs K (n + 1) 1 [.token (.keyword .typeKw), .name, .type] :=
  performs_look fun _ => (performs_expect (by simp)).then_less fun _ => performs_ident.then fun _ =>
    (performs_typeWithin n).then fun _ => performs_look fun _ => performs_pure _

theorem performs_alternative (hg : g.Performs) :
    (alternative g).Performs K g.size 0 [.behind (.keyword .elseKw) .otherwise] := by
  have hact : (Pending.behind (.keyword .elseKw) .otherwise).act (.keyword .elseKw) =
      .expand [.token (.keyword .elseKw), .otherwise] := by simp [act]
  refine performs_accept (by simp) (Nat.le_succ _) hact ?_
    (performs_missing fun k h => by simp [act, h.2])
  refine performs_kind fun k _ => ?_
  split
  case isTrue h =>
    refine performs_of_act (A := [.conditional]) (by rintro _ rfl; simp [act, h]) ?_
    exact hg.conditional.anywhere.weaken.map
  case isFalse h =>
    refine performs_of_act (A := [.block]) (by rintro _ rfl; simp [act, h]) ?_
    exact ((performs_block hg).of_le (Nat.le_succ _)).weaken.map

theorem performs_conditionalStep (hg : g.Performs) :
    (conditionalStep g).Performs K (g.size + 1) 1 [.conditional] := by
  refine performs_of_act (fun _ _ => rfl) <| performs_look fun _ => ?_
  exact (performs_expect (by simp)).then_less fun _ => (hg.operand 0).then fun _ =>
    ((performs_block hg).of_le (Nat.le_succ _)).then fun _ => (performs_alternative hg).then
      fun _ => performs_look fun _ => performs_pure _

theorem performs_returning (hg : g.Performs) :
    (returning g).Performs K (g.size + 1) 1 [.token (.keyword .returnKw), .value] := by
  refine performs_look fun _ => ?_
  apply (performs_expect (by simp)).then_less
  intro _
  refine performs_kind (t := 0) fun k _ => ?_
  split
  case isTrue h =>
    refine performs_look fun _ => performs_missing ?_
    rintro _ rfl
    simp [act, h]
  case isFalse h =>
    refine performs_of_act (A := [.operand 0]) (by rintro _ rfl; simp [act, h]) ?_
    exact ((hg.operand 0).anywhere.then fun _ => performs_look fun _ => performs_pure _).weaken

/-! #### Functions and methods -/

theorem bind_look {α β : Type} {h : Cursor → α} {f : α → Parser β} {c : Cursor} :
    (look h >>= f) c = f (h c) c := rfl

theorem bind_skip {β : Type} {f : Unit → Parser β} {c : Cursor} :
    (skip >>= f) c = f () c.advance := rfl

/-- Once it is read, the token behind the next one is the next one. -/
theorem kind_advance {c : Cursor} (h : c.kind ≠ .eof) : c.advance.kind = c.nextKind := by
  rcases hrest : c.rest with _ | ⟨t, _ | ⟨t', ts⟩⟩
  · simp [Cursor.kind, Cursor.current, hrest] at h
  · simp [Cursor.kind, Cursor.current, Cursor.nextKind, Cursor.advance, hrest]
  · simp [Cursor.kind, Cursor.current, Cursor.nextKind, Cursor.advance, hrest]

/-- A method or a function behind the word `fn`. -/
theorem performs_declared (hg : g.Performs) (start : Span) :
    (do
      if (← look Cursor.kind) = .punct .lparen then
        expect (.punct .lparen)
        let receiver ← param g.size
        expect (.punct .rparen)
        let name ← ident
        let f ← functionRest g name start
        pure (.method receiver f)
      else
        let name ← ident
        let f ← functionRest g name start
        pure (.function f) : Parser Stmt).Performs K g.size 1 [.declared] := by
  refine performs_kind fun k _ => ?_
  split
  case isTrue h =>
    refine performs_of_act (by rintro _ rfl; simp only [act, h, ↓reduceIte]; rfl) ?_
    exact (performs_expect (by simp)).then fun _ => (performs_param g.size).then fun _ =>
      (performs_expect (by simp)).then fun _ => performs_ident.then fun _ =>
        (performs_functionRest hg _).then fun _ => performs_pure _
  case isFalse h =>
    refine performs_of_act (by rintro _ rfl; simp only [act, h, ↓reduceIte]; rfl) ?_
    exact performs_ident.then fun _ => (performs_functionRest hg _).then fun _ => performs_pure _

/-- The token behind the word `fn` tells a method from a function before that word is read. -/
theorem performs_declaration (hg : g.Performs) :
    (do
      if (← look Cursor.nextKind) = .punct .lparen then
        let (receiver, f) ← methodDecl g
        pure (.method receiver f)
      else .function <$> functionDecl g : Parser Stmt).Performs (· = .keyword .fnKw)
        (g.size + 1) 1 [.token (.keyword .fnKw), .declared] := by
  have hread := performs_look (g := Cursor.here) fun start =>
    (performs_skip_token (k := .keyword .fnKw) (by simp)).then_less fun _ =>
      performs_declared hg start
  refine hread.congr fun c hc => ?_
  have hnext := kind_advance (c := c) (by simp [hc])
  have hexpect : ∀ f : Unit → Parser Stmt, (expect (.keyword .fnKw) >>= f) c = f () c.advance := by
    intro f
    simp only [Bind.bind, Parser.bind, expect, hc, ↓reduceIte, skip]
  simp only [methodDecl, functionDecl, map_eq_pure_bind, bind_assoc, pure_bind, bind_look, bind_skip,
    hnext]
  split
  · exact hexpect _
  · exact hexpect _

/-! #### Assignments -/

/-- What follows the first expressions of a statement: the assigned values, if any. -/
def assignedValues (g : Grammar) (start : Span) (targets : List Expr) : Parser Stmt := do
  if ← accept (.punct .eq) then
    let values ← expressions g
    let span ← spanSince start
    pure (.assign targets values span)
  else
    match targets with
    | [e] => pure (.expr e)
    | _ => unexpected .assignment

theorem performs_values (hg : g.Performs) (targets : List Expr) :
    (do
      let values ← expressions g
      let span ← spanSince start
      pure (.assign targets values span) : Parser Stmt).Performs K g.size 0
        [.operand 0, .further (.operand 0)] :=
  (performs_expressions_then hg fun _ => performs_look fun _ => performs_pure _).weaken

/-- Several expressions are assigned to. -/
theorem performs_assignedValues (hg : g.Performs) {targets : List Expr} (h : ∀ e, targets ≠ [e]) :
    (assignedValues g start targets).Performs K g.size 0
      [.token (.punct .eq), .operand 0, .further (.operand 0)] := by
  refine performs_by_cases (.punct .eq) ?_ (performs_accept_other ?_)
  · exact (performs_accept_token (by simp) (Nat.le_succ _) (performs_values hg targets)).weaken
  · simp only [Bool.false_eq_true, ↓reduceIte]
    exact performs_unexpected fun k hk => by simp [act, hk.2]

/-- A single expression may be a statement by itself. -/
theorem performs_assignedValues_singleton (hg : g.Performs) (e : Expr)
    (hK : ∀ k, K k → k ≠ .punct .comma) :
    (assignedValues g start [e]).Performs K g.size 0 [.assigned] := by
  refine performs_accept (by simp) (Nat.le_succ _) (by simp [act]) (performs_values hg _) ?_
  exact performs_missing fun k hk => by simp [act, hK k hk.1, hk.2]

theorem performs_assigned (hg : g.Performs) {item : Parser Expr} (e : Expr)
    (hitem : item.Performs (fun _ => True) g.size 0 [.operand 0]) (hmn : m ≤ g.size) :
    (moreItems item m >>= fun es => assignedValues g start (e :: es)).Performs K m 0
      [.assigned] := by
  cases m with
  | zero =>
    refine performs_zero ?_
    exact (performs_assignedValues_singleton hg e (by rintro _ rfl; simp)).of_le (Nat.zero_le _)
  | succ m =>
    have hle := Nat.le_of_succ_le hmn
    have hact : Pending.assigned.act (.punct .comma) =
        .expand [.token (.punct .comma), .operand 0, .further (.operand 0), .token (.punct .eq),
          .operand 0, .further (.operand 0)] := by simp [act]
    simp only [moreItems, bind_assoc]
    refine performs_accept (by simp) le_rfl hact ?_ ?_
    · simp only [↓reduceIte, bind_assoc, pure_bind]
      exact (hitem.of_le hle).then fun e' => (performs_moreItems hitem hle).then fun es =>
        (performs_assignedValues hg (by simp)).of_le hle
    · simp only [Bool.false_eq_true, ↓reduceIte, pure_bind]
      exact (performs_assignedValues_singleton hg e fun k hk => hk.2).of_le hmn

theorem performs_assignmentOrExpr (hg : g.Performs) :
    (assignmentOrExpr g).Performs K (g.size + 1) 1 [.operand 0, .assigned] := by
  have hitems : assignmentOrExpr g = (do
      let start ← look Cursor.here
      let e ← operandStep g 0
      let es ← moreItems (operandStep g 0) g.size
      assignedValues g start (e :: es)) := by
    simp only [assignmentOrExpr, items, bind_assoc, pure_bind]
    rfl
  have hitem := (performs_operandStep (K := fun _ => True) hg 0).weaken.of_le (Nat.le_succ _)
  rw [hitems]
  exact performs_look fun start => (performs_operandStep hg 0).then_less fun e =>
    performs_assigned hg e hitem le_rfl

theorem performs_statementBody (hg : g.Performs) :
    (statementBody g).Performs K (g.size + 1) 1 [.body] := by
  refine performs_kind fun k _ => ?_
  split
  · exact performs_of_act (by rintro _ rfl; rfl) performs_importing.map
  · exact performs_of_act (by rintro _ rfl; rfl) (performs_declaration hg)
  · exact performs_of_act (by rintro _ rfl; rfl) (performs_varDecl hg (by simp))
  · exact performs_of_act (by rintro _ rfl; rfl) (performs_varDecl hg (by simp))
  · exact performs_of_act (by rintro _ rfl; rfl) (performs_typeDecl g.size).map
  · exact performs_of_act (by rintro _ rfl; rfl) (performs_conditionalStep hg).map
  · exact performs_of_act (by rintro _ rfl; rfl) (performs_returning hg)
  · exact performs_of_act (by rintro _ rfl; rfl) (performs_block hg).map
  · refine performs_of_act ?_ (performs_assignmentOrExpr hg)
    rintro _ rfl
    simp only [act]

theorem performs_statementStep (hg : g.Performs) :
    (statementStep g).Performs K (g.size + 1) 1 [.statement] := by
  refine performs_of_act (fun _ _ => rfl) ?_
  exact (performs_statementBody hg).then fun _ => (performs_mark (by simp)).then fun _ =>
    performs_pure _

end Parser

/-! ### Programs -/

/-- Where no token is left, every construct misses its first one. -/
theorem Grammar.performs_empty : Grammar.empty.Performs := by
  have hunary : ∀ {α : Type} {A : List Pending}, (Parser.fail .expectedExpr : Parser α).Performs
      (· = .eof) 0 1 (.unary :: A) := by
    intro α A
    refine Parser.performs_expand (A := [.atom, .applications]) (by rintro _ rfl; rfl) ?_
    exact Parser.performs_stop (by rintro _ rfl; rfl) fun _ => rfl
  have hoperand : ∀ {α : Type} {A : List Pending} {level : Nat},
      (Parser.fail .expectedExpr : Parser α).Performs (· = .eof) 0 1 (.operand level :: A) :=
    Parser.performs_expand (fun _ _ => rfl) hunary
  have hconditional : (Parser.unexpected (.token (.keyword .ifKw)) : Parser Conditional).Performs
      (· = .eof) 0 1 [.conditional] :=
    Parser.performs_of_act (fun _ _ => rfl) (Parser.performs_unexpected (by rintro _ rfl; rfl))
  refine ⟨fun level => Parser.performs_zero hoperand, Parser.performs_zero hunary,
    Parser.performs_zero ?_, Parser.performs_zero hconditional⟩
  refine Parser.performs_expand (A := [.body, .mark (.punct .semicolon)]) (fun _ _ => rfl) ?_
  exact Parser.performs_expand (A := [.operand 0, .assigned]) (by rintro _ rfl; rfl) hoperand

theorem Grammar.performs_within (n : Nat) : (Grammar.within n).Performs := by
  induction n with
  | zero => exact performs_empty
  | succ n ih =>
    exact ⟨Parser.performs_operandStep ih, Parser.performs_unaryStep ih,
      Parser.performs_statementStep ih, Parser.performs_conditionalStep ih⟩

end Sable
