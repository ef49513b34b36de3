import Sable.Proofs.Syntax.Advancing
import Sable.Proofs.Syntax.ProlongedGrammar

/-!
# Every construct takes a token

Each construct of the grammar starts with a token that is read before any construct nested in it.
So at every depth fewer tokens are left than at the one above, and a grammar that is built up from
the depth at which no token is left does the same as any deeper one.
-/

namespace Sable

namespace Parser

variable {n k k' : Nat}

/-! ### Types -/

theorem advances_fieldDecl {nested nested' : Parser TypeExpr}
    (h : nested.Advances true n nested') :
    (fieldDecl nested).Advances true n (fieldDecl nested') := by
  refine advances_look fun _ => advances_acceptMark (Nat.le_succ n) (r := true) ?_ ?_
  all_goals
    exact advances_ident.bind fun name => (advances_mark _).bind fun _ => h.bind fun ty =>
      advances_look fun span => advances_pure _

/-- Both a type and an expression may be a name that is qualified by another one. -/
theorem advances_qualified {α : Type} {f : Ident → Option Ident → Parser α}
    (hf : ∀ name member?, (f name member?).Advances false n (f name member?)) :
    (ident >>= fun name => behind (.punct .colonColon) ident >>= f name).Advances true n
      (ident >>= fun name => behind (.punct .colonColon) ident >>= f name) :=
  advances_ident.bind fun name => advances_ident.behindMark.bind (hf name)

theorem advances_namedType (start : Span) :
    (namedType start).Advances true n (namedType start) := by
  refine advances_qualified fun name member? => ?_
  cases member? with
  | some member => exact advances_look fun span => advances_pure _
  | none => exact advances_pure _

theorem typeWithin_eof (k : Nat) {c : Cursor} (hc : c.kind = .eof) :
    typeWithin k c = fail .expectedType c := by
  cases k with
  | zero => rfl
  | succ k => simp only [typeWithin, typeStep, look_bind, hc]

theorem advances_typeWithin (hk : k ≤ k') : (typeWithin k).Advances true k (typeWithin k') := by
  induction k generalizing k' with
  | zero => exact (advances_fail _).at_end fun c hc => typeWithin_eof k' hc
  | succ k ih =>
    obtain _ | k' := k'
    · omega
    have hty : (typeWithin k).Advances true k (typeWithin k') := ih (by omega)
    refine advances_look fun _ => advances_kind fun kind => ?_
    split
    · exact advances_skip nofun fun _ => (advances_mark _).bind fun _ => hty.bind fun _ =>
        advances_look fun _ => advances_pure _
    · exact advances_skip nofun fun _ => (advances_mark _).bind fun _ =>
        ((advances_fieldDecl hty).itemsUntil (by omega)).bind fun _ =>
          advances_look fun _ => advances_pure _
    · exact advances_skip nofun fun _ => (advances_mark _).bind fun _ =>
        (hty.itemsUntil (by omega)).bind fun _ => hty.behindMark.bind fun _ =>
          advances_look fun _ => advances_pure _
    · exact (advances_namedType _).on
    · exact (advances_fail _).on

theorem advances_param (hk : k ≤ k') : (param k).Advances true k (param k') :=
  advances_look fun _ => advances_ident.bind fun _ => (advances_mark _).bind fun _ =>
    (advances_typeWithin hk).bind fun _ => advances_look fun _ => advances_pure _

end Parser

/-! ### The grammar -/

/-- The parsers of a grammar advance, and do the same as those of one that is no smaller. -/
structure Grammar.Advances (g g' : Grammar) : Prop where
  /-- The second grammar is no smaller. -/
  size : g.size ≤ g'.size
  /-- The expressions between operators. -/
  operand : ∀ level, (g.operand level).Advances true g.size (g'.operand level)
  /-- The operands. -/
  unary : g.unary.Advances true g.size g'.unary
  /-- The statements. -/
  statement : g.statement.Advances true g.size g'.statement
  /-- The conditions. -/
  conditional : g.conditional.Advances true g.size g'.conditional

namespace Parser

variable {n j j' : Nat} {g g' : Grammar} {start : Span}

/-! ### Blocks and functions -/

theorem advances_statements {stmt stmt' : Parser Stmt} {close : TokenKind}
    (h : stmt.Advances true n stmt') (hj : j ≤ n) (hj' : j ≤ j') :
    (statements stmt close j).Advances false j (statements stmt' close j') := by
  induction j generalizing j' with
  | zero =>
    refine (advances_pure []).at_end fun c hc => ?_
    cases j' with
    | zero => rfl
    | succ j' => rw [statements, look_bind, if_pos (Or.inr hc)]
  | succ j ih =>
    obtain _ | j' := j'
    · omega
    have hrest : (statements stmt close j).Advances false j (statements stmt' close j') :=
      ih (by omega) (by omega)
    refine advances_look fun k => .ite (advances_pure []) ?_
    refine advances_acceptMark le_rfl hrest (.loose ?_)
    exact (h.of_le hj).then_less fun s => hrest.bind fun ss => advances_pure (s :: ss)

theorem advances_block (hg : g.Advances g') :
    (block g).Advances true (g.size + 1) (block g') :=
  advances_look fun _ => (advances_mark _).then_less fun _ =>
    (advances_statements hg.statement le_rfl hg.size).then fun _ => (advances_mark _).bind fun _ =>
      advances_look fun _ => advances_pure _

theorem advances_functionRest (hg : g.Advances g') (name : Ident) :
    (functionRest g name start).Advances true g.size (functionRest g' name start) :=
  (advances_mark _).bind fun _ => ((advances_param hg.size).itemsUntil hg.size).bind fun _ =>
    (advances_typeWithin hg.size).behindMark.then fun _ =>
      ((advances_block hg).of_le (Nat.le_succ _)).bind fun _ => advances_look fun _ =>
        advances_pure _

/-! ### Expressions -/

theorem advances_expressions (hg : g.Advances g') :
    (expressions g).Advances true g.size (expressions g') :=
  (hg.operand 0).items le_rfl (Nat.le_succ _) hg.size

theorem advances_expressionsUntil (hg : g.Advances g') (close : Punct) :
    (expressionsUntil g (.punct close)).Advances true g.size (expressionsUntil g' (.punct close)) :=
  advances_acceptMark (Nat.le_succ _) (advances_pure []) ((advances_expressions hg).then
    fun es => (advances_mark _).bind fun _ => advances_pure es)

theorem advances_nameExpr : (nameExpr start).Advances true n (nameExpr start) := by
  refine advances_qualified fun name member? => ?_
  cases member? with
  | some member => exact advances_look fun span => advances_pure _
  | none => exact advances_pure _

theorem advances_atom (hg : g.Advances g') : (atom g).Advances true (g.size + 1) (atom g') := by
  refine advances_look fun _ => advances_kind fun kind => ?_
  split
  case h_6 => exact advances_nameExpr.on
  case h_7 =>
    exact advances_skip nofun fun _ => (hg.operand 0).then fun _ => (advances_mark _).bind
      fun _ => advances_pure _
  case h_8 =>
    exact advances_skip nofun fun _ => (advances_expressionsUntil hg _).bind fun _ =>
      advances_look fun _ => advances_pure _
  case h_9 =>
    exact advances_skip nofun fun _ => advances_nextLiteral.bind fun _ =>
      (advances_functionRest hg _).bind fun _ => advances_pure _
  case h_10 => exact (advances_fail _).on
  all_goals exact advances_skip nofun fun _ => advances_pure _

theorem advances_applications (hg : g.Advances g') (hj : j ≤ g.size) (hj' : j ≤ j') (e : Expr) :
    (applications g start j e).Advances false j (applications g' start j' e) := by
  induction j generalizing j' e with
  | zero =>
    refine (advances_pure e).at_end fun c hc => applications_of_ends ?_
    rw [hc]
    decide
  | succ j ih =>
    obtain _ | j' := j'
    · omega
    have hloop : ∀ e, (applications g start j e).Advances false j (applications g' start j' e) :=
      fun e => ih (by omega) (by omega) e
    refine advances_kind fun k => ?_
    split
    · exact .loose (advances_skip nofun fun _ =>
        ((advances_expressionsUntil hg _).of_le (by omega)).bind fun args =>
          advances_look fun span => hloop (.call e args span))
    · exact .loose (advances_skip nofun fun _ => advances_ident.bind fun field =>
        advances_look fun span => hloop (.field e field span))
    · exact .loose (advances_skip nofun fun _ => ((hg.operand 0).of_le (by omega)).bind fun index =>
        (advances_mark _).bind fun _ => advances_look fun span => hloop (.index e index span))
    · exact (advances_pure e).on

theorem advances_applied (hg : g.Advances g') :
    (applied g).Advances true (g.size + 1) (applied g') :=
  advances_look fun _ => (advances_atom hg).then_less fun e =>
    advances_applications hg le_rfl hg.size e

theorem advances_unaryStep (hg : g.Advances g') :
    (unaryStep g).Advances true (g.size + 1) (unaryStep g') := by
  refine advances_look fun _ => advances_kind fun kind => ?_
  split
  · next op hop =>
    exact advances_skip (ne_eof_of_unaryOp? hop) fun _ => hg.unary.bind fun _ =>
      advances_look fun _ => advances_pure _
  · exact (advances_applied hg).on

theorem advances_operations (hg : g.Advances g') {level : Nat} (hj : j ≤ g.size) (hj' : j ≤ j')
    (left : Expr) : (operations g level j left).Advances false j (operations g' level j' left) := by
  induction j generalizing j' left with
  | zero =>
    refine (advances_pure left).at_end fun c hc => operations_of_ends ?_
    rw [hc]
    nofun
  | succ j ih =>
    obtain _ | j' := j'
    · omega
    refine advances_kind fun k => ?_
    split
    · next op hop =>
      split
      · exact (advances_pure left).on
      · exact .loose (advances_skip (TokenKind.ne_eof_of_binaryOp? hop) fun _ =>
          ((hg.operand _).of_le (by omega)).bind fun right => ih (by omega) (by omega) _)
    · exact (advances_pure left).on

theorem advances_operandStep (hg : g.Advances g') (level : Nat) :
    (operandStep g level).Advances true (g.size + 1) (operandStep g' level) :=
  (advances_unaryStep hg).then_less fun left => advances_operations hg le_rfl hg.size left

/-! ### Statements -/

theorem advances_importing : importing.Advances true n importing := by
  refine advances_look fun _ => (advances_word _).bind (r := false) fun _ =>
    advances_kind fun kind => ?_
  split
  · refine (Advances.loose ?_).of_le (Nat.le_succ n)
    exact advances_skip nofun fun _ => advances_ident.behindWord.bind fun _ =>
      advances_look fun _ => advances_pure _
  · exact (advances_unexpected _).on

theorem advances_functionDecl (hg : g.Advances g') :
    (functionDecl g).Advances true (g.size + 1) (functionDecl g') :=
  advances_look fun _ => (advances_word _).then_less fun _ => advances_ident.bind fun name =>
    advances_functionRest hg name

theorem advances_methodDecl (hg : g.Advances g') :
    (methodDecl g).Advances true (g.size + 1) (methodDecl g') :=
  advances_look fun _ => (advances_word _).then_less fun _ => (advances_mark _).bind fun _ =>
    (advances_param hg.size).bind fun _ => (advances_mark _).bind fun _ =>
      advances_ident.bind fun name => (advances_functionRest hg name).bind fun _ => advances_pure _

theorem advances_varBinder (hj : j ≤ j') : (varBinder j).Advances true j (varBinder j') :=
  advances_ident.bind fun _ => (advances_typeWithin hj).behindMark.bind fun _ =>
    advances_pure _

theorem advances_initialValues (hg : g.Advances g') :
    (initialValues g).Advances false g.size (initialValues g') :=
  advances_acceptMark (Nat.le_succ _) (advances_expressions hg)
    (advances_acceptMark (Nat.le_succ _) (advances_expressions hg) (advances_pure []))

theorem advances_varDecl (hg : g.Advances g') {k : TokenKind} (hk : k ≠ .eof) :
    (on k (varDecl g)).Advances true (g.size + 1) (on k (varDecl g')) := by
  rw [on_varDecl, on_varDecl]
  exact advances_look fun _ => advances_skip hk fun _ =>
    ((advances_varBinder hg.size).items le_rfl (Nat.le_succ _) hg.size).bind fun _ =>
      (advances_initialValues hg).bind fun _ => advances_look fun _ => advances_pure _

theorem advances_typeDecl (hj : j ≤ j') : (typeDecl j).Advances true (j + 1) (typeDecl j') :=
  advances_look fun _ => (advances_word _).then_less fun _ => advances_ident.bind fun _ =>
    (advances_typeWithin hj).bind fun _ => advances_look fun _ => advances_pure _

theorem advances_alternative (hg : g.Advances g') :
    (alternative g).Advances false g.size (alternative g') := by
  refine advances_acceptWord (Nat.le_succ _) (r := true) ?_ (advances_pure _)
  refine advances_look fun k => .ite ?_ ?_
  · exact hg.conditional.bind fun _ => advances_pure _
  · exact ((advances_block hg).of_le (Nat.le_succ _)).bind fun _ => advances_pure _

theorem advances_conditionalStep (hg : g.Advances g') :
    (conditionalStep g).Advances true (g.size + 1) (conditionalStep g') :=
  advances_look fun _ => (advances_word _).then_less fun _ => (hg.operand 0).bind fun _ =>
    ((advances_block hg).of_le (Nat.le_succ _)).bind fun _ => (advances_alternative hg).bind
      fun _ => advances_look fun _ => advances_pure _

theorem advances_returning (hg : g.Advances g') :
    (returning g).Advances true (g.size + 1) (returning g') := by
  refine advances_look fun _ => (advances_word _).then_less (r := false) fun _ => ?_
  refine advances_look fun k => .ite (advances_look fun _ => advances_pure _) ?_
  exact .loose ((hg.operand 0).bind fun _ => advances_look fun _ => advances_pure _)

theorem advances_assignmentOrExpr (hg : g.Advances g') :
    (assignmentOrExpr g).Advances true (g.size + 1) (assignmentOrExpr g') := by
  have htargets : (items g.size (operandStep g 0)).Advances true (g.size + 1)
      (items g'.size (operandStep g' 0)) :=
    (advances_operandStep hg 0).items (Nat.le_succ _) le_rfl hg.size
  refine advances_look fun _ => htargets.then_less (r := false) fun targets => ?_
  refine advances_acceptMark (Nat.le_succ _) (r := true) ?_ ?_
  · exact (advances_expressions hg).bind fun _ => advances_look fun _ => advances_pure _
  · match targets with
    | [] | _ :: _ :: _ => exact advances_unexpected _
    | [e] => exact advances_pure _

theorem advances_statementBody (hg : g.Advances g') :
    (statementBody g).Advances true (g.size + 1) (statementBody g') := by
  refine advances_kind fun kind => ?_
  split
  · exact advances_importing.map.on
  · refine Advances.on (advances_look fun k => .ite ?_ ?_)
    · exact (advances_methodDecl hg).bind fun _ => advances_pure _
    · exact (advances_functionDecl hg).map
  · exact advances_varDecl hg nofun
  · exact advances_varDecl hg nofun
  · exact (advances_typeDecl hg.size).map.on
  · exact (advances_conditionalStep hg).map.on
  · exact (advances_returning hg).on
  · exact (advances_block hg).map.on
  · exact (advances_assignmentOrExpr hg).on

theorem advances_statementStep (hg : g.Advances g') :
    (statementStep g).Advances true (g.size + 1) (statementStep g') :=
  (advances_statementBody hg).bind fun s =>
    advances_acceptMark (Nat.le_succ _) (advances_pure s) (advances_pure s)

/-! ### The end of the file -/

variable {c : Cursor}

theorem operandStep_eof (g : Grammar) (level : Nat) (hc : c.kind = .eof) :
    operandStep g level c = fail .expectedExpr c := by
  simp only [operandStep, unaryStep, applied, atom, Bind.bind, Parser.bind, look, hc, unaryOp?,
    fail]

theorem unaryStep_eof (g : Grammar) (hc : c.kind = .eof) :
    unaryStep g c = fail .expectedExpr c := by
  simp only [unaryStep, applied, atom, Bind.bind, Parser.bind, look, hc, unaryOp?, fail]

theorem statementStep_eof (g : Grammar) (hc : c.kind = .eof) :
    statementStep g c = fail .expectedExpr c := by
  have hoperand := operandStep_eof g 0 hc
  rw [fail] at hoperand
  simp only [statementStep, statementBody, assignmentOrExpr, items, Bind.bind, Parser.bind, look,
    hc, hoperand, fail]

theorem conditionalStep_eof (g : Grammar) (hc : c.kind = .eof) :
    conditionalStep g c = unexpected (.token (.keyword .ifKw)) c := by
  simp only [conditionalStep, expect, Bind.bind, Parser.bind, look, hc, reduceCtorEq, ↓reduceIte,
    unexpected]

end Parser

/-- A grammar does the same as any one that is no smaller, on as many tokens as it can read. -/
theorem Grammar.advances_within {n n' : Nat} (h : n ≤ n') :
    (Grammar.within n).Advances (Grammar.within n') := by
  have hsize : (Grammar.within n).size ≤ (Grammar.within n').size := by
    rwa [size_within, size_within]
  induction n generalizing n' with
  | zero =>
    cases n' with
    | zero =>
      exact ⟨hsize, fun _ => Parser.advances_fail _, Parser.advances_fail _,
        Parser.advances_fail _, Parser.advances_unexpected _⟩
    | succ n' =>
      exact ⟨hsize, fun level => (Parser.advances_fail _).at_end fun _ =>
          Parser.operandStep_eof _ level,
        (Parser.advances_fail _).at_end fun _ => Parser.unaryStep_eof _,
        (Parser.advances_fail _).at_end fun _ => Parser.statementStep_eof _,
        (Parser.advances_unexpected _).at_end fun _ => Parser.conditionalStep_eof _⟩
  | succ n ih =>
    obtain _ | n' := n'
    · omega
    have hg : (Grammar.within n).Advances (Grammar.within n') :=
      ih (by omega) (by rw [size_within, size_within]; omega)
    exact ⟨hsize, Parser.advances_operandStep hg, Parser.advances_unaryStep hg,
      Parser.advances_statementStep hg, Parser.advances_conditionalStep hg⟩

end Sable
