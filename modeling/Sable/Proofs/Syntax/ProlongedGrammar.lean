import Sable.Proofs.Syntax.Prolonging
import Sable.Proofs.Syntax.RoundTrip

/-!
# Constructs in front of other tokens

A name goes on with a name that it qualifies, and an expression with a call, a field, an index or an
operator. What is closed by a token of its own, such as a block, goes on with none. So every
construct that is read to the end of some tokens is read from them in the same way if other tokens
follow that it does not go on with.
-/

namespace Sable

namespace Parser

variable {w : List Token} {b : Bool} {K : Prop} {n : Nat}

/-! ### Types -/

theorem prolongs_fieldDecl {nested nested' : Parser TypeExpr}
    (h : ∀ b, nested.Prolongs w b true False n nested') :
    (fieldDecl nested).Prolongs w b true False n (fieldDecl nested') := by
  refine prolongs_here nofun fun start =>
    prolongs_accept nofun (Nat.le_succ n) (r := true) ?_ ?_ nofun
  all_goals
    exact prolongs_ident.bind fun name => (prolongs_mark _).bind fun _ => (h _).bind
      fun ty => (prolongs_spanSince start).bind fun span => prolongs_pure _

theorem prolongs_namedType (start : Span) (hK : K → nextOf w ≠ .punct .colonColon) :
    (namedType start).Prolongs w b true K n (namedType start) := by
  refine prolongs_ident.bind fun name =>
    (prolongs_ident.behind (by nofun) hK).bind (r := false) fun member? => ?_
  cases member? with
  | some member => exact (prolongs_spanSince start).bind fun span => prolongs_pure _
  | none => exact prolongs_pure _

theorem prolongs_typeWithin {k k' : Nat} (hk : k + w.length ≤ k') :
    (typeWithin k).Prolongs w b true False k (typeWithin k') := by
  induction k generalizing b k' with
  | zero => exact prolongs_fail _
  | succ k ih =>
    obtain _ | k' := k'
    · omega
    have hty : ∀ b, (typeWithin k).Prolongs w b true False k (typeWithin k') :=
      fun b => ih (by omega)
    refine prolongs_here nofun fun start => prolongs_kind nofun fun kind => ?_
    split
    · exact prolongs_skip nofun fun _ => (prolongs_mark _).bind fun _ => (hty _).bind
        fun _ => (prolongs_spanSince start).bind fun _ => prolongs_pure _
    · exact prolongs_skip nofun fun _ => (prolongs_mark _).bind fun _ =>
        (Prolongs.itemsUntil (fun b => prolongs_fieldDecl hty) (by omega)).bind fun _ =>
          (prolongs_spanSince start).bind fun _ => prolongs_pure _
    · exact prolongs_skip nofun fun _ => (prolongs_mark _).bind fun _ =>
        (Prolongs.itemsUntil hty (by omega)).bind fun _ =>
          ((hty _).behind (by nofun) False.elim).bind fun _ =>
            (prolongs_spanSince start).bind fun _ => prolongs_pure _
    · exact (prolongs_namedType start False.elim).on nofun
    · exact (prolongs_fail _).on nofun

theorem prolongs_param {k k' : Nat} (hk : k + w.length ≤ k') :
    (param k).Prolongs w b true False k (param k') :=
  prolongs_here nofun fun start => prolongs_ident.bind fun _ => (prolongs_mark _).bind
    fun _ => (prolongs_typeWithin hk).bind fun _ => (prolongs_spanSince start).bind fun _ =>
      prolongs_pure _

end Parser

/-! ### What ends an expression -/

namespace TokenKind

/-- No call, field or index starts with a token. -/
def EndsApplications (k : TokenKind) : Prop :=
  k ≠ .punct .lparen ∧ k ≠ .punct .dot ∧ k ≠ .punct .lbracket

/-- No expression without free operators goes on with a token. -/
def EndsUnary (k : TokenKind) : Prop := k.EndsApplications ∧ k ≠ .punct .colonColon

/-- No expression whose free operators bind at least as tightly as a level goes on with a token. -/
def EndsOperand (level : Nat) (k : TokenKind) : Prop :=
  k.EndsUnary ∧ ∀ op, k.binaryOp? = some op → op.precedence < level

theorem EndsOperand.mono {k : TokenKind} {level level' : Nat} (h : k.EndsOperand level)
    (hle : level ≤ level') : k.EndsOperand level' :=
  ⟨h.1, fun op hop => (h.2 op hop).trans_le hle⟩

instance (k : TokenKind) : Decidable k.EndsApplications := inferInstanceAs (Decidable (_ ∧ _))

instance (k : TokenKind) : Decidable k.EndsUnary := inferInstanceAs (Decidable (_ ∧ _))

theorem endsOperand_of_binaryOp?_eq_none {k : TokenKind} (h : k.EndsUnary)
    (hop : k.binaryOp? = none) (level : Nat) : k.EndsOperand level :=
  ⟨h, fun _ hsome => absurd (hop.symm.trans hsome) (Option.some_ne_none _).symm⟩

theorem endsOperand_eof (level : Nat) : eof.EndsOperand level :=
  endsOperand_of_binaryOp?_eq_none (by decide) rfl level

theorem ne_eof_of_binaryOp? {k : TokenKind} {op : BinaryOp} (h : k.binaryOp? = some op) :
    k ≠ .eof := by
  rintro rfl
  cases h

/-- An operator ends the expression that stands in front of it as its left operand. -/
theorem endsUnary_of_binaryOp? {k : TokenKind} {op : BinaryOp} (h : k.binaryOp? = some op) :
    k.EndsUnary := by
  cases k with
  | punct mark =>
    obtain rfl := Punct.binaryOp?_eq_some_iff.mp h
    cases op <;> decide
  | _ => simp [binaryOp?] at h

end TokenKind

/-! ### The grammar -/

/-- The parsers of one grammar read the same as those of another one that is given more tokens. -/
structure Grammar.Prolongs (w : List Token) (g g' : Grammar) : Prop where
  /-- The second grammar has room for the further tokens. -/
  size : g.size + w.length ≤ g'.size
  /-- The expressions between operators. -/
  operand : ∀ b level, (g.operand level).Prolongs w b true ((nextOf w).EndsOperand level) g.size
    (g'.operand level)
  /-- The operands. -/
  unary : ∀ b, g.unary.Prolongs w b true (nextOf w).EndsUnary g.size g'.unary
  /-- The statements, which are closed by a token of their block. -/
  statement : ∀ b, g.statement.Prolongs w b true False g.size g'.statement
  /-- The conditions, which stand in such a block as well. -/
  conditional : ∀ b, g.conditional.Prolongs w b true False g.size g'.conditional

namespace Parser

variable {w : List Token} {b : Bool} {K : Prop} {n : Nat} {g g' : Grammar} {start : Span}

/-! ### Blocks and functions -/

theorem prolongs_statements {stmt stmt' : Parser Stmt} {close : TokenKind} {j j' : Nat}
    (h : ∀ b, stmt.Prolongs w b true False n stmt') (hj : j ≤ n) (hj' : j + w.length ≤ j') :
    (statements stmt close j).Prolongs w b false False j (statements stmt' close j') := by
  induction j generalizing b j' with
  | zero => exact prolongs_zero []
  | succ j ih =>
    obtain _ | j' := j'
    · omega
    have hrest : ∀ b, (statements stmt close j).Prolongs w b false False j
        (statements stmt' close j') := fun b => ih (by omega) (by omega)
    refine prolongs_kind (fun _ => id) fun k => Prolongs.on (.ite (prolongs_pure []) ?_) fun _ => id
    refine prolongs_accept nofun le_rfl (hrest _) (.loose ?_) fun _ => False.elim
    exact ((h b).of_le hj).then_less (fun s => (hrest _).bind fun ss => prolongs_pure (s :: ss))
      fun _ => id

theorem prolongs_block (hg : g.Prolongs w g') :
    (block g).Prolongs w b true K (g.size + 1) (block g') :=
  prolongs_here nofun fun start => (prolongs_mark _).then_less (fun _ =>
    (prolongs_statements hg.statement le_rfl hg.size).then fun _ => (prolongs_mark _).bind fun _ =>
      (prolongs_spanSince start).bind fun _ => prolongs_pure _) fun _ => id

theorem prolongs_functionRest (hg : g.Prolongs w g') (name : Ident) :
    (functionRest g name start).Prolongs w b true K g.size (functionRest g' name start) :=
  (prolongs_mark _).bind fun _ =>
    (Prolongs.itemsUntil (fun b => prolongs_param hg.size) hg.size).bind fun _ =>
      ((prolongs_typeWithin hg.size).behind (by nofun) False.elim).then fun _ =>
        ((prolongs_block hg).of_le (Nat.le_succ _)).bind fun _ =>
          (prolongs_spanSince start).bind fun _ => prolongs_pure _

/-! ### Expressions -/

theorem prolongs_expressions (hg : g.Prolongs w g') :
    (expressions g).Prolongs w b true False g.size (expressions g') :=
  Prolongs.items (fun b => (hg.operand b 0).mono False.elim le_rfl) le_rfl (Nat.le_succ _) hg.size

theorem prolongs_expressionsUntil (hg : g.Prolongs w g') (close : Punct) :
    (expressionsUntil g (.punct close)).Prolongs w b true K g.size
      (expressionsUntil g' (.punct close)) :=
  prolongs_accept nofun (Nat.le_succ _) (prolongs_pure []) ((prolongs_expressions hg).then
    fun es => (prolongs_mark _).bind fun _ => prolongs_pure es) nofun

theorem prolongs_nameExpr (hK : K → nextOf w ≠ .punct .colonColon) :
    (nameExpr start).Prolongs w b true K n (nameExpr start) := by
  refine prolongs_ident.bind fun name =>
    (prolongs_ident.behind (by nofun) hK).bind (r := false) fun member? => ?_
  cases member? with
  | some member => exact (prolongs_spanSince start).bind fun span => prolongs_pure _
  | none => exact prolongs_pure _

theorem prolongs_atom (hg : g.Prolongs w g') (hK : K → nextOf w ≠ .punct .colonColon) :
    (atom g).Prolongs w b true K (g.size + 1) (atom g') := by
  refine prolongs_here nofun fun start => prolongs_kind nofun fun kind => ?_
  split
  case h_6 => exact (prolongs_nameExpr hK).on nofun
  case h_7 =>
    exact prolongs_skip nofun fun _ => (hg.operand _ 0).then fun _ => (prolongs_mark _).bind
      fun _ => prolongs_pure _
  case h_8 =>
    exact prolongs_skip nofun fun _ => (prolongs_expressionsUntil hg _).bind fun _ =>
      (prolongs_spanSince start).bind fun _ => prolongs_pure _
  case h_9 =>
    exact prolongs_skip nofun fun _ => prolongs_nextLiteral.bind fun _ =>
      (prolongs_functionRest hg _).bind fun _ => prolongs_pure _
  case h_10 => exact (prolongs_fail _).on nofun
  all_goals exact prolongs_skip nofun fun _ => prolongs_pure _

/-- What is done in front of the next token behind an expression. -/
private def application (g : Grammar) (start : Span) (n : Nat) (e : Expr) (k : TokenKind) :
    Parser Expr :=
  match k with
  | .punct .lparen => do
    skip
    let args ← expressionsUntil g (.punct .rparen)
    let span ← spanSince start
    applications g start n (.call e args span)
  | .punct .dot => do
    skip
    let field ← ident
    let span ← spanSince start
    applications g start n (.field e field span)
  | .punct .lbracket => do
    skip
    let index ← g.operand 0
    expect (.punct .rbracket)
    let span ← spanSince start
    applications g start n (.index e index span)
  | _ => pure e

private theorem application_of_ends {e : Expr} {k : TokenKind} (hk : k.EndsApplications) :
    application g start n e k = pure e := by
  obtain ⟨hcall, hfield, hindex⟩ := hk
  unfold application
  split
  · exact absurd rfl hcall
  · exact absurd rfl hfield
  · exact absurd rfl hindex
  · rfl

theorem applications_of_ends {e : Expr} {c : Cursor} (hk : c.kind.EndsApplications) :
    applications g start n e c = (.ok e, c) := by
  cases n with
  | zero => rfl
  | succ n => exact congrFun (application_of_ends (n := n) hk) c

theorem prolongs_applications (hg : g.Prolongs w g') (hK : K → (nextOf w).EndsApplications)
    {j j' : Nat} (hj : j ≤ g.size) (hj' : j + w.length ≤ j') (e : Expr) :
    (applications g start j e).Prolongs w true false K j (applications g' start j' e) := by
  induction j generalizing j' e with
  | zero => exact prolongs_end fun h c' hc' => applications_of_ends (hc' ▸ hK h)
  | succ j ih =>
    obtain _ | j' := j'
    · omega
    have hloop : ∀ e, (applications g start j e).Prolongs w true false K j
        (applications g' start j' e) := fun e => ih (by omega) (by omega) e
    refine prolongs_loop (application g start j e) (application g' start j' e)
      TokenKind.EndsApplications
      (fun k hk => ⟨application_of_ends hk, application_of_ends hk⟩) (fun k hk => ?_) hK
    unfold application
    split
    · exact prolongs_skip nofun fun _ =>
        ((prolongs_expressionsUntil hg _).of_le (by omega)).bind fun args =>
          (prolongs_spanSince start).bind fun span => hloop (.call e args span)
    · exact prolongs_skip nofun fun _ => prolongs_ident.bind fun field =>
        (prolongs_spanSince start).bind fun span => hloop (.field e field span)
    · exact prolongs_skip nofun fun _ => ((hg.operand _ 0).of_le (by omega)).then fun index =>
        (prolongs_mark _).bind fun _ => (prolongs_spanSince start).bind fun span =>
          hloop (.index e index span)
    · next hcall hfield hindex => exact absurd ⟨hcall, hfield, hindex⟩ hk

theorem prolongs_applied (hg : g.Prolongs w g') :
    (applied g).Prolongs w b true (nextOf w).EndsUnary (g.size + 1) (applied g') :=
  prolongs_here nofun fun _ => (prolongs_atom hg And.right).then_less
    (fun e => prolongs_applications hg And.left le_rfl hg.size e) fun _ => id

theorem ne_eof_of_unaryOp? {k : TokenKind} {op : UnaryOp} (h : unaryOp? k = some op) : k ≠ .eof := by
  rintro rfl
  cases h

theorem prolongs_unaryStep (hg : g.Prolongs w g') :
    (unaryStep g).Prolongs w b true (nextOf w).EndsUnary (g.size + 1) (unaryStep g') := by
  refine prolongs_here nofun fun start => prolongs_kind nofun fun kind => ?_
  split
  · next op hop =>
    exact prolongs_skip (ne_eof_of_unaryOp? hop) fun _ => (hg.unary _).bind fun _ =>
      (prolongs_spanSince start).bind fun _ => prolongs_pure _
  · exact (prolongs_applied hg).on nofun

/-- What is done in front of the next token behind a left operand. -/
private def operation (g : Grammar) (level n : Nat) (left : Expr) (k : TokenKind) : Parser Expr :=
  match k.binaryOp? with
  | some op =>
    if op.precedence < level then pure left
    else do
      skip
      let right ← g.operand (op.precedence + 1)
      operations g level n (.binary op left right (left.span.merge right.span))
  | none => pure left

private theorem operation_of_ends {level : Nat} {left : Expr} {k : TokenKind}
    (hk : ∀ op, k.binaryOp? = some op → op.precedence < level) :
    operation g level n left k = pure left := by
  unfold operation
  split
  · next op hop => rw [if_pos (hk op hop)]
  · rfl

theorem operations_of_ends {level : Nat} {left : Expr} {c : Cursor}
    (hk : ∀ op, c.kind.binaryOp? = some op → op.precedence < level) :
    operations g level n left c = (.ok left, c) := by
  cases n with
  | zero => rfl
  | succ n => exact congrFun (operation_of_ends (g := g) (n := n) hk) c

theorem prolongs_operations (hg : g.Prolongs w g') {level : Nat}
    (hK : K → (nextOf w).EndsOperand level) {j j' : Nat} (hj : j ≤ g.size)
    (hj' : j + w.length ≤ j') (left : Expr) :
    (operations g level j left).Prolongs w b false K j (operations g' level j' left) := by
  induction j generalizing b j' left with
  | zero => exact prolongs_end fun h c' hc' => operations_of_ends (hc' ▸ (hK h).2)
  | succ j ih =>
    obtain _ | j' := j'
    · omega
    refine prolongs_loop (operation g level j left) (operation g' level j' left)
      (fun k => ∀ op, k.binaryOp? = some op → op.precedence < level)
      (fun k hk => ⟨operation_of_ends hk, operation_of_ends hk⟩) (fun k hk => ?_) fun h => (hK h).2
    unfold operation
    split
    · next op hop =>
      have hlevel : ¬ op.precedence < level := fun hlt => hk fun op' hop' => by
        obtain rfl := Option.some.inj (hop.symm.trans hop')
        exact hlt
      rw [if_neg hlevel, if_neg hlevel]
      exact prolongs_skip (TokenKind.ne_eof_of_binaryOp? hop) fun _ => ((hg.operand _ _).mono
        (fun h => (hK h).mono (by omega)) (by omega)).bind fun right => ih (by omega) (by omega) _
    · next hop => exact absurd (fun op h => by simp [hop] at h) hk

theorem prolongs_operandStep (hg : g.Prolongs w g') (level : Nat) :
    (operandStep g level).Prolongs w b true ((nextOf w).EndsOperand level) (g.size + 1)
      (operandStep g' level) :=
  (prolongs_unaryStep hg).then_less
    (fun left => prolongs_operations hg id le_rfl hg.size left) fun _ => And.left

/-! ### Statements -/

theorem prolongs_importing : importing.Prolongs w b true False n importing := by
  refine prolongs_here nofun fun start => (prolongs_word _).bind (r := false) fun _ =>
    prolongs_kind (fun _ => id) fun kind => ?_
  split
  · refine (Prolongs.loose ?_).of_le (Nat.le_succ n)
    exact prolongs_skip nofun fun _ => (prolongs_ident.behind (by nofun) False.elim).bind fun _ =>
      (prolongs_spanSince start).bind fun _ => prolongs_pure _
  · exact (prolongs_unexpected _).on fun _ => id

theorem prolongs_functionDecl (hg : g.Prolongs w g') :
    (functionDecl g).Prolongs w b true K (g.size + 1) (functionDecl g') :=
  prolongs_here nofun fun _ => (prolongs_word _).then_less (fun _ => prolongs_ident.bind
    fun name => prolongs_functionRest hg name) fun _ => id

theorem prolongs_methodDecl (hg : g.Prolongs w g') :
    (methodDecl g).Prolongs w b true K (g.size + 1) (methodDecl g') :=
  prolongs_here nofun fun _ => (prolongs_word _).then_less (fun _ => (prolongs_mark _).bind
    fun _ => (prolongs_param hg.size).then fun _ => (prolongs_mark _).bind fun _ =>
      prolongs_ident.bind fun name => (prolongs_functionRest hg name).bind fun _ =>
        prolongs_pure _) fun _ => id

theorem prolongs_varBinder {k k' : Nat} (hk : k + w.length ≤ k') :
    (varBinder k).Prolongs w b true False k (varBinder k') :=
  prolongs_ident.bind fun _ => ((prolongs_typeWithin hk).behind (by nofun) False.elim).bind
    fun _ => prolongs_pure _

theorem prolongs_initialValues (hg : g.Prolongs w g') :
    (initialValues g).Prolongs w b false False g.size (initialValues g') :=
  prolongs_accept nofun (Nat.le_succ _) (prolongs_expressions hg)
    (prolongs_accept nofun (Nat.le_succ _) (prolongs_expressions hg) (prolongs_pure [])
      fun _ => False.elim) fun _ => False.elim

/-- Where the word in front of a declaration is known to be there, it is read. -/
theorem on_varDecl (g : Grammar) (k : TokenKind) :
    on k (varDecl g) = look Cursor.here >>= fun start => on k (skip >>= fun _ => do
      let targets ← items g.size (varBinder g.size)
      let values ← initialValues g
      let span ← spanSince start
      pure (.varDecl (k == .keyword .constKw) targets values span)) := by
  funext c
  by_cases hkind : c.kind = k
  · simp only [on, varDecl, look, Bind.bind, Parser.bind, hkind, ↓reduceIte]
  · simp only [on, look, Bind.bind, Parser.bind, hkind, ↓reduceIte]

theorem prolongs_varDecl (hg : g.Prolongs w g') {k : TokenKind} (hk : k ≠ .eof) :
    (on k (varDecl g)).Prolongs w b true False (g.size + 1) (on k (varDecl g')) := by
  rw [on_varDecl, on_varDecl]
  exact prolongs_here (by simp) fun start => prolongs_skip hk fun _ =>
    (Prolongs.items (fun b => prolongs_varBinder hg.size) le_rfl (Nat.le_succ _) hg.size).bind
      fun _ => (prolongs_initialValues hg).bind fun _ => (prolongs_spanSince start).bind fun _ =>
        prolongs_pure _

theorem prolongs_typeDecl {k k' : Nat} (hk : k + w.length ≤ k') :
    (typeDecl k).Prolongs w b true False (k + 1) (typeDecl k') :=
  prolongs_here nofun fun start => (prolongs_word _).then_less (fun _ => prolongs_ident.bind
    fun _ => (prolongs_typeWithin hk).bind fun _ => (prolongs_spanSince start).bind fun _ =>
      prolongs_pure _) fun _ => id

theorem prolongs_alternative (hg : g.Prolongs w g') :
    (alternative g).Prolongs w b false False g.size (alternative g') := by
  refine prolongs_accept nofun (Nat.le_succ _) (r := true) ?_ (prolongs_pure _) fun _ => False.elim
  refine prolongs_kind nofun fun k => Prolongs.on (.ite ?_ ?_) nofun
  · exact (hg.conditional _).bind fun _ => prolongs_pure _
  · exact ((prolongs_block hg).of_le (Nat.le_succ _)).bind fun _ => prolongs_pure _

theorem prolongs_conditionalStep (hg : g.Prolongs w g') :
    (conditionalStep g).Prolongs w b true False (g.size + 1) (conditionalStep g') :=
  prolongs_here nofun fun start => (prolongs_word _).then_less (fun _ => (hg.operand _ 0).then
    fun _ => ((prolongs_block hg).of_le (Nat.le_succ _)).bind fun _ =>
      (prolongs_alternative hg).bind fun _ => (prolongs_spanSince start).bind fun _ =>
        prolongs_pure _) fun _ => id

theorem prolongs_returning (hg : g.Prolongs w g') :
    (returning g).Prolongs w b true False (g.size + 1) (returning g') := by
  refine prolongs_here nofun fun start => (prolongs_word _).then_less (s := false) (fun _ => ?_)
    fun _ => id
  refine prolongs_kind (fun _ => id) fun k => Prolongs.on (.ite ?_ ?_) fun _ => id
  · exact (prolongs_spanSince start).bind fun _ => prolongs_pure _
  · exact .loose (((hg.operand _ 0).mono False.elim le_rfl).bind fun _ =>
      (prolongs_spanSince start).bind fun _ => prolongs_pure _)

theorem prolongs_assignmentOrExpr (hg : g.Prolongs w g') :
    (assignmentOrExpr g).Prolongs w b true False (g.size + 1) (assignmentOrExpr g') := by
  have htargets : (items g.size (operandStep g 0)).Prolongs w b true False (g.size + 1)
      (items g'.size (operandStep g' 0)) :=
    Prolongs.items (fun b => (prolongs_operandStep hg 0).mono False.elim le_rfl) (Nat.le_succ _)
      le_rfl hg.size
  refine prolongs_here nofun fun start => htargets.then_less (s := false) (fun targets => ?_)
    fun _ => id
  refine prolongs_accept nofun (Nat.le_succ _) (r := true) ?_ ?_ fun _ => False.elim
  · exact (prolongs_expressions hg).bind fun _ => (prolongs_spanSince start).bind fun _ =>
      prolongs_pure _
  · match targets with
    | [] | _ :: _ :: _ => exact prolongs_unexpected _
    | [e] => exact prolongs_pure _

theorem prolongs_statementBody (hg : g.Prolongs w g') :
    (statementBody g).Prolongs w b true False (g.size + 1) (statementBody g') := by
  refine prolongs_kind nofun fun kind => ?_
  split
  · exact prolongs_importing.map.on nofun
  · refine Prolongs.on (prolongs_nextKind fun k => .ite ?_ ?_) nofun
    · exact (prolongs_methodDecl hg).bind fun _ => prolongs_pure _
    · exact (prolongs_functionDecl hg).map
  · exact prolongs_varDecl hg nofun
  · exact prolongs_varDecl hg nofun
  · exact (prolongs_typeDecl hg.size).map.on nofun
  · exact (prolongs_conditionalStep hg).map.on nofun
  · exact (prolongs_returning hg).on nofun
  · exact (prolongs_block hg).map.on nofun
  · exact (prolongs_assignmentOrExpr hg).on nofun

theorem prolongs_statementStep (hg : g.Prolongs w g') :
    (statementStep g).Prolongs w b true False (g.size + 1) (statementStep g') :=
  (prolongs_statementBody hg).bind fun s =>
    prolongs_accept nofun (Nat.le_succ _) (prolongs_pure s) (prolongs_pure s) fun _ => False.elim

end Parser

/-- What a grammar reads to the end of its tokens, one with more room reads if others follow. -/
theorem Grammar.prolongs_within {w : List Token} {n n' : Nat} (h : n + w.length ≤ n') :
    (Grammar.within n).Prolongs w (Grammar.within n') := by
  have hsize : ∀ {n n'}, n + w.length ≤ n' →
      (Grammar.within n).size + w.length ≤ (Grammar.within n').size := by
    intro n n' h
    rwa [size_within, size_within]
  induction n generalizing n' with
  | zero =>
    exact ⟨hsize h, fun _ _ => Parser.prolongs_fail _,
      fun _ => Parser.prolongs_fail _, fun _ => Parser.prolongs_fail _,
      fun _ => Parser.prolongs_unexpected _⟩
  | succ n ih =>
    obtain _ | n' := n'
    · omega
    have hg : (Grammar.within n).Prolongs w (Grammar.within n') := ih (by omega)
    exact ⟨hsize h, fun _ => Parser.prolongs_operandStep hg,
      fun _ => Parser.prolongs_unaryStep hg, fun _ => Parser.prolongs_statementStep hg,
      fun _ => Parser.prolongs_conditionalStep hg⟩

end Sable
