import Sable.Proofs.Syntax.RereadTypes

/-!
# Reading expressions back

The wording of an expression is read by the grammar of atoms wherever no `::` follows, since it is
an atom or stands in parentheses; and what stands in the parentheses is read up to them. The
grammar of one level reads the constructs whose parts the level below reads. Functions and blocks
come with the expressions, because a function literal is one.
-/

namespace Sable

open Wording

theorem Expr.wordings_eq_map (es : List Expr) : Expr.wordings es = es.map Expr.wording := by
  induction es with
  | nil => rw [Expr.wordings, List.map_nil]
  | cons e es ih => rw [Expr.wordings, List.map_cons, ih, Expr.wording]

theorem Expr.literalNamesAll_eq_flatMap (es : List Expr) :
    Expr.literalNamesAll es = es.flatMap Expr.literalNames := by
  induction es with
  | nil => rw [Expr.literalNamesAll, List.flatMap_nil]
  | cons e es ih => rw [Expr.literalNamesAll, List.flatMap_cons, ih]

namespace Parser

variable {n : Nat} {F : TokenKind → Prop}

/-! ### Where expressions start and end -/

/-- The tokens that an expression may start with where it may be part of another one. -/
def startsOperand : TokenKind → Bool
  | .int _ | .float _ | .string _ | .ident _ => true
  | .keyword k => k == .trueKw || k == .falseKw || k == .fnKw
  | .punct p => p == .lparen || p == .lbracket
  | _ => false

/-- The tokens behind an expression without free operators: none of them goes on with it. -/
def EndsOperand (k : TokenKind) : Prop :=
  k ≠ .punct .colonColon ∧ k ≠ .punct .lparen ∧ k ≠ .punct .dot ∧ k ≠ .punct .lbracket

/-- The tokens behind an expression: none of them goes on with it. -/
def EndsExpr (k : TokenKind) : Prop := EndsOperand k ∧ k.binaryOp? = none

instance : DecidablePred EndsOperand := fun _ => inferInstanceAs (Decidable (_ ∧ _))

instance : DecidablePred EndsExpr := fun _ => inferInstanceAs (Decidable (_ ∧ _))

theorem unaryOp?_of_startsOperand {k : TokenKind} (h : startsOperand k = true) :
    unaryOp? k = none := by
  cases k with
  | punct p => cases p <;> first | rfl | exact absurd h nofun
  | _ => rfl

theorem startsOperand_literal (v : Literal) : startsOperand v.kind = true := by
  rcases v with v | v | v | (_ | _) <;> rfl

theorem starts_bare_of_isAtom {e : Expr} (h : e.isAtom = true) :
    e.bare.Starts (startsOperand · = true) := by
  cases e with
  | literal value span =>
    rw [Expr.bare]
    exact starts_token (startsOperand_literal value)
  | ident x =>
    rw [Expr.bare]
    exact starts_token rfl
  | qualified module x span | array elements span | function f =>
    rw [Expr.bare]
    refine Wording.Starts.cons (starts_token ?_)
    rfl
  | binary op left right span | unary op e span | call callee args span | field object x span
  | index object index span => exact absurd h nofun

theorem starts_operand {P : TokenKind → Prop} {isAtom : Bool} {W : Wording}
    (hparen : P (.punct .lparen)) (h : isAtom = true → W.Starts P) :
    (W.operand isAtom).Starts P := by
  cases isAtom with
  | true => exact (h rfl).either (starts_token hparen).cons
  | false => exact (starts_token hparen).cons

theorem starts_wording (e : Expr) : e.wording.Starts (startsOperand · = true) :=
  starts_operand rfl starts_bare_of_isAtom

theorem starts_bare (e : Expr) : e.bare.Starts fun _ => True := by
  cases e with
  | literal value span | ident x | qualified module x span | array elements span | function f =>
    exact (starts_bare_of_isAtom rfl).mono fun _ _ => trivial
  | unary op e span =>
    rw [Expr.bare]
    exact (starts_token trivial).cons
  | binary op left right span =>
    rw [Expr.bare]
    exact (starts_wording left).cons.mono fun _ _ => trivial
  | call callee args span =>
    rw [Expr.bare]
    exact (starts_wording callee).cons.mono fun _ _ => trivial
  | field object x span | index object _ span =>
    rw [Expr.bare]
    exact (starts_wording object).cons.mono fun _ _ => trivial

theorem endsReturn_of_startsOperand {k : TokenKind} (h : startsOperand k = true) :
    endsReturn k = false := by
  cases k with
  | punct p => cases p <;> first | rfl | exact absurd h nofun
  | eof => exact absurd h nofun
  | _ => rfl

theorem ne_of_startsOperand {k k' : TokenKind} (h : startsOperand k = true)
    (h' : startsOperand k' = false) : k ≠ k' := by
  rintro rfl
  exact absurd h (by simp [h'])

/-- A function literal stands in parentheses at the start of a statement. -/
theorem starts_startWording (e : Expr) :
    (e.bare.operand e.isStart).Starts fun k => startsOperand k = true ∧ k ≠ .keyword .fnKw := by
  refine starts_operand (by decide) fun h => ?_
  cases e with
  | literal value span =>
    rw [Expr.bare]
    refine starts_token ⟨startsOperand_literal value, ?_⟩
    cases value with
    | bool v => cases v <;> simp [Literal.kind]
    | _ => simp [Literal.kind]
  | ident x =>
    rw [Expr.bare]
    exact starts_token ⟨rfl, by simp⟩
  | qualified module x span | array elements span =>
    rw [Expr.bare]
    refine Wording.Starts.cons (starts_token ⟨rfl, by simp⟩)
  | function f | binary op left right span | unary op e span | call callee args span
  | field object x span | index object index span => cases h

theorem mem_wording_of_mem_startWording {e : Expr} {w : List TokenKind}
    (hw : w ∈ e.bare.operand e.isStart) : w ∈ e.wording := by
  rw [Expr.wording]
  cases e with
  | function f => exact Or.inr hw
  | _ => exact hw

/-- The tokens that a statement may start with. -/
theorem starts_stmtWording {s : Stmt} (hs : s.WellFormed) :
    s.wording.Starts fun k => k ≠ .punct .rbrace ∧ k ≠ .eof ∧ k ≠ .punct .semicolon := by
  have hexpr (e : Expr) : (e.bare.operand e.isStart).Starts fun k =>
      k ≠ .punct .rbrace ∧ k ≠ .eof ∧ k ≠ .punct .semicolon :=
    (starts_startWording e).mono fun k hk => ⟨ne_of_startsOperand hk.1 rfl,
      ne_of_startsOperand hk.1 rfl, ne_of_startsOperand hk.1 rfl⟩
  cases hs with
  | @assign targets values span htargets =>
    cases targets with
    | nil => exact absurd rfl htargets
    | cons e es =>
      rw [Stmt.wording, Expr.startWordings]
      exact (hexpr e).cons.cons
  | @expr e =>
    rw [Stmt.wording]
    exact hexpr e
  | @block b =>
    cases b
    rw [Stmt.wording, Block.wording]
    exact (starts_token (by simp)).cons
  | @conditional c =>
    cases c
    rw [Stmt.wording, Conditional.wording]
    exact (starts_token (by simp)).cons
  | @ret value =>
    cases value with
    | none =>
      rw [Stmt.wording]
      exact starts_token (by simp)
    | some e =>
      rw [Stmt.wording]
      exact (starts_token (by simp)).cons
  | importing | function | method | varDecl | typeDecl =>
    rw [Stmt.wording]
    exact (starts_token (by simp)).cons

theorem reads_operand {α : Type} {p : Parser α} {isAtom : Bool} {W : Wording} {xs : List String}
    {P : α → Prop} (hparen : p.Reads n W.parenthesized xs F P)
    (h : isAtom = true → p.Reads n W xs F P) : p.Reads n (W.operand isAtom) xs F P := by
  cases isAtom with
  | true =>
    rintro w (hw | hw)
    · exact h rfl w hw
    · exact hparen w hw
  | false => exact hparen

end Parser

/-! ### The grammar -/

/-- A grammar reads the wordings of all constructs back from as many tokens as it may read. -/
structure Grammar.ReadsBack (g : Grammar) : Prop where
  /-- Expressions as operands. -/
  operand : ∀ (level : Nat) (e : Expr), e.WellFormed → (g.operand level).Reads g.size e.wording
    e.literalNames Parser.EndsExpr fun a => a.Alike Anywhere e
  /-- Expressions in parentheses. -/
  bare : ∀ e : Expr, e.WellFormed → (g.operand 0).Reads g.size e.bare e.literalNames
    (· = .punct .rparen) fun a => a.Alike Anywhere e
  /-- Expressions behind an operator. -/
  unary : ∀ e : Expr, e.WellFormed → g.unary.Reads g.size e.wording e.literalNames
    Parser.EndsOperand fun a => a.Alike Anywhere e
  /-- Statements with one semicolon. -/
  statement : ∀ s : Stmt, s.WellFormed → g.statement.Reads g.size
    (sequence [s.wording, mark .semicolon]) s.literalNames (fun _ => True)
    fun a => a.Alike Anywhere s
  /-- Conditions. -/
  conditional : ∀ c : Conditional, c.WellFormed → g.conditional.Reads g.size c.wording
    c.literalNames (· ≠ .keyword .elseKw) fun a => a.Alike Anywhere c

namespace Parser

section

variable {g : Grammar} (hg : g.ReadsBack)

include hg

/-! ### Expressions -/

theorem reads_expressions {es : List Expr} (hes : ∀ e ∈ es, e.WellFormed) (hne : es ≠ []) :
    (expressions g).Reads g.size (separated (Expr.wordings es)) (Expr.literalNamesAll es)
      (fun k => EndsExpr k ∧ k ≠ .punct .comma)
      fun as => List.Forall₂ (Expr.Alike Anywhere) as es := by
  rw [Expr.wordings_eq_map, Expr.literalNamesAll_eq_flatMap]
  exact Reads.items (fun e he => hg.operand 0 e (hes e he))
    (fun e _ => (starts_wording e).mono fun _ _ => trivial) (by decide)
    (fun _ hk => hk) hne (Nat.le_refl _) (Nat.le_succ _)

theorem reads_expressionsUntil {close : Punct} {es : List Expr} (hes : ∀ e ∈ es, e.WellFormed)
    (hclose : EndsExpr (.punct close)) (hcomma : close ≠ .comma)
    (hstart : startsOperand (.punct close) = false) :
    (expressionsUntil g (.punct close)).Reads g.size (endedBy close (Expr.wordings es))
      (Expr.literalNamesAll es) F fun as => List.Forall₂ (Expr.Alike Anywhere) as es := by
  cases es with
  | nil =>
    refine reads_nothing_cons (Reads.of_succ (Reads.accept_then ?_))
    exact reads_pure .nil
  | cons e es =>
    have hlead : (endedBy close (Expr.wordings (e :: es))).Leads (· ≠ .punct close) F := by
      refine ((starts_wording e).cons.cons.mono fun k hk => ?_).leads
      rintro rfl
      exact absurd hk (by simp [hstart])
    refine Reads.accept_else hlead ?_
    have hends : EndsExpr (.punct close) ∧ TokenKind.punct close ≠ .punct .comma :=
      ⟨hclose, by simpa using hcomma⟩
    refine (reads_expressions hg hes (by simp)).bind_plain (leads_token hends) fun as has => ?_
    exact Reads.expect_next (reads_pure has)

/-! ### Blocks and functions -/

omit hg in
/-- A semicolon in front of statements is passed over. -/
theorem reads_statements_strays {stmt : Parser Stmt} {close : TokenKind}
    (hclose : close ≠ .punct .semicolon) {W : Wording} {xs : List String} {P : List Stmt → Prop}
    (h : ∀ m ≤ n, (statements stmt close m).Reads m W xs F P) {m : Nat} (hmn : m ≤ n) :
    (statements stmt close m).Reads m (sequence [semicolons, W]) xs F P := by
  intro w hw
  obtain ⟨u, ⟨k, rfl⟩, v, hv, rfl⟩ := mem_sequence_cons.mp hw
  clear hw
  induction k generalizing m with
  | zero => exact reads_sequence_singleton.mpr (h m hmn) v hv
  | succ k ih =>
    intro hlength c more i hc hxs hmore
    rw [List.replicate_succ, List.cons_append, List.length_cons] at hlength
    cases m with
    | zero => exact absurd hlength (by omega)
    | succ m =>
      have hkind : c.kind = .punct .semicolon := hc.kind
      obtain ⟨a, d, hread, hd, ha⟩ :=
        ih (m := m) (by omega) (by omega) c.advance more i hc.advance hxs hmore
      refine ⟨a, d, ?_, hd, ha⟩
      have hne : ¬ (TokenKind.punct .semicolon = close ∨ TokenKind.punct .semicolon = .eof) := by
        simpa using hclose.symm
      simpa only [statements, Bind.bind, Parser.bind, look, accept, hkind, hne, ↓reduceIte]
        using hread

omit hg in
theorem reads_statements {stmt : Parser Stmt} {close : TokenKind}
    (hclose : close = .punct .rbrace ∨ close = .eof)
    (hstmt : ∀ s : Stmt, s.WellFormed → stmt.Reads n (sequence [s.wording, mark .semicolon])
      s.literalNames (fun _ => True) fun a => a.Alike Anywhere s)
    {ss : List Stmt} (hss : ∀ s ∈ ss, s.WellFormed) {m : Nat} (hmn : m ≤ n) :
    (statements stmt close m).Reads m (Stmt.wordings ss) (Stmt.literalNamesAll ss) (· = close)
      fun as => List.Forall₂ (Stmt.Alike Anywhere) as ss := by
  induction ss generalizing m with
  | nil =>
    rw [Stmt.wordings, Stmt.literalNamesAll]
    cases m with
    | zero => exact reads_pure .nil
    | succ m =>
      refine reads_kind (leads_nil fun _ hk => hk) fun k hk => ?_
      rw [if_pos (Or.inl hk)]
      exact reads_pure .nil
  | cons s ss ih =>
    rw [Stmt.wordings, Stmt.literalNamesAll]
    obtain ⟨hs, hss⟩ := List.forall_mem_cons.mp hss
    have hstart := starts_stmtWording hs
    cases m with
    | zero => exact reads_zero hstart.cons
    | succ m =>
      refine reads_kind hstart.cons.leads fun k hk => ?_
      have hne : ¬ (k = close ∨ k = .eof) := by
        rcases hclose with rfl | rfl
        · exact not_or.mpr ⟨hk.1, hk.2.1⟩
        · exact not_or.mpr ⟨hk.2.1, hk.2.1⟩
      rw [if_neg hne]
      refine Reads.accept_else (hstart.cons.mono fun k hk => hk.2.2).leads ?_
      refine reads_cons_cons ?_
      refine ((hstmt s hs).of_le hmn).bind_succ
        (hstart.cons.mono fun _ _ => trivial) leads_true fun a ha => ?_
      have hclose' : close ≠ .punct .semicolon := by rcases hclose with rfl | rfl <;> simp
      have hrest := reads_statements_strays (n := m) hclose'
        (fun m' hm' => ih hss (m := m') (by omega)) (Nat.le_refl m)
      exact reads_sequence_singleton.mp
        (hrest.bind_last (fun _ hk => hk) fun as has => reads_pure (.cons ha has))

theorem reads_block {b : Block} (hb : b.WellFormed) :
    (block g).Reads (g.size + 1) b.wording b.literalNames F fun a => a.Alike Anywhere b := by
  obtain ⟨span, hstmts⟩ := hb
  rw [Block.wording, Block.literalNames]
  refine reads_look fun start => Reads.expect_then ?_
  refine (reads_statements (Or.inl rfl) hg.statement hstmts (Nat.le_refl _)).bind_plain
    (leads_token rfl) fun as has => ?_
  exact Reads.expect_next (reads_spanSince fun span' => reads_pure (.mk span' span has))

omit hg in
theorem reads_param {p : Param} (hp : p.ty.WellFormed) :
    (param n).Reads n p.wording [] EndsType fun q => q.Alike Anywhere p := by
  refine reads_look fun start => Reads.ident_next fun y hy => Reads.expect_next ?_
  refine (readsTypes_typeWithin n _ hp).bind_last (fun _ hk => hk) fun ty hty => ?_
  exact reads_spanSince fun span' => reads_pure ⟨hy, hty⟩

theorem reads_functionRest {f : FunctionDef} (hf : f.WellFormed) {name : Ident}
    (hname : name.Alike Anywhere f.name) (start : Span) :
    (functionRest g name start).Reads g.size f.wording f.literalNames F
      fun a => a.Alike Anywhere f := by
  obtain @⟨params, ret, body, x, span, hparams, hret, hbody⟩ := hf
  rw [FunctionDef.wording, FunctionDef.literalNames, TypeExpr.wording?_eq_map]
  refine Reads.expect_next ?_
  refine (Reads.plainItemsUntil (fun p hp => reads_param (hparams p hp)) (fun p _ => ?_)
    (by simp [EndsType]) (by simp [EndsType]) (by simp)).bind (F := fun _ => True) leads_true
    fun params' hparams' => ?_
  · exact (starts_token (by simp)).cons
  refine (Reads.behind (G := (· = .punct .lbrace))
    (fun t ht => readsTypes_typeWithin _ t (hret t ht)) ?_).bind ?_ fun ret' hret' => ?_
  · rintro k rfl
    simp [EndsType]
  · cases body
    rw [Block.wording]
    exact (starts_token (F := (· = .punct .lbrace)) rfl).cons.cons.leads
  · refine (reads_block hg hbody).of_succ.bind_last (F := fun _ => True) (fun _ _ => trivial)
      fun body' hbody' => ?_
    exact reads_spanSince fun span' => reads_pure (.mk span' span hname hparams' hret' hbody')

/-! ### Operands -/

theorem reads_atom {e : Expr} (he : e.WellFormed) :
    (atom g).Reads (g.size + 1) e.wording e.literalNames (· ≠ .punct .colonColon)
      fun a => a.Alike Anywhere e := by
  refine reads_look fun start => reads_operand ?_ fun hatom => ?_
  · refine reads_kind_token (Reads.skip_then ?_)
    refine (hg.bare e he).bind_plain (leads_token rfl) fun a ha => ?_
    exact Reads.expect_next (reads_pure ha)
  · cases he with
    | literal value span =>
      rw [Expr.bare, Expr.literalNames]
      refine reads_sequence_singleton.mp ?_
      rcases value with v | v | v | (_ | _)
      all_goals exact reads_kind_token (Reads.skip_then (reads_pure (.literal _ start span)))
    | ident x =>
      rw [Expr.bare, Expr.literalNames]
      refine reads_sequence_singleton.mp (reads_kind_token ?_)
      refine Reads.ident_next fun y hy => ?_
      exact Reads.behind_else (leads_nil fun _ hk => hk) (reads_pure (.ident hy))
    | qualified module x span =>
      rw [Expr.bare, Expr.literalNames]
      refine reads_kind_token (Reads.ident_next fun y hy => ?_)
      refine Reads.behind_then (Reads.ident_next fun z hz => ?_)
      exact reads_spanSince fun span' => reads_pure (.qualified span' span hy hz)
    | array span helements =>
      rw [Expr.bare, Expr.literalNames]
      refine reads_kind_token (Reads.skip_then ?_)
      refine (reads_expressionsUntil hg helements (by decide) (by decide) rfl).bind_last
        (F := fun _ => True) (fun _ _ => trivial) fun as has => ?_
      exact reads_spanSince fun span' => reads_pure (.array span' span has)
    | function hf =>
      rw [Expr.bare, Expr.literalNames]
      refine reads_kind_token (Reads.skip_then (reads_of_nothing_cons ?_))
      refine (reads_nextLiteral _).bind (F := fun _ => True) leads_true fun i hi => ?_
      refine (reads_functionRest hg hf ⟨hi, trivial⟩ start).bind_last (F := fun _ => True)
        (fun _ _ => trivial) fun a ha => ?_
      exact reads_pure (.function ha)
    | binary op span _ _ | unary op span _ | call span _ _ | field x span _ | index span _ _ =>
      exact absurd hatom nofun

omit hg in
/-- Nothing is applied to an expression if no token goes on with it. -/
theorem reads_applications {e a : Expr} (ha : a.Alike Anywhere e) (start : Span) (m : Nat) :
    (applications g start m a).Reads n (sequence []) [] EndsOperand
      fun a => a.Alike Anywhere e := by
  cases m with
  | zero => exact reads_pure ha
  | succ m =>
    refine reads_kind (leads_nil fun _ hk => hk) fun k hk => ?_
    obtain ⟨-, hlparen, hdot, hlbracket⟩ := hk
    split
    · exact absurd rfl hlparen
    · exact absurd rfl hdot
    · exact absurd rfl hlbracket
    · exact reads_pure ha

omit hg in
/-- No operator is read behind an expression if no token goes on with it. -/
theorem reads_operations {e a : Expr} (ha : a.Alike Anywhere e) (level m : Nat) :
    (operations g level m a).Reads n (sequence []) [] (fun k => k.binaryOp? = none)
      fun a => a.Alike Anywhere e := by
  cases m with
  | zero => exact reads_pure ha
  | succ m =>
    refine reads_kind (leads_nil fun _ hk => hk) fun k hk => ?_
    rw [hk]
    exact reads_pure ha

theorem reads_applied {e : Expr} (he : e.WellFormed) :
    (applied g).Reads (g.size + 1) e.wording e.literalNames EndsOperand
      fun a => a.Alike Anywhere e := by
  refine reads_sequence_singleton.mp (reads_look fun start => ?_)
  exact (reads_atom hg he).bind_last (fun _ hk => hk.1) fun a ha => reads_applications ha start _

omit hg in
/-- What starts with an operand has no operator in front of it. -/
theorem reads_unaryStep_of_applied {W : Wording} {xs : List String} {P : Expr → Prop}
    (hW : W.Starts (startsOperand · = true)) (h : (applied g).Reads n W xs F P) :
    (unaryStep g).Reads n W xs F P := by
  refine reads_look fun start => reads_kind hW.leads fun k hk => ?_
  rw [unaryOp?_of_startsOperand hk]
  exact h

theorem reads_unaryStep {e : Expr} (he : e.WellFormed) :
    (unaryStep g).Reads (g.size + 1) e.wording e.literalNames EndsOperand
      fun a => a.Alike Anywhere e :=
  reads_unaryStep_of_applied (starts_wording e) (reads_applied hg he)

omit hg in
theorem reads_operandStep_of_unaryStep {e : Expr} {W : Wording} (level : Nat)
    (h : (unaryStep g).Reads n W e.literalNames F fun a => a.Alike Anywhere e) :
    (operandStep g level).Reads n W e.literalNames (fun k => F k ∧ k.binaryOp? = none)
      fun a => a.Alike Anywhere e := by
  refine reads_sequence_singleton.mp ?_
  exact h.bind_last (fun _ hk => hk.1) fun a ha =>
    (reads_operations ha level _).followed fun _ hk => hk.2

theorem reads_operandStep (level : Nat) {e : Expr} (he : e.WellFormed) :
    (operandStep g level).Reads (g.size + 1) e.wording e.literalNames EndsExpr
      fun a => a.Alike Anywhere e :=
  reads_operandStep_of_unaryStep level (reads_unaryStep hg he)

/-! ### What stands in parentheses -/

omit hg in
theorem mem_wording_of_mem_bare {e : Expr} (h : e.isAtom = true) {w : List TokenKind}
    (hw : w ∈ e.bare) : w ∈ e.wording := by
  rw [Expr.wording, h]
  exact Or.inl hw

/-- An operator with its right operand is read behind the left one. -/
theorem reads_operation {op : BinaryOp} {left right a : Expr} (hright : right.WellFormed)
    (ha : a.Alike Anywhere left) (span : Span) :
    (operations g 0 g.size a).Reads g.size (sequence [mark op.punct, right.wording])
      right.literalNames (· = .punct .rparen)
      fun b => b.Alike Anywhere (.binary op left right span) := by
  cases hsize : g.size with
  | zero => exact reads_zero (starts_token (F := fun _ => True) trivial).cons
  | succ m =>
    have hop : op.punct.binaryOp? = some op := Punct.binaryOp?_eq_some_iff.mpr rfl
    have hoperand := hg.operand (op.precedence + 1) right hright
    rw [hsize] at hoperand
    refine reads_kind_token ?_
    simp only [TokenKind.binaryOp?, hop, Nat.not_lt_zero, ↓reduceIte]
    refine Reads.skip_then ?_
    refine (hoperand.of_succ).bind_last ?_ fun b hb => ?_
    · rintro k rfl
      decide
    · refine (reads_operations (.binary op _ span ha hb) 0 m).followed ?_
      rintro k rfl
      rfl

/-- A call, a field or an index is read as the only one behind its object. -/
theorem reads_application {object e : Expr} {k : TokenKind} {h : k ≠ .eof} {Ws : List Wording}
    {ys : List String} (hobject : object.WellFormed) (hk : k ≠ .punct .colonColon)
    (hnames : e.literalNames = object.literalNames ++ ys)
    (hrest : ∀ (start : Span) (m : Nat) (a : Expr), g.size = m + 1 → a.Alike Anywhere object →
      (applications g start (m + 1) a).Reads (m + 1) (sequence (token k h :: Ws)) ys
        (· = .punct .rparen) fun b => b.Alike Anywhere e) :
    (operandStep g 0).Reads (g.size + 1) (sequence (object.wording :: token k h :: Ws))
      e.literalNames (· = .punct .rparen) fun a => a.Alike Anywhere e := by
  have happlied : (applied g).Reads (g.size + 1) (sequence (object.wording :: token k h :: Ws))
      e.literalNames (· = .punct .rparen) fun a => a.Alike Anywhere e := by
    rw [hnames]
    refine reads_look fun start => ?_
    refine (reads_atom hg hobject).bind_succ ((starts_wording object).mono fun _ _ => trivial)
      (leads_token hk) fun a ha => ?_
    cases hsize : g.size with
    | zero => exact reads_zero (starts_token (F := fun _ => True) trivial).cons
    | succ m => exact hrest start m a hsize ha
  have hunary := reads_unaryStep_of_applied (starts_wording object).cons happlied
  refine (reads_operandStep_of_unaryStep 0 hunary).followed ?_
  rintro k rfl
  exact ⟨rfl, rfl⟩

theorem reads_bare {e : Expr} (he : e.WellFormed) :
    (operandStep g 0).Reads (g.size + 1) e.bare e.literalNames (· = .punct .rparen)
      fun a => a.Alike Anywhere e := by
  have hrparen : ∀ k, k = .punct .rparen → EndsExpr k := by
    rintro k rfl
    decide
  have hrparen' : ∀ k, k = .punct .rparen → EndsOperand k := fun k hk => (hrparen k hk).1
  have hatom (h : e.isAtom = true) :=
    ((reads_operandStep hg 0 he).followed hrparen).of_subset fun _ => mem_wording_of_mem_bare h
  cases he with
  | literal value span => exact hatom rfl
  | ident x => exact hatom rfl
  | qualified module x span => exact hatom rfl
  | array span _ => exact hatom rfl
  | function _ => exact hatom rfl
  | @binary left right op span hleft hright =>
    rw [Expr.bare, Expr.literalNames]
    refine (reads_unaryStep hg hleft).bind_succ ((starts_wording left).mono fun _ _ => trivial)
      (leads_token ?_) fun a ha => reads_operation hg hright ha span
    cases op <;> decide
  | @unary operand op span hoperand =>
    have hunary : (unaryStep g).Reads (g.size + 1) (sequence [mark op.punct, operand.wording])
        operand.literalNames EndsOperand fun a => a.Alike Anywhere (.unary op operand span) := by
      refine reads_look fun start => reads_kind_token ?_
      have hop : unaryOp? (.punct op.punct) = some op := by cases op <;> rfl
      rw [hop]
      refine Reads.skip_then ((hg.unary operand hoperand).bind_last (fun _ hk => hk) fun a ha => ?_)
      exact reads_spanSince fun span' => reads_pure (.unary op span' span ha)
    have hnames : (Expr.unary op operand span).literalNames = operand.literalNames := by
      rw [Expr.literalNames]
    rw [← hnames] at hunary
    rw [Expr.bare]
    exact (reads_operandStep_of_unaryStep 0 hunary).followed hrparen
  | @call callee args span hcallee hargs =>
    rw [Expr.bare]
    refine reads_application hg hcallee (by simp) (by rw [Expr.literalNames])
      fun start m a hm ha => ?_
    refine reads_kind_token (Reads.skip_then ?_)
    refine Reads.bind_last (F := fun _ => True) ((reads_expressionsUntil hg hargs (by decide)
      (by decide) rfl).of_le (by omega)) (fun _ _ => trivial) fun as has => ?_
    refine reads_spanSince fun span' => ?_
    exact (reads_applications (.call span' span ha has) start m).followed hrparen'
  | @field object x span hobject =>
    have hnames : (Expr.field object x span).literalNames = object.literalNames ++ [] := by
      rw [Expr.literalNames, List.append_nil]
    rw [Expr.bare]
    refine reads_application hg hobject (by simp) hnames fun start m a hm ha => ?_
    refine reads_kind_token (Reads.skip_then ?_)
    refine Reads.ident_next fun y hy => reads_spanSince fun span' => ?_
    exact (reads_applications (.field span' span ha hy) start m).followed hrparen'
  | @index object index span hobject hindex =>
    rw [Expr.bare]
    refine reads_application hg hobject (by simp) (by rw [Expr.literalNames])
      fun start m a hm ha => ?_
    refine reads_kind_token (Reads.skip_then ?_)
    refine ((hg.operand 0 index hindex).of_le (by omega)).bind_plain
      (leads_token (by decide)) fun i hi => ?_
    refine Reads.expect_next (reads_spanSince fun span' => ?_)
    exact (reads_applications (.index span' span ha hi) start m).followed hrparen'

end

end Parser

end Sable
