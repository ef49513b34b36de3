import Mathlib.Data.List.TakeWhile
import Sable.Proofs.Syntax.PerformedGrammar
import Sable.Proofs.Syntax.ProlongedGrammar

/-!
# Operators and their operands

An expression is a row of operands with binary operators between them. Of all trees that are read in
order as such a row, one alone is grouped: at each of its nodes the operators on the left bind at
least as tightly as the operator of the node, and those on the right bind more tightly. That tree is
the one that the parser yields, whichever tokens the operands are made of.
-/

namespace Sable

/-- A tree of binary operators over operands. -/
inductive Climb
  | operand (e : Expr)
  | operation (op : BinaryOp) (left right : Climb)

namespace Climb

/-- The expression that a tree stands for. -/
def expr : Climb → Expr
  | operand e => e
  | operation op left right =>
    .binary op left.expr right.expr (left.expr.span.merge right.expr.span)

/-- The first operand of a tree read in order. -/
def first : Climb → Expr
  | operand e => e
  | operation _ left _ => left.first

/-- The operators of a tree read in order, each with the operand behind it. -/
def row : Climb → List (BinaryOp × Expr)
  | operand _ => []
  | operation op left right => left.row ++ (op, right.first) :: right.row

/-- The operators of a tree in order. -/
def operators (t : Climb) : List BinaryOp := t.row.map Prod.fst

/--
At each node, the operators on the left bind at least as tightly as the operator of the node, and
those on the right bind more tightly.
-/
def Grouped : Climb → Prop
  | operand _ => True
  | operation op left right =>
    (∀ o ∈ left.operators, op.precedence ≤ o.precedence) ∧
      (∀ o ∈ right.operators, op.precedence < o.precedence) ∧ left.Grouped ∧ right.Grouped

theorem operators_operation {op : BinaryOp} {left right : Climb} :
    (operation op left right).operators = left.operators ++ op :: right.operators := by
  simp [operators, row]

/-- The operator of the root is the last one of those that bind most loosely. -/
private theorem split_unique {xs xs' ys ys' : List (BinaryOp × Expr)} {x x' : BinaryOp × Expr}
    (h : xs ++ x :: ys = xs' ++ x' :: ys')
    (hx : ∀ o ∈ xs.map Prod.fst, x.1.precedence ≤ o.precedence)
    (hy : ∀ o ∈ ys.map Prod.fst, x.1.precedence < o.precedence)
    (hx' : ∀ o ∈ xs'.map Prod.fst, x'.1.precedence ≤ o.precedence)
    (hy' : ∀ o ∈ ys'.map Prod.fst, x'.1.precedence < o.precedence) :
    xs = xs' ∧ x = x' ∧ ys = ys' := by
  rcases List.append_eq_append_iff.mp h with ⟨zs, hxs, hzs⟩ | ⟨zs, hxs, hzs⟩
  · cases zs with
    | nil => simp_all
    | cons z zs =>
      obtain ⟨rfl, rfl⟩ := List.cons.inj hzs
      have h1 := hx' x.1 (by simp [hxs])
      have h2 := hy x'.1 (by simp)
      omega
  · cases zs with
    | nil => simp_all
    | cons z zs =>
      obtain ⟨rfl, rfl⟩ := List.cons.inj hzs
      have h1 := hx x'.1 (by simp [hxs])
      have h2 := hy' x.1 (by simp)
      omega

/-- A grouped tree is known from its operands and operators in order. -/
theorem Grouped.eq {t t' : Climb} (ht : t.Grouped) (ht' : t'.Grouped) (hfirst : t.first = t'.first)
    (hrow : t.row = t'.row) : t = t' := by
  induction t generalizing t' with
  | operand e =>
    cases t' with
    | operand e' => exact congrArg operand hfirst
    | operation op' left' right' => simp [row] at hrow
  | operation op left right ihl ihr =>
    cases t' with
    | operand e' => simp [row] at hrow
    | operation op' left' right' =>
      obtain ⟨hl, hr, hleft, hright⟩ := ht
      obtain ⟨hl', hr', hleft', hright'⟩ := ht'
      obtain ⟨hlrow, hpair, hrrow⟩ := split_unique hrow hl hr hl' hr'
      obtain ⟨rfl, hrfirst⟩ := Prod.mk.inj hpair
      rw [ihl hleft hleft' hfirst hlrow, ihr hright hright' hrfirst hrrow]

end Climb

/-! ### Operands and operators as tokens -/

/-- Reads an expression without free operators. -/
def Parser.unary : Parser Expr := do
  let n ← remaining
  (Grammar.within n).unary

/-- The cursor in front of some tokens, with `k` function literals met before. -/
def Cursor.behindLiterals (k : Nat) (ts : List Token) : Cursor :=
  { Cursor.ofTokens ts with literals := k }

/-- Tokens that make up an expression without free operators. -/
structure IsOperand (ts : List Token) : Prop where
  /-- None of them is an end of a file. -/
  eof : ∀ t ∈ ts, t.kind ≠ .eof
  /-- An expression is read from all of them. -/
  reads : ∃ e d, Parser.unary (Cursor.ofTokens ts) = (.ok e, d) ∧ d.rest = []

/--
The expression that is read from all of some tokens behind `k` function literals, and the number of
literals behind it.
-/
def SpellsOperand (k : Nat) (ts : List Token) (e : Expr) (k' : Nat) : Prop :=
  ∃ d, Parser.unary (Cursor.behindLiterals k ts) = (.ok e, d) ∧ d.rest = [] ∧ d.literals = k'

/-- A binary operator with the operand behind it. -/
structure Link where
  /-- The token of the operator. -/
  operator : Token
  /-- The operator. -/
  op : BinaryOp
  /-- The token spells the operator. -/
  spelled : operator.kind.binaryOp? = some op
  /-- The tokens of the operand. -/
  operand : List Token
  /-- They make up an operand. -/
  isOperand : IsOperand operand

/-- The tokens of an operator and its operand. -/
def Link.tokens (x : Link) : List Token := x.operator :: x.operand

/-- The operators and the expressions that are read from some links, one behind the other. -/
inductive SpellsLinks : Nat → List Link → List (BinaryOp × Expr) → Nat → Prop
  | nil (k : Nat) : SpellsLinks k [] [] k
  | cons {k k' k'' : Nat} {x : Link} {xs : List Link} {e : Expr} {row : List (BinaryOp × Expr)} :
    SpellsOperand k x.operand e k' → SpellsLinks k' xs row k'' →
      SpellsLinks k (x :: xs) ((x.op, e) :: row) k''

theorem SpellsLinks.append {k k' k'' : Nat} {xs ys : List Link} {row row' : List (BinaryOp × Expr)}
    (h : SpellsLinks k xs row k') (h' : SpellsLinks k' ys row' k'') :
    SpellsLinks k (xs ++ ys) (row ++ row') k'' := by
  induction h with
  | nil k => exact h'
  | cons he _ ih => exact .cons he (ih h')

theorem SpellsLinks.operators {k k' : Nat} {xs : List Link} {row : List (BinaryOp × Expr)}
    (h : SpellsLinks k xs row k') : row.map Prod.fst = xs.map Link.op := by
  induction h with
  | nil k => rfl
  | cons _ _ ih => rw [List.map_cons, List.map_cons, ih]

theorem Cursor.rest_behindLiterals {ts : List Token} (h : ∀ t ∈ ts, t.kind ≠ .eof) (k : Nat) :
    (Cursor.behindLiterals k ts).rest = ts := by
  rw [Cursor.behindLiterals, Cursor.ofTokens]
  exact List.takeWhile_eq_self_iff.mpr fun t ht => by simpa using h t ht

namespace IsOperand

variable {ts w : List Token}

/-- How many function literals stand in front of an operand does not matter to reading it. -/
theorem exists_spells (h : IsOperand ts) (k : Nat) : ∃ e k', SpellsOperand k ts e k' := by
  obtain ⟨e, d, hok, hd⟩ := h.reads
  have hsize : ∀ k, (Cursor.behindLiterals k ts).rest.length ≤
      (Grammar.within (Cursor.ofTokens ts).rest.length).size :=
    fun k => Nat.le_of_eq (Grammar.size_within _).symm
  have hperforms := (Grammar.performs_within (Cursor.ofTokens ts).rest.length).unary
  have hkinds : (Cursor.behindLiterals k ts).kinds = (Cursor.ofTokens ts).kinds := rfl
  obtain ⟨e', d', hok', hd'⟩ :=
    hperforms.exists_ok hperforms trivial trivial (hsize 0) (hsize k) hkinds hok hd
  exact ⟨e', d'.literals, d', hok', hd', rfl⟩

theorem ne_nil (h : IsOperand ts) : ts ≠ [] := by
  rintro rfl
  obtain ⟨e, d, hok, -⟩ := h.reads
  simp [Parser.unary, Parser.remaining, Parser.look, Bind.bind, Parser.bind, Cursor.ofTokens,
    Grammar.within, Grammar.empty, Parser.fail] at hok

/-- An operand is read in front of every token that it does not go on with. -/
theorem reads_in_front (h : IsOperand ts) (hw : (nextOf w).EndsUnary) {n : Nat} {c : Cursor}
    (hc : c.rest = ts ++ w) (hn : c.rest.length ≤ n + 1) :
    ∃ e d, Parser.unaryStep (Grammar.within n) c = (.ok e, d) ∧ d.rest = w ∧
      SpellsOperand c.literals ts e d.literals := by
  obtain ⟨e, k, d, hok, hd, hk⟩ := h.exists_spells c.literals
  have hrest := Cursor.rest_behindLiterals h.eof c.literals
  have hprolongs : (Grammar.within ts.length).Prolongs w (Grammar.within (n + 1)) :=
    Grammar.prolongs_within (by rw [hc, List.length_append] at hn; exact hn)
  have hprolonged : (Cursor.behindLiterals c.literals ts).Prolonged w false c :=
    .of_rest (by rw [hc, hrest]) rfl
  have hunary : (Grammar.within ts.length).unary (Cursor.behindLiterals c.literals ts) =
      (.ok e, d) := by
    rw [← hok, Parser.unary, Parser.remaining]
    simp only [Parser.look, Bind.bind, Parser.bind, hrest]
  obtain ⟨d', hok', hd'⟩ := (hprolongs.unary false).goes hprolonged
    (by rw [hrest, Grammar.size_within]) hunary fun _ => hw
  refine ⟨e, d', hok', by rw [hd'.rest, hd, List.nil_append], d, hok, hd, hd'.literals.symm⟩

end IsOperand

/-! ### The loop -/

/-- The tokens of some links, one behind the other. -/
def Link.tokensAll (xs : List Link) : List Token := xs.flatMap Link.tokens

/-- Whether the operator of a link binds at least as tightly as a level. -/
def Link.binds (level : Nat) (x : Link) : Bool := level ≤ x.op.precedence

namespace Link

variable {level level' : Nat} {x : Link} {xs : List Link} {w : List Token}

@[simp] theorem tokensAll_nil : tokensAll [] = [] := rfl

@[simp] theorem tokensAll_cons : tokensAll (x :: xs) = x.operator :: (x.operand ++ tokensAll xs) :=
  rfl

theorem nextOf_tokensAll (hw : (nextOf w).EndsUnary) : (nextOf (tokensAll xs ++ w)).EndsUnary := by
  cases xs with
  | nil => exact hw
  | cons x xs => exact TokenKind.endsUnary_of_binaryOp? x.spelled

theorem tokensAll_append (xs ys : List Link) :
    tokensAll (xs ++ ys) = tokensAll xs ++ tokensAll ys := List.flatMap_append

theorem length_dropWhile_le (p : Link → Bool) :
    (tokensAll (xs.dropWhile p)).length ≤ (tokensAll xs).length := by
  have h := tokensAll_append (xs.takeWhile p) (xs.dropWhile p)
  rw [List.takeWhile_append_dropWhile] at h
  rw [h, List.length_append]
  exact Nat.le_add_left _ _

/-- Links are taken at a lower level after those that are taken at a higher one. -/
theorem takeWhile_binds (h : level ≤ level') : xs.takeWhile (binds level) =
    xs.takeWhile (binds level') ++ (xs.dropWhile (binds level')).takeWhile (binds level) := by
  induction xs with
  | nil => rfl
  | cons x xs ih =>
    by_cases hx : binds level' x = true
    · have hx' : binds level x = true := by
        simp only [binds, decide_eq_true_eq] at hx ⊢
        omega
      simp [hx, hx', ih]
    · simp [hx]

theorem dropWhile_binds (h : level ≤ level') :
    xs.dropWhile (binds level) = (xs.dropWhile (binds level')).dropWhile (binds level) := by
  induction xs with
  | nil => rfl
  | cons x xs ih =>
    by_cases hx : binds level' x = true
    · have hx' : binds level x = true := by
        simp only [binds, decide_eq_true_eq] at hx ⊢
        omega
      simp [hx, hx', ih]
    · simp [hx]

/-- The operators that are taken at the level above one bind more tightly. -/
theorem forall_op_takeWhile : ∀ o ∈ (xs.takeWhile (binds (level + 1))).map Link.op,
    level < o.precedence := by
  intro o ho
  obtain ⟨y, hy, rfl⟩ := List.mem_map.mp ho
  simpa [binds, Nat.succ_le_iff] using List.mem_takeWhile_imp hy

/-- The operator behind those that are taken at the level above one binds no more tightly. -/
theorem head?_dropWhile_binds : ∀ y ∈ (xs.dropWhile (binds (level + 1))).head?,
    y.op.precedence ≤ level := by
  intro y hy
  have h := List.head?_dropWhile_not (binds (level + 1)) xs
  rw [Option.mem_def.mp hy] at h
  simpa [binds, Nat.lt_succ_iff] using h

end Link

namespace Climb

/-- The next operator binds no more tightly than those of the tree in front of it. -/
def Precedes (t : Climb) (xs : List Link) : Prop :=
  ∀ x ∈ xs.head?, ∀ o ∈ t.operators, x.op.precedence ≤ o.precedence

end Climb

/-- No expression and no operator goes on with a token. -/
def TokenKind.EndsRow (k : TokenKind) : Prop := k.EndsUnary ∧ k.binaryOp? = none

/--
What a parser of operands at all levels yields: the operands and operators up to the first operator
that binds less tightly than the level, as a grouped tree.
-/
def ClimbsTo (operand : Nat → Parser Expr) (n : Nat) : Prop :=
  ∀ (level : Nat) {ts w : List Token} {xs : List Link} {c : Cursor}, IsOperand ts →
    (nextOf w).EndsRow → c.rest = ts ++ (Link.tokensAll xs ++ w) → c.rest.length ≤ n →
    ∃ (t : Climb) (d : Cursor) (k : Nat), operand level c = (.ok t.expr, d) ∧
      d.rest = Link.tokensAll (xs.dropWhile (Link.binds level)) ++ w ∧ t.Grouped ∧
      SpellsOperand c.literals ts t.first k ∧
      SpellsLinks k (xs.takeWhile (Link.binds level)) t.row d.literals

namespace Parser

variable {g : Grammar} {level j n : Nat} {w : List Token} {x : Link} {xs : List Link} {c : Cursor}

/-- A loop ends in front of an operator that binds less tightly, and behind the last operand. -/
theorem operations_stop (hw : (nextOf w).EndsRow) (hc : c.rest = Link.tokensAll xs ++ w)
    (hstop : ∀ x ∈ xs.head?, x.op.precedence < level) (e : Expr) :
    operations g level j e c = (.ok e, c) := by
  refine operations_of_ends fun op hop => ?_
  have hkind := c.headKind_kinds
  rw [Cursor.kinds, hc] at hkind
  cases xs with
  | nil =>
    have hnone : c.kind.binaryOp? = none := hkind ▸ hw.2
    rw [hnone] at hop
    cases hop
  | cons x xs =>
    have hsome : c.kind.binaryOp? = some x.op := hkind ▸ x.spelled
    obtain rfl := Option.some.inj (hsome.symm.trans hop)
    exact hstop x rfl

/-- A loop takes an operator that binds tightly enough, with its right operand. -/
theorem operations_take (hc : c.rest = Link.tokensAll (x :: xs) ++ w)
    (hlevel : level ≤ x.op.precedence) {e right : Expr} {d : Cursor}
    (hright : g.operand (x.op.precedence + 1) c.advance = (.ok right, d)) :
    operations g level (j + 1) e c =
      operations g level j (.binary x.op e right (e.span.merge right.span)) d := by
  have hkind : c.kind.binaryOp? = some x.op := by
    have hkind := c.headKind_kinds
    rw [Cursor.kinds, hc] at hkind
    exact hkind ▸ x.spelled
  simp only [operations, look, skip, Bind.bind, Parser.bind, hkind, Nat.not_lt.mpr hlevel,
    ↓reduceIte, hright]

/--
Behind a tree that the next operator does not bind into, a loop takes the operators of its level,
each with the tree that its right operand climbs to.
-/
theorem operations_climbs (level : Nat) (hg : ClimbsTo g.operand n) (hj : j ≤ n)
    (hw : (nextOf w).EndsRow) {left : Climb} (hleft : left.Grouped) (hprec : left.Precedes xs)
    (hc : c.rest = Link.tokensAll xs ++ w) (hlength : c.rest.length ≤ j) :
    ∃ (t : Climb) (d : Cursor) (row : List (BinaryOp × Expr)),
      operations g level j left.expr c = (.ok t.expr, d) ∧
      d.rest = Link.tokensAll (xs.dropWhile (Link.binds level)) ++ w ∧ t.Grouped ∧
      t.first = left.first ∧ t.row = left.row ++ row ∧
      SpellsLinks c.literals (xs.takeWhile (Link.binds level)) row d.literals := by
  induction j generalizing xs left c with
  | zero =>
    obtain ⟨rfl, -⟩ : xs = [] ∧ w = [] := by
      have hnil := List.length_eq_zero_iff.mp (Nat.le_zero.mp hlength)
      rw [hc, List.append_eq_nil_iff] at hnil
      refine ⟨?_, hnil.2⟩
      cases xs with
      | nil => rfl
      | cons x xs => simp at hnil
    exact ⟨left, c, [], rfl, hc, hleft, rfl, (List.append_nil _).symm, .nil _⟩
  | succ j ih =>
    cases xs with
    | nil =>
      exact ⟨left, c, [], operations_stop hw hc nofun _, hc, hleft, rfl, (List.append_nil _).symm,
        .nil _⟩
    | cons x xs =>
      by_cases hlevel : level ≤ x.op.precedence
      · have hrest : c.advance.rest = x.operand ++ (Link.tokensAll xs ++ w) := by
          simp [Cursor.advance, hc]
        have hliterals : c.advance.literals = c.literals := by simp [Cursor.advance, hc]
        have hadvance : c.advance.rest.length + 1 = c.rest.length := by simp [Cursor.advance, hc]
        obtain ⟨right, d, k, hright, hd, hgrouped, hfirst, hrow⟩ :=
          hg (x.op.precedence + 1) x.isOperand hw hrest (by omega)
        have htight : ∀ o ∈ right.operators, x.op.precedence < o.precedence := by
          rw [Climb.operators, hrow.operators]
          exact Link.forall_op_takeWhile
        -- Whatever follows the right operand binds no more tightly than the operator.
        have hnext : (Climb.operation x.op left right).Precedes
            (xs.dropWhile (Link.binds (x.op.precedence + 1))) := by
          intro y hy o ho
          have hloose := Link.head?_dropWhile_binds y hy
          rw [Climb.operators_operation, List.mem_append, List.mem_cons] at ho
          rcases ho with ho | rfl | ho
          · have := hprec x rfl o ho
            omega
          · omega
          · have := htight o ho
            omega
        have hnode : (Climb.operation x.op left right).Grouped :=
          ⟨hprec x rfl, htight, hleft, hgrouped⟩
        have hbound : d.rest.length ≤ j := by
          have hle : (Link.tokensAll (xs.dropWhile (Link.binds (x.op.precedence + 1)))).length ≤
              (Link.tokensAll xs).length := Link.length_dropWhile_le _
          rw [hrest, List.length_append, List.length_append] at hadvance
          rw [hd, List.length_append]
          omega
        obtain ⟨t, d', row, hok, hd', ht, htfirst, htrow, hspells⟩ :=
          ih (by omega) hnode hnext hd hbound
        have hbinds : Link.binds level x = true := by simpa [Link.binds] using hlevel
        have hle : level ≤ x.op.precedence + 1 := by omega
        refine ⟨t, d', (x.op, right.first) :: (right.row ++ row), ?_, ?_, ht, htfirst, ?_, ?_⟩
        · rw [operations_take hc hlevel hright]
          exact hok
        · rw [hd', List.dropWhile_cons_of_pos hbinds, ← Link.dropWhile_binds hle]
        · simp [htrow, Climb.row]
        · rw [List.takeWhile_cons_of_pos hbinds, Link.takeWhile_binds hle]
          exact .cons (hliterals ▸ hfirst) (hrow.append hspells)
      · have hstop : x.op.precedence < level := Nat.lt_of_not_le hlevel
        have hbinds : Link.binds level x = false := by simpa [Link.binds] using hstop
        refine ⟨left, c, [], operations_stop hw hc (by simpa using hstop) _, ?_, hleft, rfl,
          (List.append_nil _).symm, ?_⟩
        · simpa [hbinds] using hc
        · rw [List.takeWhile_cons_of_neg (by simp [hbinds])]
          exact .nil _

end Parser

/-- The parser of operands climbs at every depth of the grammar. -/
theorem Grammar.climbsTo_operand (n : Nat) : ClimbsTo (Grammar.within n).operand n := by
  induction n with
  | zero =>
    intro level ts w xs c hts _ hc hlength
    have hnil := List.length_eq_zero_iff.mp (Nat.le_zero.mp hlength)
    rw [hc, List.append_eq_nil_iff] at hnil
    exact absurd hnil.1 hts.ne_nil
  | succ n ih =>
    intro level ts w xs c hts hw hc hlength
    obtain ⟨e, d, hunary, hd, hspells⟩ :=
      hts.reads_in_front (Link.nextOf_tokensAll hw.1) hc hlength
    have hne := List.length_pos_iff.mpr hts.ne_nil
    have hbound : d.rest.length ≤ n := by
      rw [hc, List.length_append] at hlength
      rw [hd]
      omega
    obtain ⟨t, d', row, hok, hd', ht, hfirst, hrow, hspells'⟩ :=
      Parser.operations_climbs level ih (Nat.le_refl n) hw
        (show (Climb.operand e).Grouped from trivial) nofun hd hbound
    refine ⟨t, d', d.literals, ?_, hd', ht, by rwa [hfirst], by rwa [hrow]⟩
    refine (Parser.bind_of_ok hunary).trans ?_
    rwa [Grammar.size_within]

/--
Operands with binary operators between them are read as the one grouped tree of these operands and
operators, up to a token that no expression and no operator goes on with.
-/
theorem expression_grouped {ts w : List Token} {xs : List Link} {c : Cursor} (hts : IsOperand ts)
    (hw : (nextOf w).EndsRow) (hc : c.rest = ts ++ (Link.tokensAll xs ++ w)) :
    ∃ (t : Climb) (d : Cursor) (k : Nat), Parser.expression c = (.ok t.expr, d) ∧ d.rest = w ∧
      SpellsOperand c.literals ts t.first k ∧ SpellsLinks k xs t.row d.literals ∧ t.Grouped ∧
      ∀ t' : Climb, t'.Grouped → t'.first = t.first → t'.row = t.row → t' = t := by
  obtain ⟨t, d, k, hok, hd, ht, hfirst, hrow⟩ :=
    Grammar.climbsTo_operand c.rest.length 0 hts hw hc (Nat.le_refl _)
  have hall : ∀ x ∈ xs, Link.binds 0 x = true := fun x _ => by simp [Link.binds]
  rw [List.dropWhile_eq_nil_iff.mpr hall, Link.tokensAll_nil, List.nil_append] at hd
  rw [List.takeWhile_eq_self_iff.mpr hall] at hrow
  exact ⟨t, d, k, hok, hd, hfirst, hrow, ht, fun t' ht' hfirst' hrow' => ht'.eq ht hfirst' hrow'⟩

/-! ### The row `x - (a + 1) * y - 2` -/

theorem isOperand_name (x : String) (span : Span) : IsOperand [⟨.ident x, span⟩] :=
  ⟨by simp, _, _, rfl, rfl⟩

/-- The links behind `x`; the sum is one operand. -/
def differenceLinks : List Link :=
  [⟨⟨.punct .minus, ⟨2, 3, 0⟩⟩, .sub, rfl, [⟨.punct .lparen, ⟨4, 5, 0⟩⟩, ⟨.ident "a", ⟨5, 6, 0⟩⟩,
      ⟨.punct .plus, ⟨7, 8, 0⟩⟩, ⟨.int 1, ⟨9, 10, 0⟩⟩, ⟨.punct .rparen, ⟨10, 11, 0⟩⟩],
      ⟨by simp, _, _, rfl, rfl⟩⟩,
    ⟨⟨.punct .star, ⟨12, 13, 0⟩⟩, .mul, rfl, [⟨.ident "y", ⟨14, 15, 0⟩⟩], isOperand_name _ _⟩,
    ⟨⟨.punct .minus, ⟨16, 17, 0⟩⟩, .sub, rfl, [⟨.int 2, ⟨18, 19, 0⟩⟩],
      ⟨by simp, _, _, rfl, rfl⟩⟩]

/-- The difference is taken of the difference in front of it, and the product of the sum. -/
theorem expression_grouped_difference :
    IsOperand [⟨.ident "x", ⟨0, 1, 0⟩⟩] ∧ (nextOf [⟨.punct .semicolon, ⟨19, 20, 0⟩⟩]).EndsRow ∧
    ∃ (t : Climb) (d : Cursor) (k : Nat),
      Parser.expression (Cursor.ofTokens (⟨.ident "x", ⟨0, 1, 0⟩⟩ ::
        (Link.tokensAll differenceLinks ++ [⟨.punct .semicolon, ⟨19, 20, 0⟩⟩]))) =
          (.ok t.expr, d) ∧
      d.rest = [⟨.punct .semicolon, ⟨19, 20, 0⟩⟩] ∧
      SpellsOperand 0 [⟨.ident "x", ⟨0, 1, 0⟩⟩] t.first k ∧
      SpellsLinks k differenceLinks t.row d.literals ∧ t.Grouped ∧
      ∀ t' : Climb, t'.Grouped → t'.first = t.first → t'.row = t.row → t' = t := by
  have hx := isOperand_name "x" ⟨0, 1, 0⟩
  have hw : (nextOf [⟨.punct .semicolon, ⟨19, 20, 0⟩⟩]).EndsRow := ⟨by decide, rfl⟩
  exact ⟨hx, hw, @expression_grouped _ _ differenceLinks _ hx hw rfl⟩

end Sable
