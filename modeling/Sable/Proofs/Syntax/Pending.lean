import Sable.Proofs.Syntax.Rereading
import Mathlib.Logic.Relation

/-!
# What is still to be read

At every moment of reading a program, what is still wanted is a stack of parts of a program. The
next token alone tells what becomes of the part on top: the token is that part and is read, or the
part is replaced by the parts it consists of, or the token cannot stand here. This gives a machine
that reads a program with one token of foresight and never goes back.

What the machine does with the tokens it reads depends on nothing behind them and the next one. And
as long as no part on the stack is followed by a token that would prolong it, every stack can be
emptied by reading the shortest text of each part.
-/

namespace Sable

/-- A part of a program that is still to be read. -/
inductive Pending
  /-- A token of a given kind. -/
  | token (k : TokenKind)
  /-- A name. -/
  | name
  /-- The path of an import. -/
  | path
  /-- A token that may be missing. -/
  | mark (k : TokenKind)
  /-- A part behind a token, which may both be missing. -/
  | behind (k : TokenKind) (part : Pending)
  /-- Any number of parts before a closing token; a comma may follow each one. -/
  | list (close : TokenKind) (part : Pending)
  /-- What follows a part of such a list. -/
  | listTail (close : TokenKind) (part : Pending)
  /-- Further parts with a comma in front of each. -/
  | further (part : Pending)
  /-- A type. -/
  | type
  /-- A field of a struct type. -/
  | field
  /-- A parameter. -/
  | param
  /-- A declared variable. -/
  | binder
  /-- The parameters, the result type and the body of a function. -/
  | function
  /-- Statements between braces. -/
  | block
  /-- Statements and stray semicolons before a closing token. -/
  | statements (close : TokenKind)
  /-- An expression whose free operators bind at least as tightly as a level. -/
  | operand (level : Nat)
  /-- The operators behind a left operand, with their right operands. -/
  | operations (level : Nat)
  /-- An expression with the operators in front of it. -/
  | unary
  /-- An expression that no operator, call, field or index belongs to. -/
  | atom
  /-- The calls, fields and indices behind an expression. -/
  | applications
  /-- Expressions with commas between them and the closing token behind them. -/
  | arguments (close : TokenKind)
  /-- A statement with the semicolon behind it. -/
  | statement
  /-- A statement without the semicolon behind it. -/
  | body
  /-- What follows the word `fn` at the start of a statement. -/
  | declared
  /-- The values of a declaration. -/
  | initial
  /-- A condition with all that follows its `else`. -/
  | conditional
  /-- What follows the word `else`. -/
  | otherwise
  /-- The value of a `return`. -/
  | value
  /-- What follows the first expression of a statement. -/
  | assigned

namespace Pending

/-- What becomes of a part in front of a token. -/
inductive Action
  /-- The token is the part, and is read. -/
  | shift
  /-- The part consists of others. -/
  | expand (parts : List Pending)
  /-- The token cannot stand here. -/
  | stop

/-- What becomes of a part in front of a token of a given kind. -/
def act : Pending → TokenKind → Action
  | .token k, k' => if k' = k then .shift else .stop
  | .name, k' =>
    match k' with
    | .ident _ => .shift
    | _ => .stop
  | .path, k' =>
    match k' with
    | .string _ => .shift
    | _ => .stop
  | .mark k, k' => .expand (if k' = k then [.token k] else [])
  | .behind k part, k' => .expand (if k' = k then [.token k, part] else [])
  | .list close part, k' =>
    .expand (if k' = close ∨ k' = .eof then [] else [part, .listTail close part])
  | .listTail close part, k' =>
    .expand (if k' = .punct .comma then [.token (.punct .comma), .list close part] else [])
  | .further part, k' =>
    .expand (if k' = .punct .comma then [.token (.punct .comma), part, .further part] else [])
  | .type, k' =>
    match k' with
    | .punct .lbracket =>
      .expand [.token (.punct .lbracket), .token (.punct .rbracket), .type]
    | .keyword .structKw =>
      .expand [.token (.keyword .structKw), .token (.punct .lbrace), .list (.punct .rbrace) .field,
        .token (.punct .rbrace)]
    | .keyword .fnKw =>
      .expand [.token (.keyword .fnKw), .token (.punct .lparen), .list (.punct .rparen) .type,
        .token (.punct .rparen), .behind (.punct .arrow) .type]
    | .ident _ => .expand [.name, .behind (.punct .colonColon) .name]
    | _ => .stop
  | .field, _ => .expand [.mark (.punct .dot), .name, .token (.punct .colon), .type]
  | .param, _ => .expand [.name, .token (.punct .colon), .type]
  | .binder, _ => .expand [.name, .behind (.punct .colon) .type]
  | .function, _ =>
    .expand [.token (.punct .lparen), .list (.punct .rparen) .param, .token (.punct .rparen),
      .behind (.punct .arrow) .type, .block]
  | .block, _ =>
    .expand [.token (.punct .lbrace), .statements (.punct .rbrace), .token (.punct .rbrace)]
  | .statements close, k' =>
    .expand (if k' = close ∨ k' = .eof then []
      else if k' = .punct .semicolon then [.token (.punct .semicolon), .statements close]
      else [.statement, .statements close])
  | .operand level, _ => .expand [.unary, .operations level]
  | .operations level, k' =>
    .expand <|
      match k'.binaryOp? with
      | some op =>
        if op.precedence < level then []
        else [.token k', .operand (op.precedence + 1), .operations level]
      | none => []
  | .unary, k' =>
    .expand <|
      match Parser.unaryOp? k' with
      | some _ => [.token k', .unary]
      | none => [.atom, .applications]
  | .atom, k' =>
    match k' with
    | .int _ | .float _ | .string _ | .keyword .trueKw | .keyword .falseKw => .shift
    | .ident _ => .expand [.name, .behind (.punct .colonColon) .name]
    | .punct .lparen =>
      .expand [.token (.punct .lparen), .operand 0, .token (.punct .rparen)]
    | .punct .lbracket => .expand [.token (.punct .lbracket), .arguments (.punct .rbracket)]
    | .keyword .fnKw => .expand [.token (.keyword .fnKw), .function]
    | _ => .stop
  | .applications, k' =>
    .expand <|
      match k' with
      | .punct .lparen =>
        [.token (.punct .lparen), .arguments (.punct .rparen), .applications]
      | .punct .dot => [.token (.punct .dot), .name, .applications]
      | .punct .lbracket =>
        [.token (.punct .lbracket), .operand 0, .token (.punct .rbracket), .applications]
      | _ => []
  | .arguments close, k' =>
    .expand (if k' = close then [.token close]
      else [.operand 0, .further (.operand 0), .token close])
  | .statement, _ => .expand [.body, .mark (.punct .semicolon)]
  | .body, k' =>
    .expand <|
      match k' with
      | .keyword .importKw => [.token (.keyword .importKw), .path, .behind (.keyword .asKw) .name]
      | .keyword .fnKw => [.token (.keyword .fnKw), .declared]
      | .keyword .letKw => [.token (.keyword .letKw), .binder, .further .binder, .initial]
      | .keyword .constKw => [.token (.keyword .constKw), .binder, .further .binder, .initial]
      | .keyword .typeKw => [.token (.keyword .typeKw), .name, .type]
      | .keyword .ifKw => [.conditional]
      | .keyword .returnKw => [.token (.keyword .returnKw), .value]
      | .punct .lbrace => [.block]
      | _ => [.operand 0, .assigned]
  | .declared, k' =>
    .expand (if k' = .punct .lparen then
        [.token (.punct .lparen), .param, .token (.punct .rparen), .name, .function]
      else [.name, .function])
  | .initial, k' =>
    .expand (if k' = .punct .eq then
        [.token (.punct .eq), .operand 0, .further (.operand 0)]
      else if k' = .punct .colonEq then
        [.token (.punct .colonEq), .operand 0, .further (.operand 0)]
      else [])
  | .conditional, _ =>
    .expand [.token (.keyword .ifKw), .operand 0, .block, .behind (.keyword .elseKw) .otherwise]
  | .otherwise, k' => .expand (if k' = .keyword .ifKw then [.conditional] else [.block])
  | .value, k' => .expand (if Parser.endsReturn k' then [] else [.operand 0])
  | .assigned, k' =>
    .expand (if k' = .punct .comma then
        [.token (.punct .comma), .operand 0, .further (.operand 0), .token (.punct .eq),
          .operand 0, .further (.operand 0)]
      else if k' = .punct .eq then
        [.token (.punct .eq), .operand 0, .further (.operand 0)]
      else [])

/-! ### The machine -/

/-- The parts still to be read, the first one on top, and the kinds of the tokens to come. -/
abbrev Config : Type := List Pending × List TokenKind

/-- The next step of the machine, which never reads past the end of the tokens. -/
def next : Config → Option Config
  | ([], _) => none
  | (part :: stack, ks) =>
    match part.act (headKind ks), ks with
    | .shift, _ :: ks => some (stack, ks)
    | .shift, [] => none
    | .expand parts, ks => some (parts ++ stack, ks)
    | .stop, _ => none

/-- Any number of steps of the machine. -/
def Steps : Config → Config → Prop := Relation.ReflTransGen fun x y => next x = some y

variable {X : Pending} {A B S S' : List Pending} {k : TokenKind} {ks ks' u w w' : List TokenKind}
  {x y z : Config}

theorem Steps.refl : Steps x x := Relation.ReflTransGen.refl

theorem Steps.trans (h : Steps x y) (h' : Steps y z) : Steps x z := Relation.ReflTransGen.trans h h'

theorem steps_expand (hact : X.act (headKind ks) = .expand A) (h : Steps (A ++ S, ks) y) :
    Steps (X :: S, ks) y := by
  refine .head ?_ h
  cases ks <;> simp [next, hact]

theorem steps_shift (hact : X.act k = .shift) (h : Steps (S, ks) y) :
    Steps (X :: S, k :: ks) y := by
  refine .head ?_ h
  have hk : headKind (k :: ks) = k := rfl
  simp [next, hk, hact]

/-- A step reads the next token or leaves all tokens. -/
theorem next_cases (h : next x = some y) :
    (∃ X S A, x.1 = X :: S ∧ X.act (headKind x.2) = .expand A ∧ y = (A ++ S, x.2)) ∨
    (∃ X S k, x.1 = X :: S ∧ X.act k = .shift ∧ x.2 = k :: y.2 ∧ y.1 = S) := by
  obtain ⟨_ | ⟨X, S⟩, ks⟩ := x
  · simp [next] at h
  · cases hact : X.act (headKind ks) with
    | stop => cases ks <;> simp [next, hact] at h
    | expand A =>
      have hy : y = (A ++ S, ks) := by
        cases ks <;> simpa [next, hact] using h.symm
      exact .inl ⟨X, S, A, rfl, hact, hy⟩
    | shift =>
      cases ks with
      | nil => simp [next, hact] at h
      | cons k ks =>
        have hy : y = (S, ks) := by simpa [next, hact] using h.symm
        subst hy
        exact .inr ⟨X, S, k, rfl, hact, rfl, rfl⟩

/-- A part in front of a token that cannot stand there ends the run. -/
theorem next_of_stop (h : X.act (headKind ks) = .stop) : next (X :: S, ks) = none := by
  cases ks <;> simp [next, h]

/-- A run ends in one way only. -/
theorem Steps.end_unique (hy : Steps x y) (hz : Steps x z) (hy' : next y = none)
    (hz' : next z = none) : y = z := by
  have stays : ∀ {a b : Config}, next a = none → Steps a b → a = b := by
    intro a b ha hab
    rcases Relation.ReflTransGen.cases_head hab with h | ⟨c, hc, -⟩
    · exact h
    · simp [ha] at hc
  have hunique : Relator.RightUnique fun x y : Config => next x = some y := by
    intro a b c hb hc
    exact Option.some.inj (hb.symm.trans hc)
  rcases Relation.ReflTransGen.total_of_right_unique hunique hy hz with h | h
  · exact stays hy' h
  · exact (stays hz' h).symm

/-! ### What a run depends on -/

theorem Steps.suffix (h : Steps x y) : y.2 <:+ x.2 := by
  induction h with
  | refl => exact List.suffix_refl _
  | tail _ hstep ih =>
    rcases next_cases hstep with ⟨X, S, A, -, -, rfl⟩ | ⟨X, S, k, -, -, hks, -⟩
    · exact ih
    · exact ((List.suffix_cons k _).trans (hks ▸ List.suffix_refl _)).trans ih

/-- A run that reads no token depends on the next one only. -/
theorem Steps.of_headKind (h : Steps (S, w) (S', w)) (hhead : headKind w = headKind w') :
    Steps (S, w') (S', w') := by
  have key : ∀ x : Config, Steps x (S', w) → x.2 = w → Steps (x.1, w') (S', w') := by
    intro x hx
    induction hx using Relation.ReflTransGen.head_induction_on with
    | refl => exact fun _ => Steps.refl
    | head hstep hrest ih =>
      intro hw
      rcases next_cases hstep with ⟨X, S, A, hX, hact, rfl⟩ | ⟨X, S, k, -, -, hks, -⟩
      · rw [hX]
        exact steps_expand (by rwa [← hhead, ← hw]) (ih hw)
      · have hlength := (Steps.suffix hrest).length_le
        rw [← hw, hks, List.length_cons] at hlength
        exact absurd hlength (by simp)
  exact key _ h rfl

/--
A run that reads some tokens passes a stack that reading these tokens alone leads to, whatever
follows; from there it depends on the next token only.
-/
theorem Steps.split (h : Steps (S, u ++ w) (S', w)) :
    ∃ T, (∀ w', Steps (S, u ++ w') (T, w')) ∧
      ∀ w', headKind w = headKind w' → Steps (T, w') (S', w') := by
  have key : ∀ x : Config, Steps x (S', w) → ∀ u, x.2 = u ++ w →
      ∃ T, (∀ w', Steps (x.1, u ++ w') (T, w')) ∧
        ∀ w', headKind w = headKind w' → Steps (T, w') (S', w') := by
    intro x hx
    induction hx using Relation.ReflTransGen.head_induction_on with
    | refl =>
      intro u hu
      obtain rfl : u = [] := by simpa using hu
      exact ⟨S', fun _ => Steps.refl, fun _ _ => Steps.refl⟩
    | @head x y hstep hrest ih =>
      intro u hu
      cases u with
      | nil =>
        -- no token is left to be read, so the stack on the way is the present one
        refine ⟨x.1, fun _ => Steps.refl, fun w' hw' => ?_⟩
        obtain ⟨S₀, w₀⟩ := x
        obtain rfl : w₀ = w := hu
        exact Steps.of_headKind (Relation.ReflTransGen.head hstep hrest) hw'
      | cons k u =>
        rcases next_cases hstep with ⟨X, S, A, hX, hact, rfl⟩ | ⟨X, S, k', hX, hact, hks, hS⟩
        · obtain ⟨T, hT, hT'⟩ := ih (k :: u) hu
          rw [hu] at hact
          rw [hX]
          exact ⟨T, fun w' => steps_expand hact (hT w'), hT'⟩
        · rw [hu, List.cons_append, List.cons.injEq] at hks
          obtain ⟨rfl, hy⟩ := hks
          obtain ⟨T, hT, hT'⟩ := ih u hy.symm
          rw [hX]
          exact ⟨T, fun w' => steps_shift hact (hS ▸ hT w'), hT'⟩
  exact key _ h u rfl

/-! ### The shortest text -/

/-- The kinds of the tokens of the shortest text of a part. -/
def filler : Pending → List TokenKind
  | .token k => [k]
  | .name | .type | .binder => [.ident "x"]
  | .path => [.string ""]
  | .field | .param => [.ident "x", .punct .colon, .ident "x"]
  | .function => [.punct .lparen, .punct .rparen, .punct .lbrace, .punct .rbrace]
  | .block | .statement | .body | .otherwise => [.punct .lbrace, .punct .rbrace]
  | .operand _ | .unary | .atom => [.int 0]
  | .arguments close => [close]
  | .declared => [.ident "x", .punct .lparen, .punct .rparen, .punct .lbrace, .punct .rbrace]
  | .conditional => [.keyword .ifKw, .int 0, .punct .lbrace, .punct .rbrace]
  | .mark _ | .behind _ _ | .list _ _ | .listTail _ _ | .further _ | .statements _
  | .operations _ | .applications | .initial | .value | .assigned => []

/-- Whether no type and no expression goes on with a token. -/
def separates : TokenKind → Bool
  | .punct .rparen | .punct .rbracket | .punct .rbrace | .punct .lbrace | .punct .eq | .eof => true
  | _ => false

/-- Whether no statement goes on with a token. -/
def endsStatements : TokenKind → Bool
  | .punct .rbrace | .eof => true
  | _ => false

/-- What may follow a part so that its shortest text is not prolonged. -/
def Admits : Pending → TokenKind → Prop
  | .token k, _ => k ≠ .eof
  | .name, _ | .path, _ | .function, _ | .block, _ => True
  | .mark k, k' => k ≠ .eof ∧ k' ≠ k
  | .behind k part, k' => k ≠ .eof ∧ k' ≠ k ∧ part.Admits k'
  | .list close part, k' | .listTail close part, k' =>
    k' = close ∧ k' ≠ .punct .comma ∧ part.Admits k'
  | .further part, k' => k' ≠ .punct .comma ∧ part.Admits k'
  | .type, k' | .field, k' | .param, k' | .binder, k' => separates k'
  | .operand _, k' | .operations _, k' | .unary, k' | .atom, k' | .applications, k' => separates k'
  | .arguments close, _ => close ≠ .eof ∧ separates close
  | .statements close, k' => k' = close ∧ endsStatements k'
  | .statement, k' | .body, k' | .declared, k' | .initial, k' | .conditional, k' | .otherwise, k'
  | .value, k' | .assigned, k' => endsStatements k'

/-- The shortest text of the parts on a stack. -/
def fillers (stack : List Pending) : List TokenKind := stack.flatMap filler

/-- The first token of the shortest text of some parts in front of another token. -/
def lead (stack : List Pending) (k : TokenKind) : TokenKind := (fillers stack).head?.getD k

/-- Every part of a stack is followed by a token that it admits, and the last one by `k`. -/
def Fits : List Pending → TokenKind → Prop
  | [], _ => True
  | part :: stack, k => part.Admits (lead stack k) ∧ Fits stack k

theorem lead_append : lead (A ++ B) k = lead A (lead B k) := by
  simp only [lead, fillers, List.flatMap_append]
  cases A.flatMap filler <;> rfl

theorem fits_append : Fits (A ++ B) k ↔ Fits A (lead B k) ∧ Fits B k := by
  induction A with
  | nil => simp [Fits]
  | cons X A ih => rw [List.cons_append, Fits, Fits, ih, lead_append, and_assoc]

/-- A token that no type or expression goes on with is one of these. -/
theorem separates_iff : separates k ↔ k = .punct .rparen ∨ k = .punct .rbracket ∨
    k = .punct .rbrace ∨ k = .punct .lbrace ∨ k = .punct .eq ∨ k = .eof := by
  constructor
  · unfold separates
    split <;> simp
  · rintro (rfl | rfl | rfl | rfl | rfl | rfl) <;> rfl

theorem endsStatements_iff : endsStatements k ↔ k = .punct .rbrace ∨ k = .eof := by
  constructor
  · unfold endsStatements
    split <;> simp
  · rintro (rfl | rfl) <;> rfl

/-- The parts of a part fit together wherever the part does. -/
theorem fits_of_act {k' : TokenKind} (hact : X.act k' = .expand A) (h : X.Admits k) :
    Fits A k := by
  -- one case for each row of the table that expands a part
  cases X
  all_goals
    simp only [act] at hact
    repeat' split at hact
  all_goals cases hact
  -- in each row, every part admits the first token of the texts behind it
  all_goals simp only [Fits, Admits, lead, fillers, List.flatMap_cons, List.flatMap_nil, filler,
    separates_iff, endsStatements_iff] at h ⊢
  all_goals grind [TokenKind.binaryOp?, Parser.unaryOp?]

/-- The shortest text of a part is read in front of every token that the part admits. -/
def ReadsFiller (X : Pending) : Prop :=
  ∀ S ks, X.Admits (headKind ks) → Steps (X :: S, X.filler ++ ks) (S, ks)

theorem headKind_fillers_append : headKind (fillers A ++ ks) = lead A (headKind ks) := by
  rw [headKind, lead]
  cases fillers A <;> rfl

/-- The shortest texts of parts that fit together are read one behind the other. -/
theorem steps_fillers_append (hA : ∀ X ∈ A, ReadsFiller X) (hfits : Fits A (headKind ks)) :
    Steps (A ++ S, fillers A ++ ks) (S, ks) := by
  induction A with
  | nil => exact Steps.refl
  | cons X A ih =>
    obtain ⟨hX, hA⟩ := List.forall_mem_cons.mp hA
    obtain ⟨hadmits, hfits⟩ := hfits
    rw [← headKind_fillers_append] at hadmits
    have hrun := hX (A ++ S) (fillers A ++ ks) hadmits
    rw [← List.append_assoc] at hrun
    exact hrun.trans (ih hA hfits)

theorem readsFiller_of_shift (hX : X.filler = [k]) (hact : X.act k = .shift) : ReadsFiller X := by
  intro S ks _
  rw [hX]
  exact steps_shift hact Steps.refl

/-- A part that may be missing is left out in front of a token that it admits. -/
theorem readsFiller_of_nil (hX : X.filler = []) : ReadsFiller X := by
  intro S ks hadmits
  have hact : X.act (headKind ks) = .expand [] := by
    cases X
    all_goals simp only [filler, reduceCtorEq] at hX
    all_goals simp only [Admits, separates_iff, endsStatements_iff] at hadmits
    all_goals grind [act, TokenKind.binaryOp?, Punct.binaryOp?, Parser.endsReturn]
  rw [hX]
  exact steps_expand hact Steps.refl

/-- The first token of the text of a part tells that it consists of parts with the same text. -/
theorem readsFiller_of_act (hX : X.filler = k :: u) (hact : X.act k = .expand A)
    (htext : fillers A = X.filler) (hA : ∀ Y ∈ A, Y.filler ≠ [] → ReadsFiller Y) :
    ReadsFiller X := by
  intro S ks hadmits
  have hhead : headKind (X.filler ++ ks) = k := by rw [hX]; rfl
  refine steps_expand (by rwa [hhead]) ?_
  rw [← htext]
  refine steps_fillers_append (fun Y hY => ?_) (fits_of_act hact hadmits)
  by_cases hfiller : Y.filler = []
  · exact readsFiller_of_nil hfiller
  · exact hA Y hY hfiller

theorem readsFiller_token (k : TokenKind) : ReadsFiller (.token k) :=
  readsFiller_of_shift rfl (by simp [act])

theorem readsFiller_name : ReadsFiller .name := readsFiller_of_shift rfl rfl

theorem readsFiller_type : ReadsFiller .type :=
  readsFiller_of_act rfl rfl rfl (by simp [filler, readsFiller_name])

theorem readsFiller_unary : ReadsFiller .unary := by
  have hatom : ReadsFiller .atom := readsFiller_of_shift rfl rfl
  exact readsFiller_of_act rfl rfl rfl (by simp [filler, Parser.unaryOp?, hatom])

theorem readsFiller_operand (level : Nat) : ReadsFiller (.operand level) :=
  readsFiller_of_act rfl rfl rfl (by simp [filler, readsFiller_unary])

theorem readsFiller_block : ReadsFiller .block :=
  readsFiller_of_act rfl rfl rfl (by simp [filler, readsFiller_token])

theorem readsFiller_function : ReadsFiller .function :=
  readsFiller_of_act rfl rfl rfl (by simp [filler, readsFiller_token, readsFiller_block])

theorem readsFiller_body : ReadsFiller .body :=
  readsFiller_of_act rfl rfl rfl (by simp [readsFiller_block])

theorem readsFiller (X : Pending) : ReadsFiller X := by
  cases X with
  | token k => exact readsFiller_token k
  | name => exact readsFiller_name
  | path => exact readsFiller_of_shift rfl rfl
  | type => exact readsFiller_type
  | field =>
    exact readsFiller_of_act rfl rfl rfl
      (by simp [filler, readsFiller_name, readsFiller_token, readsFiller_type])
  | param =>
    exact readsFiller_of_act rfl rfl rfl
      (by simp [readsFiller_name, readsFiller_token, readsFiller_type])
  | binder => exact readsFiller_of_act rfl rfl rfl (by simp [filler, readsFiller_name])
  | function => exact readsFiller_function
  | block => exact readsFiller_block
  | operand level => exact readsFiller_operand level
  | unary => exact readsFiller_unary
  | atom => exact readsFiller_of_shift rfl rfl
  | arguments close =>
    have hact : act (.arguments close) close = .expand [.token close] := by simp [act]
    exact readsFiller_of_act rfl hact rfl (by simp [readsFiller_token])
  | statement => exact readsFiller_of_act rfl rfl rfl (by simp [filler, readsFiller_body])
  | body => exact readsFiller_body
  | declared =>
    exact readsFiller_of_act rfl rfl rfl (by simp [readsFiller_name, readsFiller_function])
  | conditional =>
    exact readsFiller_of_act rfl rfl rfl
      (by simp [filler, readsFiller_token, readsFiller_operand, readsFiller_block])
  | otherwise => exact readsFiller_of_act rfl rfl rfl (by simp [readsFiller_block])
  | _ => exact readsFiller_of_nil rfl

/-- The parts on a stack that fit together are read from their shortest texts. -/
theorem steps_fillers (h : Fits S .eof) : Steps (S, fillers S) ([], []) := by
  have hrun : Steps (S ++ [], fillers S ++ []) ([], []) :=
    steps_fillers_append (fun X _ => readsFiller X) h
  simpa using hrun

/-- No part that fits is read from the end of the file. -/
theorem eof_notMem_filler (h : X.Admits k) : .eof ∉ X.filler := by
  cases X with
  | token k' => simpa [filler] using fun h' : TokenKind.eof = k' => h h'.symm
  | arguments close => simpa [filler] using fun h' : TokenKind.eof = close => h.1 h'.symm
  | _ => simp [filler]

theorem eof_notMem_fillers (h : Fits S k) : .eof ∉ fillers S := by
  induction S with
  | nil => simp [fillers]
  | cons X S ih =>
    rw [fillers, List.flatMap_cons, List.mem_append]
    rintro (hX | hS)
    · exact eof_notMem_filler h.1 hX
    · exact ih h.2 hS

theorem fits_of_next (h : next x = some y) (hx : Fits x.1 k) : Fits y.1 k := by
  rcases next_cases h with ⟨X, S, A, hX, hact, rfl⟩ | ⟨X, S, k', hX, -, -, rfl⟩
  · rw [hX] at hx
    exact fits_append.mpr ⟨fits_of_act hact hx.1, hx.2⟩
  · rw [hX] at hx
    exact hx.2

/-- The parts on the stack fit together all along a run. -/
theorem Steps.fits (h : Steps x y) (hx : Fits x.1 k) : Fits y.1 k := by
  induction h with
  | refl => exact hx
  | tail _ hstep ih => exact fits_of_next hstep ih

end Pending

end Sable
