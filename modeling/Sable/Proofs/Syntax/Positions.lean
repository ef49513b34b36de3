import Sable.Proofs.Syntax.AdvancedGrammar
import Sable.Proofs.Syntax.FirstError

/-!
# Where a parser stands in its tokens

A parser holds its tokens with an end of the file behind them, and stands at the position of one of
them. Whatever it is called for, and whether it succeeds or fails, it goes on from position to
position and never leaves the tokens, since no move is made at an end of the file. What it looks at
is the token at its position, or one next to it. Every statement takes a token, and a construct is
nested no deeper than there are tokens, so every call ends.
-/

namespace Sable

namespace Cursor

variable {tokens : List Token} {c d : Cursor}

/-! ### Positions -/

/-- The tokens that a parser holds. Tokens that do not end in an end of the file get one. -/
def held (tokens : List Token) : List Token :=
  match tokens.getLast? with
  | some t => if t.kind = .eof then tokens else tokens ++ [⟨.eof, t.span.after⟩]
  | none => [⟨.eof, Span.nowhere⟩]

/-- The position of a cursor in some tokens, which is the number of those that have been read. -/
def position (tokens : List Token) (c : Cursor) : Nat :=
  (ofTokens tokens).rest.length - c.rest.length

/-- All that is looked at from a cursor stands at positions in the tokens that are held. -/
structure Indexes (tokens : List Token) (c : Cursor) : Prop where
  /-- The cursor has a position in the tokens. -/
  inBounds : c.position tokens < (held tokens).length
  /-- The next token stands there. -/
  current : (held tokens)[c.position tokens]? = some c.current
  /-- The token behind it stands at the following position, unless the file ends here. -/
  next : c.kind ≠ .eof →
    ((held tokens)[c.position tokens + 1]?).map Token.kind = some c.nextKind
  /-- The token read last stands at the position before; there is none at the first one. -/
  last : ((held tokens)[c.position tokens - 1]?).map Token.span = some c.last

/-- Some tokens are held as they are, but for an end of the file behind them. -/
theorem exists_held_eq_append (tokens : List Token) : ∃ more, held tokens = tokens ++ more := by
  rw [held]
  split
  · split
    · exact ⟨[], (List.append_nil _).symm⟩
    · exact ⟨_, rfl⟩
  · next hlast =>
    rw [List.getLast?_eq_none_iff.mp hlast]
    exact ⟨_, rfl⟩

/-- The tokens in front of the first end of the file are followed by it. -/
theorem exists_held_eq (tokens : List Token) :
    ∃ more, held tokens = (ofTokens tokens).rest ++ ⟨.eof, eofSpan tokens⟩ :: more := by
  cases hfind : tokens.find? fun t => t.kind = .eof with
  | none =>
    have hne : ∀ t ∈ tokens, t.kind ≠ .eof := by simpa using hfind
    refine ⟨[], ?_⟩
    rw [rest_ofTokens hne, held, eofSpan, hfind]
    cases hlast : tokens.getLast? with
    | none =>
      rw [List.getLast?_eq_none_iff.mp hlast]
      rfl
    | some t => exact if_neg (hne t (List.mem_of_getLast? hlast))
  | some t =>
    obtain ⟨ht, front, back, hsplit, hfront⟩ := List.find?_eq_some_iff_append.mp hfind
    have heof : t.kind = .eof := by simpa using ht
    have hrest : (ofTokens tokens).rest = front := by
      rw [hsplit, ofTokens, List.takeWhile_append_of_pos (by simpa using hfront)]
      simp [heof]
    have htoken : (⟨.eof, eofSpan tokens⟩ : Token) = t := by
      rw [eofSpan, hfind, ← heof]
    obtain ⟨more, hmore⟩ := exists_held_eq_append tokens
    exact ⟨back ++ more, by rw [hmore, hrest, htoken, hsplit, List.append_assoc, List.cons_append]⟩

/-! ### Moves -/

/-- A cursor in some tokens, from which nothing is looked at but these. -/
structure LiesIn (tokens : List Token) (c : Cursor) : Prop where
  /-- The tokens still to be read are the last ones that can be read. -/
  rest : c.rest <:+ (ofTokens tokens).rest
  /-- The first end of the file ends them. -/
  eof : c.eof = eofSpan tokens
  /-- The token read last stands in front of the position. -/
  last : ((held tokens)[c.position tokens - 1]?).map Token.span = some c.last

/-- The next token is the first one of those that are left. -/
theorem current_eq (c : Cursor) (more : List Token) :
    (c.rest ++ ⟨.eof, c.eof⟩ :: more)[0]? = some c.current := by
  rw [current]
  cases c.rest <;> rfl

theorem nextKind_eq (h : c.kind ≠ .eof) (more : List Token) :
    ((c.rest ++ ⟨.eof, c.eof⟩ :: more)[1]?).map Token.kind = some c.nextKind := by
  rw [nextKind]
  rcases hrest : c.rest with _ | ⟨t, _ | ⟨t', ts⟩⟩
  · exact absurd (kind_of_rest_eq_nil hrest) h
  · rfl
  · rfl

/-- What is left behind a position stands at and behind it. -/
theorem LiesIn.getElem? (h : c.LiesIn tokens) : ∃ more, ∀ i,
    (held tokens)[c.position tokens + i]? = (c.rest ++ ⟨.eof, c.eof⟩ :: more)[i]? := by
  obtain ⟨more, hheld⟩ := exists_held_eq tokens
  obtain ⟨front, hfront⟩ := h.rest
  have hposition : c.position tokens = front.length := by
    rw [position, ← hfront, List.length_append, Nat.add_sub_cancel]
  refine ⟨more, fun i => ?_⟩
  rw [hheld, ← hfront, h.eof, hposition, List.append_assoc,
    List.getElem?_append_right (Nat.le_add_right _ _), Nat.add_sub_cancel_left]

theorem LiesIn.indexes (h : c.LiesIn tokens) : c.Indexes tokens := by
  obtain ⟨more, hindex⟩ := h.getElem?
  have hcurrent : (held tokens)[c.position tokens]? = some c.current :=
    (hindex 0).trans (c.current_eq more)
  exact ⟨(List.getElem?_eq_some_iff.mp hcurrent).1, hcurrent,
    fun hk => (hindex 1).symm ▸ nextKind_eq hk more, h.last⟩

theorem liesIn_ofTokens (tokens : List Token) : (ofTokens tokens).LiesIn tokens := by
  have hstart : (ofTokens tokens).position tokens = 0 := Nat.sub_self _
  have hlast : (ofTokens tokens).last = (ofTokens tokens).current.span := by
    rw [current, ofTokens]
    cases tokens.takeWhile fun t => t.kind ≠ .eof <;> rfl
  obtain ⟨more, hheld⟩ := exists_held_eq tokens
  refine ⟨List.suffix_refl _, rfl, ?_⟩
  rw [hstart, hheld, hlast]
  exact congrArg (Option.map Token.span) ((ofTokens tokens).current_eq more)

theorem position_advance (h : c.LiesIn tokens) (hne : c.rest ≠ []) :
    c.advance.position tokens = c.position tokens + 1 := by
  have hadvance := rest_advance_length hne
  have hle := h.rest.length_le
  unfold position
  omega

/-- A move leads from one position to the next one, or stays there. -/
theorem LiesIn.moves (h : c.LiesIn tokens) (hd : c.Moves d) : d.LiesIn tokens := by
  cases hd with
  | literal => exact ⟨h.rest, h.eof, h.last⟩
  | token hne =>
    obtain ⟨t, ts, hts⟩ := List.exists_cons_of_ne_nil hne
    have hrest : c.advance.rest <:+ c.rest := (Takes.advance hne).suffix
    have hlast : c.advance.last = c.current.span := by simp [advance, current, hts]
    refine ⟨hrest.trans h.rest, ?_, ?_⟩
    · rw [← h.eof, advance, hts]
    · rw [position_advance h hne, Nat.add_sub_cancel, h.indexes.current, hlast]
      rfl

theorem LiesIn.passes (h : c.LiesIn tokens) (hd : c.Passes d) : d.LiesIn tokens := by
  induction hd with
  | refl => exact h
  | tail _ hmove ih => exact ih.moves hmove

/-- No token that has been read is read again. -/
theorem Passes.length_le (h : c.Passes d) : d.rest.length ≤ c.rest.length := by
  induction h with
  | refl => exact Nat.le_refl _
  | tail _ hmove ih =>
    cases hmove with
    | literal => exact ih
    | token hne => exact (Nat.le_of_succ_le (rest_advance_length hne).le).trans ih

theorem Passes.position_le (h : c.Passes d) (tokens : List Token) :
    c.position tokens ≤ d.position tokens := Nat.sub_le_sub_left h.length_le _

end Cursor

namespace Parser

variable {α : Type} {c d : Cursor}

/-! ### Calls -/

/-- A parser moves from token to token, and over one at least if it succeeds. -/
structure Progresses (p : Parser α) : Prop where
  /-- Whether the parser succeeds or fails, it only moves the cursor. -/
  passes : ∀ c : Cursor, c.Passes (p c).2
  /-- Fewer tokens are left behind a success. -/
  reads : ∀ {c a d}, p c = (.ok a, d) → d.rest.length < c.rest.length

theorem Advances.progresses {n : Nat} {p q : Parser α} (h : p.Advances true n q) : p.Progresses :=
  ⟨h.passes, h.reads⟩

/-- Reads a whole program whose constructs have at most `n` tokens. -/
def programWithin (n : Nat) : Parser Program := do
  let start ← look Cursor.here
  let stmts ← statements (Grammar.within n).statement .eof n
  let stop ← look Cursor.here
  pure ⟨stmts, start.merge stop⟩

theorem advances_programWithin {n n' : Nat} (h : n ≤ n') :
    (programWithin n).Advances false n (programWithin n') := by
  have hg := Grammar.advances_within h
  refine advances_look fun _ => (advances_statements hg.statement ?_ h).bind fun _ =>
    advances_look fun _ => advances_pure _
  rw [Grammar.size_within]

/-- With room for all tokens that are left, more room makes no difference. -/
theorem programWithin_eq {n : Nat} (h : c.rest.length ≤ n) : programWithin n c = program c :=
  ((advances_programWithin h).same (Nat.le_refl _)).symm

theorem operand_eq {n : Nat} (h : c.rest.length ≤ n) :
    (Grammar.within n).operand 0 c = expression c :=
  (((Grammar.advances_within h).operand 0).same (Grammar.size_within _).ge).symm

theorem progresses_expression : expression.Progresses where
  passes c := by
    rw [← operand_eq (Nat.le_refl _)]
    exact ((Grammar.advances_within (Nat.le_refl _)).operand 0).passes c
  reads h := by
    rw [← operand_eq (Nat.le_refl _)] at h
    exact ((Grammar.advances_within (Nat.le_refl _)).operand 0).reads h

/-- A loop reads a token for every statement. -/
theorem length_statements_le {stmt : Parser Stmt} (hstmt : stmt.Progresses) {close : TokenKind}
    {n : Nat} {ss : List Stmt} (h : statements stmt close n c = (.ok ss, d)) :
    d.rest.length + ss.length ≤ c.rest.length := by
  induction n generalizing c ss with
  | zero =>
    cases h
    exact Nat.le_refl _
  | succ n ih =>
    rw [statements, look_bind] at h
    split at h
    · cases h
      exact Nat.le_refl _
    · obtain ⟨accepted, c', haccept, h⟩ := bind_eq_ok h
      have hc' : c'.rest.length ≤ c.rest.length := by
        unfold accept at haccept
        split at haccept
        · cases haccept
          exact (Cursor.passes_advance c).length_le
        · cases haccept
          exact Nat.le_refl _
      split at h
      · exact (ih h).trans hc'
      · obtain ⟨s, e, hs, h⟩ := bind_eq_ok h
        obtain ⟨ss', e', hss, h⟩ := bind_eq_ok h
        cases h
        have hread := hstmt.reads hs
        have hrest := ih hss
        rw [List.length_cons]
        omega

/-- A program has no more statements than the tokens that it is read from. -/
theorem length_stmts_le {p : Program} (h : program c = (.ok p, d)) :
    d.rest.length + p.stmts.length ≤ c.rest.length := by
  rw [← programWithin_eq (Nat.le_refl _), programWithin, look_bind] at h
  obtain ⟨ss, e, hss, h⟩ := bind_eq_ok h
  cases h
  exact length_statements_le (Grammar.advances_within (Nat.le_refl _)).statement.progresses hss

/-- What a parser may be called for. -/
inductive EntryPoint
  /-- The whole program that is left. -/
  | program
  /-- One expression. -/
  | expression

/-- The cursor behind a call, whether the call succeeds or fails. -/
def EntryPoint.call : EntryPoint → Cursor → Cursor
  | program, c => (Parser.program c).2
  | expression, c => (Parser.expression c).2

/-- The cursor behind some calls for tokens. -/
def afterCalls (tokens : List Token) (calls : List EntryPoint) : Cursor :=
  calls.foldl (fun c entry => entry.call c) (Cursor.ofTokens tokens)

theorem passes_call (entry : EntryPoint) (c : Cursor) : c.Passes (entry.call c) := by
  cases entry with
  | program =>
    rw [EntryPoint.call, ← programWithin_eq (Nat.le_refl _)]
    exact (advances_programWithin (Nat.le_refl _)).passes c
  | expression => exact progresses_expression.passes c

theorem passes_afterCalls (tokens : List Token) (calls more : List EntryPoint) :
    (afterCalls tokens calls).Passes (afterCalls tokens (calls ++ more)) := by
  rw [afterCalls, afterCalls, List.foldl_append]
  generalize calls.foldl (fun c (entry : EntryPoint) => entry.call c) (Cursor.ofTokens tokens) = c
  induction more generalizing c with
  | nil => exact .refl c
  | cons entry more ih => exact (passes_call entry c).trans (ih _)

/--
A parser of any tokens, whatever it is called for and whether it succeeds or fails, goes on from
where it stopped, token by token. Wherever it comes, it stands at a position in the tokens that it
holds, finds all that it looks at in them, and never goes back to an earlier position. A statement,
a block, an expression, a name or a type takes a token at least. So the depth of the grammar does
not matter as long as there are no more tokens, and a program has no more statements than the
positions that it takes.
-/
theorem afterCalls_stays (tokens : List Token) :
    (∀ calls more, (afterCalls tokens calls).Passes (afterCalls tokens (calls ++ more))) ∧
      (∀ c d : Cursor, (Cursor.ofTokens tokens).Passes c → c.Passes d →
        c.Indexes tokens ∧ c.position tokens ≤ d.position tokens) ∧
      expression.Progresses ∧ (∀ n, (Grammar.within n).statement.Progresses ∧
        (block (Grammar.within n)).Progresses ∧
        (∀ level, ((Grammar.within n).operand level).Progresses) ∧ ident.Progresses ∧
        (typeWithin n).Progresses) ∧
      (∀ (c : Cursor) (n : Nat), c.rest.length ≤ n → programWithin n c = program c ∧
        (Grammar.within n).operand 0 c = expression c) ∧
      ∀ (c d : Cursor) (p : Program), (Cursor.ofTokens tokens).Passes c →
        program c = (.ok p, d) → c.position tokens + p.stmts.length ≤ d.position tokens := by
  refine ⟨passes_afterCalls tokens, fun c d hc hd => ?_, progresses_expression, fun n => ?_,
    fun c n h => ?_, fun c d p hc h => ?_⟩
  · exact ⟨((Cursor.liesIn_ofTokens tokens).passes hc).indexes, hd.position_le tokens⟩
  · have hg := Grammar.advances_within (Nat.le_refl n)
    exact ⟨hg.statement.progresses, (advances_block hg).progresses,
      fun level => (hg.operand level).progresses, (advances_ident (n := 0)).progresses,
      (advances_typeWithin (Nat.le_refl n)).progresses⟩
  · exact ⟨programWithin_eq h, operand_eq h⟩
  · have hlength := length_stmts_le h
    have hle := ((Cursor.liesIn_ofTokens tokens).passes hc).rest.length_le
    unfold Cursor.position
    omega

/-- The tokens of `a; b`, with no end of the file behind them. -/
def twoStatements : List Token :=
  [⟨.ident "a", ⟨0, 1, 0⟩⟩, ⟨.punct .semicolon, ⟨1, 2, 0⟩⟩, ⟨.ident "b", ⟨3, 4, 0⟩⟩]

/-- Called once more behind both statements, the parser fails at the end of the file and stays. -/
theorem afterCalls_stays_twoStatements :
    ∃ (p : Program) (d : Cursor), program (Cursor.ofTokens twoStatements) = (.ok p, d) ∧
      p.stmts.length = 2 ∧ 2 ≤ d.position twoStatements ∧
      programWithin 3 (Cursor.ofTokens twoStatements) = (.ok p, d) ∧
      (∃ e, expression d = (.error e, afterCalls twoStatements [.program, .expression])) ∧
      (afterCalls twoStatements [.program, .expression]).Indexes twoStatements ∧
      d.position twoStatements ≤
        (afterCalls twoStatements [.program, .expression]).position twoStatements := by
  obtain ⟨hpasses, hindexes, -, -, hdepth, hstmts⟩ := afterCalls_stays twoStatements
  have hprogram := hpasses [] [.program]
  have hexpression := hpasses [.program] [.expression]
  have hend := hpasses [] [.program, .expression]
  refine ⟨_, _, rfl, rfl, ?_, (hdepth (Cursor.ofTokens twoStatements) 3 (by decide)).1, ⟨_, rfl⟩,
    (hindexes _ _ hend (.refl _)).1, (hindexes _ _ hprogram hexpression).2⟩
  exact (Nat.le_add_left _ _).trans (hstmts _ _ _ (.refl _) rfl)

end Parser

end Sable
