import Sable.Token.Lexer

/-!
# Text between tokens

What stands between two tokens is a row of blanks and comments. A line comment ends with its
line. A block comment ends where it is closed, and the block comments inside it are closed before
it. Behind the last token a comment may reach to the end of the text. The lexer passes over just
such a row, and stops only where no blank and no comment begins.
-/

namespace Sable

/-- A character that neither opens nor closes a block comment in front of the others. -/
def IsCommentChar (c : Char) (rest : List Char) : Prop :=
  ¬ ['*', '/'] <+: c :: rest ∧ ¬ ['/', '*'] <+: c :: rest

/-- What stands behind the opening of a block comment, up to and with its end. -/
inductive CommentText : List Char → Prop
  /-- The end of the comment. -/
  | close : CommentText ['*', '/']
  /-- A block comment inside the comment. -/
  | nested {inner rest : List Char} : CommentText inner → CommentText rest →
    CommentText ('/' :: '*' :: (inner ++ rest))
  /-- Any other character. -/
  | char {c : Char} {rest : List Char} : IsCommentChar c rest → CommentText rest →
    CommentText (c :: rest)

/-- What stands behind the opening of a block comment that is never closed. -/
inductive UnclosedText : List Char → Prop
  /-- The end of the text. -/
  | nil : UnclosedText []
  /-- A block comment inside the comment. -/
  | nested {inner rest : List Char} : CommentText inner → UnclosedText rest →
    UnclosedText ('/' :: '*' :: (inner ++ rest))
  /-- A block comment inside the comment that is never closed itself. -/
  | unclosed {rest : List Char} : UnclosedText rest → UnclosedText ('/' :: '*' :: rest)
  /-- Any other character. -/
  | char {c : Char} {rest : List Char} : IsCommentChar c rest → UnclosedText rest →
    UnclosedText (c :: rest)

/-- A row of blanks and comments; only a comment in the `last` row may lack its end. -/
inductive Gap (last : Prop) : List Char → Prop
  /-- Nothing. -/
  | nil : Gap last []
  /-- A blank. -/
  | blank {c : Char} {rest : List Char} : isBlank c = true → Gap last rest → Gap last (c :: rest)
  /-- A line comment with the end of its line. -/
  | line {body rest : List Char} : '\n' ∉ body → Gap last rest →
    Gap last ('/' :: '/' :: (body ++ '\n' :: rest))
  /-- A block comment. -/
  | block {body rest : List Char} : CommentText body → Gap last rest →
    Gap last ('/' :: '*' :: (body ++ rest))
  /-- A line comment in the last line. -/
  | lastLine {body : List Char} : last → '\n' ∉ body → Gap last ('/' :: '/' :: body)
  /-- A block comment that is never closed. -/
  | unclosed {body : List Char} : last → UnclosedText body → Gap last ('/' :: '*' :: body)

/-! ### Inside of nested comments -/

/-- The texts of a block comment and of the `depth` ones around it, each up to its own end. -/
def ClosedText : Nat → List Char → Prop
  | 0, cs => CommentText cs
  | depth + 1, cs => ∃ inner rest, CommentText inner ∧ ClosedText depth rest ∧ cs = inner ++ rest

/-- The same texts up to the end of the input, where one of them is not closed. -/
def OpenText : Nat → List Char → Prop
  | 0, cs => UnclosedText cs
  | depth + 1, cs => UnclosedText cs ∨
    ∃ inner rest, CommentText inner ∧ OpenText depth rest ∧ cs = inner ++ rest

theorem ClosedText.nested {depth : Nat} {cs : List Char} (h : ClosedText (depth + 1) cs) :
    ClosedText depth ('/' :: '*' :: cs) := by
  obtain ⟨inner, rest, hinner, hrest, rfl⟩ := h
  cases depth with
  | zero => exact CommentText.nested hinner hrest
  | succ depth =>
    obtain ⟨outer, rest, houter, hrest, rfl⟩ := hrest
    exact ⟨_, rest, CommentText.nested hinner houter, hrest, by simp⟩

theorem OpenText.nested {depth : Nat} {cs : List Char} (h : OpenText (depth + 1) cs) :
    OpenText depth ('/' :: '*' :: cs) := by
  rcases h with h | ⟨inner, rest, hinner, hrest, rfl⟩
  · cases depth with
    | zero => exact UnclosedText.unclosed h
    | succ depth => exact Or.inl (UnclosedText.unclosed h)
  · cases depth with
    | zero => exact UnclosedText.nested hinner hrest
    | succ depth =>
      rcases hrest with hrest | ⟨outer, rest, houter, hrest, rfl⟩
      · exact Or.inl (UnclosedText.nested hinner hrest)
      · exact Or.inr ⟨_, rest, CommentText.nested hinner houter, hrest, by simp⟩

/-- Whether a character opens or closes a comment does not depend on what stands further on. -/
theorem IsCommentChar.of_isPrefix {c : Char} {cs ds : List Char} (h : IsCommentChar c ds)
    (hcs : cs <+: ds) : IsCommentChar c cs :=
  have hcons : c :: cs <+: c :: ds := (List.prefix_cons_inj c).mpr hcs
  ⟨fun hp => h.1 (hp.trans hcons), fun hp => h.2 (hp.trans hcons)⟩

theorem ClosedText.char {depth : Nat} {c : Char} {cs ds : List Char} (h : ClosedText depth cs)
    (hc : IsCommentChar c ds) (hcs : cs <+: ds) : ClosedText depth (c :: cs) := by
  cases depth with
  | zero => exact CommentText.char (hc.of_isPrefix hcs) h
  | succ depth =>
    obtain ⟨inner, rest, hinner, hrest, rfl⟩ := h
    have hc' := hc.of_isPrefix ((List.prefix_append inner rest).trans hcs)
    exact ⟨_, rest, CommentText.char hc' hinner, hrest, rfl⟩

theorem OpenText.char {depth : Nat} {c : Char} {cs : List Char} (h : OpenText depth cs)
    (hc : IsCommentChar c cs) : OpenText depth (c :: cs) := by
  cases depth with
  | zero => exact UnclosedText.char hc h
  | succ depth =>
    rcases h with h | ⟨inner, rest, hinner, hrest, rfl⟩
    · exact Or.inl (UnclosedText.char hc h)
    · have hc' := hc.of_isPrefix (List.prefix_append inner rest)
      exact Or.inr ⟨_, rest, CommentText.char hc' hinner, hrest, rfl⟩

theorem openText_nil (depth : Nat) : OpenText depth [] := by
  cases depth with
  | zero => exact UnclosedText.nil
  | succ depth => exact Or.inl UnclosedText.nil

/-! ### What the lexer passes over -/

/-- What the lexer passes over, depending on what it stands in; `last` if nothing is left. -/
def Passed (last : Prop) : Trivia → List Char → Prop
  | .blank, cs => Gap last cs
  | .line, cs => (∃ body rest, '\n' ∉ body ∧ Gap last rest ∧ cs = body ++ '\n' :: rest) ∨
    (last ∧ '\n' ∉ cs)
  | .block depth, cs => (∃ body rest, ClosedText depth body ∧ Gap last rest ∧ cs = body ++ rest) ∨
    (last ∧ OpenText depth cs)

namespace Passed

variable {last : Prop} {depth : Nat} {c : Char} {cs : List Char}

theorem nil (hlast : last) (state : Trivia) : Passed last state [] := by
  cases state with
  | blank => exact Gap.nil
  | line => exact Or.inr ⟨hlast, by simp⟩
  | block depth => exact Or.inr ⟨hlast, openText_nil depth⟩

theorem openLine (h : Passed last .line cs) : Passed last .blank ('/' :: '/' :: cs) := by
  rcases h with ⟨body, rest, hbody, hrest, rfl⟩ | ⟨hlast, hcs⟩
  · exact Gap.line hbody hrest
  · exact Gap.lastLine hlast hcs

theorem openBlock (h : Passed last (.block 0) cs) : Passed last .blank ('/' :: '*' :: cs) := by
  rcases h with ⟨body, rest, hbody, hrest, rfl⟩ | ⟨hlast, hcs⟩
  · exact Gap.block hbody hrest
  · exact Gap.unclosed hlast hcs

theorem lineChar (hc : c ≠ '\n') (h : Passed last .line cs) : Passed last .line (c :: cs) := by
  rcases h with ⟨body, rest, hbody, hrest, rfl⟩ | ⟨hlast, hcs⟩
  · exact Or.inl ⟨c :: body, rest, by simp [hc.symm, hbody], hrest, rfl⟩
  · exact Or.inr ⟨hlast, by simp [hc.symm, hcs]⟩

theorem closeBlock (h : Passed last (Trivia.closeBlock depth) cs) :
    Passed last (.block depth) ('*' :: '/' :: cs) := by
  cases depth with
  | zero => exact Or.inl ⟨['*', '/'], cs, CommentText.close, h, rfl⟩
  | succ depth =>
    rcases h with ⟨body, rest, hbody, hrest, rfl⟩ | ⟨hlast, hcs⟩
    · exact Or.inl ⟨_, rest, ⟨_, body, CommentText.close, hbody, rfl⟩, hrest, rfl⟩
    · exact Or.inr ⟨hlast, Or.inr ⟨_, cs, CommentText.close, hcs, rfl⟩⟩

theorem nestedBlock (h : Passed last (.block (depth + 1)) cs) :
    Passed last (.block depth) ('/' :: '*' :: cs) := by
  rcases h with ⟨body, rest, hbody, hrest, rfl⟩ | ⟨hlast, hcs⟩
  · exact Or.inl ⟨_, rest, hbody.nested, hrest, rfl⟩
  · exact Or.inr ⟨hlast, hcs.nested⟩

theorem blockChar (hc : IsCommentChar c cs) (h : Passed last (.block depth) cs) :
    Passed last (.block depth) (c :: cs) := by
  rcases h with ⟨body, rest, hbody, hrest, rfl⟩ | ⟨hlast, hcs⟩
  · exact Or.inl ⟨_, rest, hbody.char hc (List.prefix_append body rest), hrest, rfl⟩
  · exact Or.inr ⟨hlast, hcs.char hc⟩

end Passed

theorem passed_take_triviaLength (state : Trivia) (cs : List Char) :
    Passed (cs.drop (triviaLength state cs) = []) state (cs.take (triviaLength state cs)) := by
  fun_induction triviaLength state cs with
  | case1 state => exact Passed.nil rfl state
  | case2 rest ih => exact Passed.openLine ih
  | case3 rest ih => exact Passed.openBlock ih
  | case4 c rest _ _ hc ih => exact Gap.blank hc ih
  | case5 c rest _ _ hc => exact Gap.nil
  | case6 c rest ih =>
    by_cases hc : c = '\n'
    · simp only [hc, ↓reduceIte] at ih ⊢
      exact Or.inl ⟨[], _, by simp, ih, rfl⟩
    · simp only [hc, ↓reduceIte] at ih ⊢
      exact Passed.lineChar hc ih
  | case7 depth rest ih => exact Passed.closeBlock ih
  | case8 depth rest ih => exact Passed.nestedBlock ih
  | case9 depth c rest hclose hopen ih =>
    have hc : IsCommentChar c rest :=
      ⟨fun hp => by
        obtain ⟨ds, hds⟩ := hp
        simp only [List.cons_append, List.nil_append, List.cons.injEq] at hds
        exact hclose ds hds.1.symm hds.2.symm,
      fun hp => by
        obtain ⟨ds, hds⟩ := hp
        simp only [List.cons_append, List.nil_append, List.cons.injEq] at hds
        exact hopen ds hds.1.symm hds.2.symm⟩
    exact Passed.blockChar (hc.of_isPrefix (List.take_prefix _ rest)) ih

theorem triviaLength_le (state : Trivia) (cs : List Char) : triviaLength state cs ≤ cs.length := by
  fun_induction triviaLength state cs <;> simp only [List.length_cons, List.length_nil] <;> omega

/-- The lexer passes over blanks and comments only, in front of a token over closed ones. -/
theorem gap_take_triviaLength (cs : List Char) :
    Gap (cs.drop (triviaLength .blank cs) = []) (cs.take (triviaLength .blank cs)) :=
  passed_take_triviaLength .blank cs

/-- Where the lexer stops, neither a blank nor a comment begins. -/
theorem triviaLength_drop_triviaLength (state : Trivia) (cs : List Char) :
    triviaLength .blank (cs.drop (triviaLength state cs)) = 0 := by
  fun_induction triviaLength state cs with
  | case1 state => simp [triviaLength]
  | case5 c rest hline hblock hc =>
    rw [List.drop_zero, triviaLength]
    · simp [hc]
    · exact hline
    · exact hblock
  | case2 rest ih | case3 rest ih | case4 c rest _ _ hc ih | case6 c rest ih
  | case7 depth rest ih | case8 depth rest ih | case9 depth c rest _ _ ih => exact ih

end Sable
