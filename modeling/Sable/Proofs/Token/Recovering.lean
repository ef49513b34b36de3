import Sable.Proofs.Token.Strings

/-!
# Reading on behind errors

A lexer goes on behind a lexeme in error. Each step takes characters until none is left, and what
it reads lies behind what was read before; from then on the end of the file is read again and
again, in one place. That place is the end of the text. Only an unterminated string literal can
reach past it, by the one character that a backslash at the very end takes with it.
-/

namespace Sable

/-- The span of what a step reads, be it a token or an error. -/
def readSpan : Except SyntaxError Token → Span
  | .ok t => t.span
  | .error e => e.span

/-- The end of the file is read. -/
def IsEof (r : Except SyntaxError Token) : Prop := ∃ span, r = .ok ⟨.eof, span⟩

/-- A string literal that starts in the place takes one character more than the text has. -/
def Overruns (text : List Char) (start : Nat) : Prop :=
  ∃ raw value, Decodes raw value ∧ text.drop start = '"' :: (raw ++ ['\\'])

/-! ### One lexeme -/

/-- A lexeme takes only characters that there are, if no backslash stands at the end. -/
theorem lexeme_length_le_or_overruns (c : Char) (rest : List Char) :
    (lexeme c rest).length ≤ rest.length + 1 ∨
      Overruns (c :: rest) 0 ∧ (lexeme c rest).length = rest.length + 2 ∧
        ∀ span, (lexeme c rest).outcome span = .error (.unterminatedString span) := by
  by_cases hquote : c = '"'
  · subst hquote
    rw [lexeme_quote]
    have hread := bodyRead_stringBody rest
    rw [stringLexeme]
    generalize stringBody rest = read at hread
    cases hread with
    | closed | line | last => exact .inl (by simp)
    | @dangling raw value hraw => exact .inr ⟨⟨raw, value, hraw, rfl⟩, by simp, fun _ => rfl⟩
  · refine .inl ?_
    cases hword : isIdentStart c with
    | true =>
      rw [lexeme_eq_wordLexeme hword]
      exact (List.takeWhile_prefix _).length_le
    | false =>
      cases hdigit : c.isDigit with
      | true =>
        rw [lexeme_eq_numberLexeme hword hdigit]
        exact (numberLexeme_text_isPrefix (c :: rest)).length_le
      | false =>
        rw [lexeme_eq_punct hword hdigit hquote]
        cases hmark : punct? (c :: rest) with
        | some mark => exact (spelling_isPrefix_of_punct? hmark).length_le
        | none => simp [Lexeme.token]

/-- An error of a lexeme has the span of the lexeme. -/
theorem span_of_lexeme_error {c : Char} {rest : List Char} {span : Span} {e : SyntaxError}
    (h : (lexeme c rest).outcome span = .error e) : e.span = span := by
  unfold lexeme at h
  split at h
  · cases h
  split at h
  · simp only [numberLexeme] at h
    split at h
    · cases h
    · obtain rfl := Except.error.inj h
      rfl
  split at h
  · simp only [stringLexeme] at h
    split at h
    · cases h
    · obtain rfl := Except.error.inj h
      rfl
  split at h <;> cases h

/-! ### One step -/

namespace Lexer

/-- What one step from a lexer reads, and the lexer behind it. -/
inductive Steps (lx : Lexer) : Except SyntaxError Token → Lexer → Prop
  /-- Nothing is left but blanks and comments. -/
  | eof : Steps lx
    (.ok ⟨.eof, ⟨lx.pos + lx.rest.length, lx.pos + lx.rest.length, lx.file⟩⟩)
    ⟨[], lx.pos + lx.rest.length, lx.file⟩
  /-- A lexeme is read, right or in error. -/
  | lexeme {gap : Nat} {c : Char} {rest : List Char} {r : Except SyntaxError Token} :
    lx.rest.drop gap = c :: rest → ¬ IsEof r →
    readSpan r = ⟨lx.pos + gap, lx.pos + gap + (lexeme c rest).length, lx.file⟩ →
    (∀ e, (Sable.lexeme c rest).outcome (readSpan r) = .error e → r = .error e) →
    Steps lx r ⟨(c :: rest).drop (Sable.lexeme c rest).length,
      lx.pos + gap + (Sable.lexeme c rest).length, lx.file⟩

theorem steps_next (lx : Lexer) : Steps lx lx.next.1 lx.next.2 := by
  have hgap := triviaLength_le .blank lx.rest
  cases hr : lx.rest.drop (triviaLength .blank lx.rest) with
  | nil =>
    have hlength : triviaLength .blank lx.rest = lx.rest.length := by
      have := List.drop_eq_nil_iff.mp hr
      omega
    have hnext : lx.next = (.ok ⟨.eof, ⟨lx.pos + lx.rest.length, lx.pos + lx.rest.length,
        lx.file⟩⟩, ⟨[], lx.pos + lx.rest.length, lx.file⟩) := by
      simp [next, skipTrivia, advance, spanOf, hlength]
    rw [hnext]
    exact .eof
  | cons c rest =>
    have hnext : lx.next = (((lexeme c rest).outcome ⟨lx.pos + triviaLength .blank lx.rest,
          lx.pos + triviaLength .blank lx.rest + (lexeme c rest).length, lx.file⟩).map
            fun kind => ⟨kind, ⟨lx.pos + triviaLength .blank lx.rest,
              lx.pos + triviaLength .blank lx.rest + (lexeme c rest).length, lx.file⟩⟩,
        ⟨(c :: rest).drop (lexeme c rest).length,
          lx.pos + triviaLength .blank lx.rest + (lexeme c rest).length, lx.file⟩) := by
      simp only [next, skipTrivia, advance, spanOf, hr]
    rw [hnext]
    generalize hspan : (⟨lx.pos + triviaLength .blank lx.rest, lx.pos +
      triviaLength .blank lx.rest + (lexeme c rest).length, lx.file⟩ : Span) = span
    cases ho : (lexeme c rest).outcome span with
    | error e =>
      have he := span_of_lexeme_error ho
      refine .lexeme hr (by rintro ⟨_, h⟩; cases h) (he.trans hspan.symm) fun e' he' => ?_
      have he' : (Sable.lexeme c rest).outcome e.span = .error e' := he'
      rw [he, ho] at he'
      obtain rfl := Except.error.inj he'
      rfl
    | ok kind =>
      refine .lexeme hr ?_ hspan.symm fun e' he' => ?_
      · rintro ⟨_, h⟩
        obtain rfl : kind = .eof := congrArg Token.kind (Except.ok.inj h)
        exact lexeme_ne_eof c rest span ho
      · have he' : (Sable.lexeme c rest).outcome span = .error e' := he'
        rw [ho] at he'
        cases he'

/-! ### All steps -/

/-- The lexer behind a number of steps. -/
def behind (lx : Lexer) : Nat → Lexer
  | 0 => lx
  | k + 1 => lx.next.2.behind k

/-- What is read in the step behind a number of others. -/
def reading (lx : Lexer) (k : Nat) : Except SyntaxError Token := (lx.behind k).next.1

/-- A lexer reads the rest of a text in `m` steps, and from then on the end of the file. -/
structure ReadsThrough (text : List Char) (lx : Lexer) (m last : Nat) : Prop where
  /-- What is read lies in the file, behind what was read before. -/
  ordered : ∀ k, (readSpan (lx.reading k)).file = lx.file ∧
    (readSpan (lx.reading k)).start ≤ (readSpan (lx.reading k)).stop ∧
    (readSpan (lx.reading k)).stop ≤ (readSpan (lx.reading (k + 1))).start
  /-- Each step before the end takes characters. -/
  progress : ∀ k < m, ¬ IsEof (lx.reading k) ∧
    (lx.behind (k + 1)).rest.length < (lx.behind k).rest.length
  /-- The end of the file is always read in the same place. -/
  final : ∀ k ≥ m, lx.reading k = .ok ⟨.eof, ⟨last, last, lx.file⟩⟩
  /-- There are no more steps before it than characters. -/
  steps_le : m ≤ lx.rest.length
  /-- The lexer stands in front of the end. -/
  pos_le : lx.pos ≤ last
  /-- What is read lies in front of the end. -/
  within : ∀ k, (readSpan (lx.reading k)).stop ≤ last
  /-- The end is that of the text, if the last step before it does not reach past that. -/
  last_eq : last = max lx.pos text.length ∨
    last = text.length + 1 ∧ ∃ k start, k + 1 = m ∧ Overruns text start ∧
      lx.reading k = .error (.unterminatedString ⟨start, text.length + 1, lx.file⟩)

theorem reading_of_rest_eq_nil {lx : Lexer} (h : lx.rest = []) (k : Nat) :
    lx.reading k = .ok ⟨.eof, ⟨lx.pos, lx.pos, lx.file⟩⟩ := by
  have hnext := next_of_rest_eq_nil h
  have hbehind : lx.behind k = lx := by
    induction k with
    | zero => rfl
    | succ k ih => rw [behind, hnext, ih]
  rw [reading, hbehind, hnext]
  rfl

/-- A step reads behind the place where it starts, and up to the place where the next starts. -/
theorem Steps.bounds {lx ly : Lexer} {r : Except SyntaxError Token} (h : Steps lx r ly) :
    (readSpan r).file = lx.file ∧ ly.file = lx.file ∧ lx.pos ≤ (readSpan r).start ∧
      (readSpan r).start ≤ (readSpan r).stop ∧ (readSpan r).stop = ly.pos := by
  cases h with
  | eof => exact ⟨rfl, rfl, Nat.le_add_right _ _, Nat.le_refl _, rfl⟩
  | lexeme hrest _ hspan _ =>
    rw [hspan]
    exact ⟨rfl, rfl, Nat.le_add_right _ _, Nat.le_add_right _ _, rfl⟩

/-- Behind the last token, the end of the file is read for ever. -/
theorem ReadsThrough.nil {text : List Char} {lx : Lexer} (htext : lx.rest = text.drop lx.pos)
    (h : lx.next = (.ok ⟨.eof, ⟨lx.pos + lx.rest.length, lx.pos + lx.rest.length, lx.file⟩⟩,
      ⟨[], lx.pos + lx.rest.length, lx.file⟩)) :
    lx.ReadsThrough text 0 (lx.pos + lx.rest.length) := by
  have hreading : ∀ k, lx.reading k =
      .ok ⟨.eof, ⟨lx.pos + lx.rest.length, lx.pos + lx.rest.length, lx.file⟩⟩ := by
    intro k
    cases k with
    | zero => rw [reading, behind, h]
    | succ k =>
      have hbehind : lx.reading (k + 1) = lx.next.2.reading k := rfl
      rw [hbehind, h, reading_of_rest_eq_nil rfl]
  refine ⟨fun k => ?_, nofun, fun k _ => hreading k, Nat.zero_le _, Nat.le_add_right _ _,
    fun k => by rw [hreading]; exact Nat.le_refl _, .inl ?_⟩
  · rw [hreading, hreading]
    exact ⟨rfl, Nat.le_refl _, Nat.le_refl _⟩
  · rw [htext, List.length_drop]
    omega

/-- One more step in front of the others. -/
theorem ReadsThrough.cons {text : List Char} {lx ly : Lexer} {r : Except SyntaxError Token}
    {m last : Nat} (hnext : lx.next = (r, ly)) (hstep : Steps lx r ly) (hr : ¬ IsEof r)
    (hless : ly.rest.length < lx.rest.length) (h : ly.ReadsThrough text m last)
    (hlast : last = max lx.pos text.length ∨ last = text.length + 1 ∧ ∃ k start, k + 1 = m + 1 ∧
      Overruns text start ∧
        lx.reading k = .error (.unterminatedString ⟨start, text.length + 1, lx.file⟩)) :
    lx.ReadsThrough text (m + 1) last := by
  obtain ⟨hfile, hfile', hstart, hle, hstop⟩ := hstep.bounds
  have hzero : lx.reading 0 = r := by rw [reading, behind, hnext]
  have hsucc : ∀ k, lx.reading (k + 1) = ly.reading k := by
    intro k
    have hbehind : lx.reading (k + 1) = lx.next.2.reading k := rfl
    rw [hbehind, hnext]
  have hbehind : ∀ k, lx.behind (k + 1) = ly.behind k := by
    intro k
    rw [behind, hnext]
  refine ⟨fun k => ?_, fun k hk => ?_, fun k hk => ?_, ?_, ?_, fun k => ?_, hlast⟩
  · cases k with
    | zero =>
      have hfirst := (steps_next ly).bounds.2.2.1
      rw [hzero, hsucc, hstop]
      exact ⟨hfile, hstop ▸ hle, hfirst⟩
    | succ k =>
      rw [hsucc, hsucc, ← hfile']
      exact h.ordered k
  · cases k with
    | zero => rw [hzero, hbehind]; exact ⟨hr, hless⟩
    | succ k => rw [hsucc, hbehind, hbehind]; exact h.progress k (Nat.lt_of_succ_lt_succ hk)
  · cases k with
    | zero => exact absurd hk (Nat.not_succ_le_zero m)
    | succ k => rw [hsucc, ← hfile']; exact h.final k (Nat.le_of_succ_le_succ hk)
  · exact Nat.lt_of_le_of_lt h.steps_le hless
  · have := h.pos_le
    omega
  · cases k with
    | zero => rw [hzero, hstop]; exact h.pos_le
    | succ k => rw [hsucc]; exact h.within k

theorem exists_readsThrough (text : List Char) (lx : Lexer) (htext : lx.rest = text.drop lx.pos) :
    ∃ m last, lx.ReadsThrough text m last := by
  induction hn : lx.rest.length using Nat.strongRecOn generalizing lx with
  | ind n ih =>
    subst hn
    have hstep := steps_next lx
    rcases hnext : lx.next with ⟨r, ly⟩
    rw [hnext] at hstep
    cases hstep with
    | eof => exact ⟨0, _, .nil htext hnext⟩
    | @lexeme gap c rest r hrest hr hspan herror =>
      have hpos := lexeme_length_pos c rest
      have htext' : text.drop (lx.pos + gap) = c :: rest := by
        rw [← List.drop_drop, ← htext, hrest]
      have hlength : text.length = lx.pos + gap + (rest.length + 1) := by
        have hdrop := congrArg List.length htext'
        simp only [List.length_drop, List.length_cons] at hdrop
        omega
      have hless : ((c :: rest).drop (Sable.lexeme c rest).length).length < lx.rest.length := by
        have hdrop := congrArg List.length hrest
        simp only [List.length_drop, List.length_cons] at hdrop ⊢
        omega
      have hbehind : (c :: rest).drop (Sable.lexeme c rest).length =
          text.drop (lx.pos + gap + (Sable.lexeme c rest).length) := by
        rw [← List.drop_drop, htext']
      obtain ⟨m, last, h⟩ := ih _ hless
        ⟨(c :: rest).drop (Sable.lexeme c rest).length,
          lx.pos + gap + (Sable.lexeme c rest).length, lx.file⟩ hbehind rfl
      refine ⟨m + 1, last, h.cons hnext (.lexeme hrest hr hspan herror) hr hless ?_⟩
      rcases lexeme_length_le_or_overruns c rest with hle | ⟨hover, hlong, hfails⟩
      · rcases h.last_eq with hlast | ⟨hlast, k, start, hk, hover, hread⟩
        · exact .inl (by simp only at hlast; omega)
        · refine .inr ⟨hlast, k + 1, start, by omega, hover, ?_⟩
          rw [← hread]
          exact congrArg (fun p : Except SyntaxError Token × Lexer => p.2.reading k) hnext
      · -- The literal reaches past the end, so nothing is left behind it.
        have hnil : (c :: rest).drop (Sable.lexeme c rest).length = [] :=
          List.drop_eq_nil_of_le (by simp [hlong])
        obtain rfl : m = 0 := by simpa [hnil] using h.steps_le
        have hlast : last = text.length + 1 := by
          rcases h.last_eq with hlast | ⟨hlast, -⟩
          · simp only at hlast
            omega
          · exact hlast
        have hspan' : readSpan r = ⟨lx.pos + gap, text.length + 1, lx.file⟩ := by
          rw [hspan, Span.mk.injEq]
          omega
        refine .inr ⟨hlast, 0, lx.pos + gap, rfl, ?_, ?_⟩
        · obtain ⟨raw, value, hraw, htail⟩ := hover
          exact ⟨raw, value, hraw, htext'.trans htail⟩
        · rw [reading, behind, hnext, ← hspan']
          exact herror _ (hfails _)

end Lexer

/--
Reading goes on behind errors and comes to the end. What is read lies one behind the other, every
step that does not read the end of the file takes characters, and after at most as many steps as
the text has characters the end of the file is read in one place for ever. All of it lies within
the text, unless the last step before the end reads an unterminated string literal with a
backslash at the end of the text that escapes the character which is not there.
-/
theorem reading_recovers (source : String) (file : Nat) :
    ∃ m ≤ source.length, ∃ last,
      (∀ k, (readSpan ((Lexer.ofSource source file).reading k)).file = file ∧
        (readSpan ((Lexer.ofSource source file).reading k)).start ≤
          (readSpan ((Lexer.ofSource source file).reading k)).stop ∧
        (readSpan ((Lexer.ofSource source file).reading k)).stop ≤ last ∧
        (readSpan ((Lexer.ofSource source file).reading k)).stop ≤
          (readSpan ((Lexer.ofSource source file).reading (k + 1))).start) ∧
      (∀ k < m, ¬ IsEof ((Lexer.ofSource source file).reading k) ∧
        ((Lexer.ofSource source file).behind (k + 1)).rest.length <
          ((Lexer.ofSource source file).behind k).rest.length) ∧
      (∀ k ≥ m, (Lexer.ofSource source file).reading k = .ok ⟨.eof, ⟨last, last, file⟩⟩) ∧
      (last = source.length ∨
        last = source.length + 1 ∧ ∃ k start, k + 1 = m ∧ Overruns source.toList start ∧
          (Lexer.ofSource source file).reading k =
            .error (.unterminatedString ⟨start, source.length + 1, file⟩)) := by
  obtain ⟨m, last, h⟩ :=
    Lexer.exists_readsThrough source.toList (Lexer.ofSource source file) List.drop_zero.symm
  have hlength : source.toList.length = source.length := String.length_toList
  refine ⟨m, hlength ▸ h.steps_le, last, fun k => ?_, h.progress, h.final, ?_⟩
  · obtain ⟨hfile, hle, hnext⟩ := h.ordered k
    exact ⟨hfile, hle, h.within k, hnext⟩
  · have hlast := h.last_eq
    rwa [hlength, show max (Lexer.ofSource source file).pos source.length = source.length from
      Nat.zero_max _] at hlast

/-- Behind an opening quote and a backslash, the end of the file is read past the end of the text. -/
example : (Lexer.ofSource "\"\\" 0).reading 1 = .ok ⟨.eof, ⟨3, 3, 0⟩⟩ := by decide +kernel

end Sable
