import Mathlib.Data.List.Forall2
import Mathlib.Logic.Relator
import Sable.Token.Lexer

/-!
# Where tokens stand

The kinds of the tokens of a text are the same in whichever file the text stands. Their spans
lie in that file, each one behind the one before, so the span of a token tells it apart from
all others of its file. Two texts with tokens of the same kinds therefore have spans that
correspond one to one: token by token.
-/

namespace Sable

/-- Whether a lexeme is a token, and which, does not depend on where it stands. -/
def Lexeme.Steady (w : Lexeme) : Prop :=
  ∀ {kind span} span', w.outcome span = .ok kind → w.outcome span' = .ok kind

theorem steady_token (kind : TokenKind) (length : Nat) : (Lexeme.token kind length).Steady :=
  fun _ h => h

theorem steady_numberLexeme (cs : List Char) : (numberLexeme cs).Steady := by
  intro kind span span' h
  simp only [numberLexeme] at h ⊢
  split at h
  · exact h
  · simp at h

theorem steady_stringLexeme (cs : List Char) : (stringLexeme cs).Steady := by
  intro kind span span' h
  simp only [stringLexeme] at h ⊢
  split at h
  · exact h
  · simp at h

theorem steady_lexeme (c : Char) (rest : List Char) : (lexeme c rest).Steady := by
  unfold lexeme
  split
  · exact steady_token _ _
  split
  · exact steady_numberLexeme _
  split
  · exact steady_stringLexeme _
  split
  · exact steady_token _ _
  · exact steady_token _ _

/-- Tokens of one file that stand one behind the other, from a position on. -/
structure Ordered (file pos : Nat) (ts : List Token) : Prop where
  /-- All of them stand in the file. -/
  file : ∀ t ∈ ts, t.span.file = file
  /-- None of them stands in front of the position. -/
  start : ∀ t ∈ ts, pos ≤ t.span.start
  /-- Each one starts behind the start of those before it. -/
  increasing : ts.Pairwise fun t u => t.span.start < u.span.start
  /-- All but the end of the file take characters. -/
  nonempty : ∀ t ∈ ts, t.kind ≠ .eof → t.span.start < t.span.stop

namespace Lexer

/-- A token is read behind what was read before, and reading goes on behind it. -/
theorem next_span {lx ly : Lexer} {t : Token} (h : lx.next = (.ok t, ly)) :
    t.span.file = lx.file ∧ ly.file = lx.file ∧ lx.pos ≤ t.span.start ∧ t.span.stop = ly.pos ∧
      (t.kind ≠ .eof → t.span.start < t.span.stop) := by
  have hpos : lx.pos ≤ lx.skipTrivia.pos := Nat.le_add_right _ _
  have hfile : lx.skipTrivia.file = lx.file := rfl
  unfold next at h
  generalize lx.skipTrivia = lz at h hpos hfile
  cases hr : lz.rest with
  | nil =>
    simp only [hr, Prod.mk.injEq, Except.ok.injEq] at h
    obtain ⟨rfl, rfl⟩ := h
    exact ⟨hfile, hfile, hpos, Nat.add_zero _, fun hk => absurd rfl hk⟩
  | cons c rest =>
    have hlength := lexeme_length_pos c rest
    simp only [hr, Prod.mk.injEq] at h
    obtain ⟨ht, rfl⟩ := h
    cases ho : (lexeme c rest).outcome (lz.spanOf (lexeme c rest).length) with
    | error e => simp [ho, Except.map] at ht
    | ok kind =>
      simp only [ho, Except.map, Except.ok.injEq] at ht
      subst ht
      exact ⟨hfile, hfile, hpos, rfl, fun _ => Nat.lt_add_of_pos_right hlength⟩

/-- Lexers in front of the same characters read tokens of the same kind. -/
theorem next_of_rest_eq {lx ly lx' : Lexer} {t : Token} (hrest : ly.rest = lx.rest)
    (h : lx.next = (.ok t, lx')) :
    ∃ t' ly', ly.next = (.ok t', ly') ∧ t'.kind = t.kind ∧ ly'.rest = lx'.rest := by
  have hskip : ly.skipTrivia.rest = lx.skipTrivia.rest := by
    simp only [skipTrivia, advance, hrest]
  unfold next at h ⊢
  generalize lx.skipTrivia = lz at h hskip
  generalize ly.skipTrivia = ly at hskip ⊢
  simp only [hskip]
  cases hr : lz.rest with
  | nil =>
    simp only [hr, Prod.mk.injEq, Except.ok.injEq] at h
    obtain ⟨rfl, rfl⟩ := h
    exact ⟨_, _, rfl, rfl, hskip⟩
  | cons c rest =>
    simp only [hr, Prod.mk.injEq] at h
    obtain ⟨ht, rfl⟩ := h
    cases ho : (lexeme c rest).outcome (lz.spanOf (lexeme c rest).length) with
    | error e => simp [ho, Except.map] at ht
    | ok kind =>
      simp only [ho, Except.map, Except.ok.injEq] at ht
      have ho' := steady_lexeme c rest (ly.spanOf (lexeme c rest).length) ho
      refine ⟨⟨kind, ly.spanOf (lexeme c rest).length⟩, ly.advance (lexeme c rest).length,
        ?_, by rw [← ht], ?_⟩
      · simp only [ho', Except.map]
      · simp only [advance, hskip]

/-- Lexers in front of the same characters read tokens of the same kinds. -/
theorem tokensWithin_of_rest_eq {n : Nat} (lx ly : Lexer) {ts : List Token}
    (hrest : ly.rest = lx.rest) (h : lx.tokensWithin n = .ok ts) :
    ∃ ts', ly.tokensWithin n = .ok ts' ∧ ts'.map Token.kind = ts.map Token.kind := by
  induction n generalizing lx ly ts with
  | zero =>
    rw [tokensWithin] at h ⊢
    rcases hn : lx.next with ⟨e | t, lx'⟩
    · simp [hn, Except.map] at h
    · obtain ⟨t', ly', hn', hk, _⟩ := next_of_rest_eq hrest hn
      simp only [hn, Except.map, Except.ok.injEq] at h
      exact ⟨[t'], by simp only [hn', Except.map], by rw [← h]; simp [hk]⟩
  | succ n ih =>
    rw [tokensWithin] at h ⊢
    rcases hn : lx.next with ⟨e | t, lx'⟩
    · simp [hn] at h
    · obtain ⟨t', ly', hn', hk, hrest'⟩ := next_of_rest_eq hrest hn
      simp only [hn, hn', hk] at h ⊢
      by_cases heof : t.kind = .eof
      · simp only [heof, ↓reduceIte, Except.ok.injEq] at h ⊢
        exact ⟨[t'], rfl, by rw [← h]; simp [hk]⟩
      · simp only [heof, ↓reduceIte] at h ⊢
        cases hts : lx'.tokensWithin n with
        | error e => simp [hts, Except.map] at h
        | ok us =>
          obtain ⟨us', hus', hkinds⟩ := ih _ _ hrest' hts
          simp only [hts, Except.map, Except.ok.injEq] at h
          exact ⟨t' :: us', by simp only [hus', Except.map], by rw [← h]; simp [hk, hkinds]⟩

/-- The tokens that are read stand one behind the other, from where reading starts. -/
theorem ordered_tokensWithin {n : Nat} (lx : Lexer) {ts : List Token}
    (h : lx.tokensWithin n = .ok ts) : Ordered lx.file lx.pos ts := by
  have one : ∀ {lx ly : Lexer} {t : Token}, lx.next = (.ok t, ly) →
      Ordered lx.file lx.pos [t] := by
    intro lx ly t hn
    obtain ⟨hfile, -, hstart, -, hnonempty⟩ := next_span hn
    exact ⟨by simpa using hfile, by simpa using hstart, List.pairwise_singleton _ _,
      by simpa using hnonempty⟩
  induction n generalizing lx ts with
  | zero =>
    rw [tokensWithin] at h
    rcases hn : lx.next with ⟨e | t, ly⟩
    · simp [hn, Except.map] at h
    · simp only [hn, Except.map, Except.ok.injEq] at h
      exact h ▸ one hn
  | succ n ih =>
    rw [tokensWithin] at h
    rcases hn : lx.next with ⟨e | t, ly⟩
    · simp [hn] at h
    · simp only [hn] at h
      by_cases heof : t.kind = .eof
      · simp only [heof, ↓reduceIte, Except.ok.injEq] at h
        exact h ▸ one hn
      · simp only [heof, ↓reduceIte] at h
        cases hts : ly.tokensWithin n with
        | error e => simp [hts, Except.map] at h
        | ok us =>
          simp only [hts, Except.map, Except.ok.injEq] at h
          obtain ⟨hfile, hfile', hstart, hstop, hnonempty⟩ := next_span hn
          have hus := ih _ hts
          have hlt := hnonempty heof
          rw [← h]
          refine ⟨List.forall_mem_cons.mpr ⟨hfile, fun u hu => (hus.file u hu).trans hfile'⟩,
            List.forall_mem_cons.mpr ⟨hstart, fun u hu => ?_⟩,
            List.pairwise_cons.mpr ⟨fun u hu => ?_, hus.increasing⟩,
            List.forall_mem_cons.mpr ⟨hnonempty, hus.nonempty⟩⟩
          · have := hus.start u hu
            omega
          · have := hus.start u hu
            omega

end Lexer

/-- A text has tokens of the same kinds in whichever file it stands. -/
theorem tokenize_refile {text : String} {file : Nat} {ts : List Token}
    (h : tokenize text file = .ok ts) (file' : Nat) :
    ∃ ts', tokenize text file' = .ok ts' ∧ ts'.map Token.kind = ts.map Token.kind :=
  Lexer.tokensWithin_of_rest_eq (.ofSource text file) (.ofSource text file') rfl h

/-- The tokens of a text stand one behind the other in its file. -/
theorem ordered_tokenize {text : String} {file : Nat} {ts : List Token}
    (h : tokenize text file = .ok ts) : Ordered file 0 ts :=
  Lexer.ordered_tokensWithin (.ofSource text file) h

/-! ### Texts with the same tokens -/

/-- Two texts are read as tokens of the same kinds: they differ in blanks and comments only. -/
def SameTokens (text text' : String) : Prop :=
  ∃ ts ts', tokenize text 0 = .ok ts ∧ tokenize text' 0 = .ok ts' ∧
    ts.map Token.kind = ts'.map Token.kind

/-- Two texts with the same tokens have them in whichever file they stand. -/
theorem SameTokens.refile {text text' : String} (h : SameTokens text text') (file : Nat) :
    ∃ ts ts', tokenize text file = .ok ts ∧ tokenize text' file = .ok ts' ∧
      ts.map Token.kind = ts'.map Token.kind := by
  obtain ⟨us, us', hus, hus', hkinds⟩ := h
  obtain ⟨ts, hts, hk⟩ := tokenize_refile hus file
  obtain ⟨ts', hts', hk'⟩ := tokenize_refile hus' file
  exact ⟨ts, ts', hts, hts', by rw [hk, hk', hkinds]⟩

/-- Two spans belong to tokens in the same place of two lists, but not to the end of a file. -/
def Corresponds (ts ts' : List Token) (x y : Span) : Prop :=
  ∃ (k : Nat) (t t' : Token), ts[k]? = some t ∧ ts'[k]? = some t' ∧ t.kind ≠ .eof ∧
    t'.kind ≠ .eof ∧ t.span = x ∧ t'.span = y

/-- The span of a token tells it apart from all others of its file. -/
theorem Ordered.eq_of_span_eq {file pos i j : Nat} {ts : List Token} {t u : Token}
    (h : Ordered file pos ts) (hi : ts[i]? = some t) (hj : ts[j]? = some u)
    (hspan : t.span = u.span) : i = j := by
  obtain ⟨hli, rfl⟩ := List.getElem?_eq_some_iff.mp hi
  obtain ⟨hlj, rfl⟩ := List.getElem?_eq_some_iff.mp hj
  have hlt := List.pairwise_iff_getElem.mp h.increasing
  have hstart : ts[i].span.start = ts[j].span.start := by rw [hspan]
  rcases Nat.lt_trichotomy i j with hij | hij | hij
  · have := hlt i j hli hlj hij
    omega
  · exact hij
  · have := hlt j i hlj hli hij
    omega

/-- The spans of the tokens of two texts correspond one to one. -/
theorem biUnique_corresponds {file file' pos pos' : Nat} {ts ts' : List Token}
    (h : Ordered file pos ts) (h' : Ordered file' pos' ts') :
    Relator.BiUnique (Corresponds ts ts') := by
  constructor
  · rintro x y z ⟨i, t, u, ht, hu, -, -, rfl, rfl⟩ ⟨j, t', u', ht', hu', -, -, rfl, hspan⟩
    obtain rfl := h'.eq_of_span_eq hu hu' hspan.symm
    rw [Option.some.inj (ht.symm.trans ht')]
  · rintro x y z ⟨i, t, u, ht, hu, -, -, rfl, rfl⟩ ⟨j, t', u', ht', hu', -, -, hspan, rfl⟩
    obtain rfl := h.eq_of_span_eq ht ht' hspan.symm
    rw [Option.some.inj (hu.symm.trans hu')]

/-- A span that belongs to a token lies in the file of the tokens and takes characters. -/
theorem Corresponds.span {file file' pos pos' : Nat} {ts ts' : List Token} {x y : Span}
    (hxy : Corresponds ts ts' x y) (h : Ordered file pos ts) (h' : Ordered file' pos' ts') :
    (x.file = file ∧ x.start < x.stop) ∧ y.file = file' ∧ y.start < y.stop := by
  obtain ⟨k, t, t', ht, ht', hk, hk', rfl, rfl⟩ := hxy
  have hmem := List.mem_of_getElem? ht
  have hmem' := List.mem_of_getElem? ht'
  exact ⟨⟨h.file t hmem, h.nonempty t hmem hk⟩, h'.file t' hmem', h'.nonempty t' hmem' hk'⟩

/-- Lists of tokens of the same kinds hold tokens with corresponding spans side by side. -/
theorem forall₂_corresponds {ts ts' : List Token}
    (h : ts.map Token.kind = ts'.map Token.kind) :
    List.Forall₂ (fun t t' => t.kind = t'.kind ∧
      (t.kind ≠ .eof → Corresponds ts ts' t.span t'.span)) ts ts' := by
  have hlength : ts.length = ts'.length := by simpa using congrArg List.length h
  have hkind : ∀ i (hi : i < ts.length) (hi' : i < ts'.length), ts[i].kind = ts'[i].kind := by
    intro i hi hi'
    have := congrArg (·[i]?) h
    simpa [hi, hi'] using this
  refine List.forall₂_iff_get.mpr ⟨hlength, fun i hi hi' => ⟨hkind i hi hi', fun hk => ?_⟩⟩
  refine ⟨i, ts[i], ts'[i], List.getElem?_eq_getElem hi, List.getElem?_eq_getElem hi', hk, ?_,
    rfl, rfl⟩
  exact fun hk' => hk ((hkind i hi hi').trans hk')

end Sable
