import Sable.Proofs.Token.Lexemes
import Sable.Proofs.Token.Spans
import Sable.Proofs.Token.Trivia

/-!
# Respacing a text

The words of a text lie one behind the other, with blanks and comments between them. A word is
read as its token wherever a blank or nothing follows it, whatever followed it in the text that
it was read from. So the words of a text, set apart by single blanks, are read as the same tokens
again, and each of them is read as its token when it stands alone.
-/

namespace Sable

/-! ### Words -/

theorem triviaLength_cons_eq_zero_iff {c : Char} {rest : List Char} :
    triviaLength .blank (c :: rest) = 0 ↔
      isBlank c = false ∧ ∀ d ∈ rest.head?, c = '/' → d ≠ '/' ∧ d ≠ '*' := by
  rw [triviaLength.eq_def]
  split
  · simp_all
  · simp_all
  · simp_all
  · next hline hblock _ heq =>
    obtain ⟨rfl, rfl⟩ := List.cons.inj heq
    have hhead : ∀ d ∈ rest.head?, c = '/' → d ≠ '/' ∧ d ≠ '*' := by
      intro d hd hc
      cases rest with
      | nil => simp at hd
      | cons r rest =>
        obtain rfl : r = d := by simpa using hd
        exact ⟨fun h => hline rest hc (by rw [h]), fun h => hblock rest hc (by rw [h])⟩
    cases isBlank c with
    | true => exact ⟨fun h => absurd h (Nat.succ_ne_zero _), fun h => absurd h.1 nofun⟩
    | false => exact ⟨fun _ => ⟨rfl, hhead⟩, fun _ => rfl⟩
  all_goals simp_all

/-- Where neither a blank nor a comment begins, none begins in front of a blank either. -/
theorem triviaLength_respaced {c : Char} {rest : List Char}
    (h : triviaLength .blank (c :: rest) = 0) (n : Nat) {follow : List Char}
    (hfollow : Breaks follow) : triviaLength .blank (c :: (rest.take n ++ follow)) = 0 := by
  obtain ⟨hc, hrest⟩ := triviaLength_cons_eq_zero_iff.mp h
  refine triviaLength_cons_eq_zero_iff.mpr ⟨hc, forall_head?_append (fun d hd => ?_) ?_⟩
  · cases rest with
    | nil => simp at hd
    | cons r rest =>
      cases n with
      | zero => simp at hd
      | succ n => exact hrest d hd
  · exact fun d hd _ => hfollow d hd ▸ by decide

/-- Characters that are read as one token wherever nothing or a blank follows them. -/
structure IsWord (word : List Char) (kind : TokenKind) : Prop where
  /-- The token is not the end of the file. -/
  ne_eof : kind ≠ .eof
  /-- There is at least one character. -/
  ne_nil : word ≠ []
  /-- The lexer reads the token and stops behind the characters. -/
  next_eq : ∀ {follow : List Char}, Breaks follow → ∀ pos file,
    (Lexer.mk (word ++ follow) pos file).next =
      (.ok ⟨kind, ⟨pos, pos + word.length, file⟩⟩, ⟨follow, pos + word.length, file⟩)

theorem Lexer.next_cons {c : Char} {rest : List Char} {kind : TokenKind} (pos file : Nat)
    (htrivia : triviaLength .blank (c :: rest) = 0)
    (hok : (lexeme c rest).outcome ⟨pos, pos + (lexeme c rest).length, file⟩ = .ok kind) :
    (Lexer.mk (c :: rest) pos file).next =
      (.ok ⟨kind, ⟨pos, pos + (lexeme c rest).length, file⟩⟩,
        ⟨(c :: rest).drop (lexeme c rest).length, pos + (lexeme c rest).length, file⟩) := by
  have hskip : (Lexer.mk (c :: rest) pos file).skipTrivia = ⟨c :: rest, pos, file⟩ := by
    simp only [Lexer.skipTrivia, Lexer.advance, htrivia, List.drop_zero, Nat.add_zero]
  simp only [Lexer.next, hskip, Lexer.spanOf, Lexer.advance, hok, Except.map]

theorem isWord_of_lexeme {c : Char} {rest : List Char} {kind : TokenKind} {span : Span}
    (htrivia : triviaLength .blank (c :: rest) = 0)
    (hok : (lexeme c rest).outcome span = .ok kind) :
    IsWord ((c :: rest).take (lexeme c rest).length) kind := by
  obtain ⟨n, hn⟩ := Nat.exists_eq_succ_of_ne_zero (lexeme_length_pos c rest).ne'
  have hlength : ((c :: rest).take (lexeme c rest).length).length = (lexeme c rest).length :=
    List.length_take_of_le (lexeme_length_le hok)
  refine ⟨?_, ?_, fun {follow} hfollow pos file => ?_⟩
  · rintro rfl
    exact Lexer.lexeme_ne_eof c rest span hok
  · simp [hn]
  · have hcons : (c :: rest).take (lexeme c rest).length ++ follow =
        c :: (rest.take ((lexeme c rest).length - 1) ++ follow) := by
      rw [hn]
      rfl
    have hsame := lexeme_respaced hok hfollow
    have hnext := Lexer.next_cons pos file
      (triviaLength_respaced htrivia ((lexeme c rest).length - 1) hfollow)
      (by rw [hsame]; exact steady_lexeme c rest _ hok)
    rw [hsame] at hnext
    have hdrop : (c :: (rest.take ((lexeme c rest).length - 1) ++ follow)).drop
        (lexeme c rest).length = follow := by
      rw [← hcons, List.drop_left' hlength]
    rw [hlength, hcons, hnext, hdrop]

/-! ### Texts as words and gaps -/

/-- Characters that consist of the words of some tokens and the gaps in front of them. -/
inductive Laid (file : Nat) : Nat → List Char → List Token → Prop
  /-- Behind the last word. -/
  | eof {pos : Nat} {gap : List Char} : Gap True gap →
    Laid file pos gap [⟨.eof, ⟨pos + gap.length, pos + gap.length, file⟩⟩]
  /-- A word with the gap in front of it. -/
  | word {pos : Nat} {gap word rest : List Char} {kind : TokenKind} {ts : List Token} :
    Gap False gap → IsWord word kind → Laid file (pos + gap.length + word.length) rest ts →
    Laid file pos (gap ++ (word ++ rest))
      (⟨kind, ⟨pos + gap.length, pos + gap.length + word.length, file⟩⟩ :: ts)

namespace Lexer

theorem length_take_triviaLength (lx : Lexer) :
    (lx.rest.take (triviaLength .blank lx.rest)).length = triviaLength .blank lx.rest :=
  List.length_take_of_le (triviaLength_le .blank lx.rest)

/-- One step reads a word with the gap in front of it, or the gap at the end. -/
theorem next_eq_word {lx ly : Lexer} {t : Token} (h : lx.next = (.ok t, ly)) :
    (Gap True lx.rest ∧
      t = ⟨.eof, ⟨lx.pos + lx.rest.length, lx.pos + lx.rest.length, lx.file⟩⟩) ∨
    ∃ gap word, lx.rest = gap ++ (word ++ ly.rest) ∧ Gap False gap ∧ IsWord word t.kind ∧
      t.span = ⟨lx.pos + gap.length, lx.pos + gap.length + word.length, lx.file⟩ ∧
      ly.pos = lx.pos + gap.length + word.length ∧ ly.file = lx.file := by
  have hgap := gap_take_triviaLength lx.rest
  have hstop := triviaLength_drop_triviaLength .blank lx.rest
  have hsplit := List.take_append_drop (triviaLength .blank lx.rest) lx.rest
  have hlength := lx.length_take_triviaLength
  simp only [next, skipTrivia, advance] at h
  cases hr : lx.rest.drop (triviaLength .blank lx.rest) with
  | nil =>
    rw [hr] at hgap hsplit
    rw [List.append_nil] at hsplit
    rw [hsplit] at hgap hlength
    simp only [hr, spanOf, Nat.add_zero, Prod.mk.injEq, Except.ok.injEq] at h
    refine Or.inl ⟨by simpa using hgap, ?_⟩
    rw [← h.1, hlength]
  | cons c rest =>
    rw [hr] at hgap hstop hsplit
    simp only [hr, Prod.mk.injEq] at h
    obtain ⟨ht, rfl⟩ := h
    cases ho : (lexeme c rest).outcome ⟨lx.pos + triviaLength .blank lx.rest,
        lx.pos + triviaLength .blank lx.rest + (lexeme c rest).length, lx.file⟩ with
    | error e => simp [spanOf, ho, Except.map] at ht
    | ok kind =>
      simp only [spanOf, ho, Except.map, Except.ok.injEq] at ht
      subst ht
      have hword := List.length_take_of_le (lexeme_length_le ho)
      refine Or.inr ⟨lx.rest.take (triviaLength .blank lx.rest),
        (c :: rest).take (lexeme c rest).length, ?_, by simpa using hgap,
        isWord_of_lexeme hstop ho, ?_, ?_, rfl⟩
      · rw [List.take_append_drop]
        exact hsplit.symm
      · rw [hlength, hword]
      · rw [hlength, hword]

theorem laid_tokensWithin {n : Nat} (lx : Lexer) {ts : List Token} (hn : lx.rest.length ≤ n)
    (h : lx.tokensWithin n = .ok ts) : Laid lx.file lx.pos lx.rest ts := by
  induction n generalizing lx ts with
  | zero =>
    have hr : lx.rest = [] := List.length_eq_zero_iff.mp (Nat.le_zero.mp hn)
    simp only [tokensWithin, next_of_rest_eq_nil hr, Except.map, Except.ok.injEq] at h
    rw [← h, hr]
    exact Laid.eof Gap.nil
  | succ n ih =>
    rw [tokensWithin] at h
    rcases hnext : lx.next with ⟨e | t, ly⟩
    · simp [hnext] at h
    · simp only [hnext] at h
      rcases next_eq_word hnext with
        ⟨hgap, rfl⟩ | ⟨gap, word, hrest, hgap, hword, hspan, hpos, hfile⟩
      · simp only [↓reduceIte, Except.ok.injEq] at h
        rw [← h]
        exact Laid.eof hgap
      · have hlength := congrArg List.length hrest
        have hpositive := List.length_pos_iff.mpr hword.ne_nil
        simp only [List.length_append] at hlength
        simp only [hword.ne_eof, ↓reduceIte] at h
        cases hts : ly.tokensWithin n with
        | error e => simp [hts, Except.map] at h
        | ok us =>
          simp only [hts, Except.map, Except.ok.injEq] at h
          have hus := ih ly (by omega) hts
          rw [hpos, hfile] at hus
          have ht : t = ⟨t.kind, ⟨lx.pos + gap.length, lx.pos + gap.length + word.length,
              lx.file⟩⟩ := by rw [← hspan]
          rw [← h, hrest, ht]
          exact Laid.word hgap hword hus

end Lexer

/-! ### Where words and gaps stand -/

/-- The characters of a span within a text. -/
def Span.slice (text : List Char) (s : Span) : List Char := text.extract s.start s.stop

/-- The end of the last of some tokens, or the position from which on they were read. -/
def endFrom (pos : Nat) (ts : List Token) : Nat := (ts.getLast?.map (·.span.stop)).getD pos

theorem endFrom_cons (pos : Nat) (t : Token) (ts : List Token) :
    endFrom pos (t :: ts) = endFrom t.span.stop ts := by
  rw [endFrom, endFrom, List.getLast?_cons]
  cases ts.getLast? <;> rfl

theorem drop_of_append {text xs ys : List Char} {pos : Nat} (h : text.drop pos = xs ++ ys) :
    text.drop (pos + xs.length) = ys := by
  rw [← List.drop_drop, h, List.drop_left]

theorem extract_of_append {text xs ys : List Char} {pos : Nat} (h : text.drop pos = xs ++ ys) :
    text.extract pos (pos + xs.length) = xs := by
  rw [List.extract_eq_take_drop, h, Nat.add_sub_cancel_left, List.take_left]

namespace Laid

variable {file pos : Nat} {cs text : List Char} {ts : List Token}

theorem bounds (h : Laid file pos cs ts) :
    ∀ t ∈ ts, pos ≤ t.span.start ∧ t.span.stop ≤ pos + cs.length := by
  induction h with
  | eof _ => simp
  | @word pos gap word rest kind ts _ _ _ ih =>
    refine List.forall_mem_cons.mpr ⟨?_, fun t ht => ?_⟩
    · simp only [List.length_append]
      omega
    · have := ih t ht
      simp only [List.length_append]
      omega

theorem disjoint (h : Laid file pos cs ts) :
    ts.Pairwise fun t u => t.span.stop ≤ u.span.start := by
  induction h with
  | eof _ => exact List.pairwise_singleton _ _
  | word _ _ hrest ih => exact List.pairwise_cons.mpr ⟨fun u hu => (hrest.bounds u hu).1, ih⟩

theorem final (h : Laid file pos cs ts) :
    ∃ init, ts = init ++ [⟨.eof, ⟨pos + cs.length, pos + cs.length, file⟩⟩] ∧
      ∀ t ∈ init, t.kind ≠ .eof ∧ t.span.start < t.span.stop := by
  induction h with
  | eof _ => exact ⟨[], rfl, by simp⟩
  | @word pos gap word rest kind ts _ hword _ ih =>
    obtain ⟨init, rfl, hinit⟩ := ih
    have hpositive := List.length_pos_iff.mpr hword.ne_nil
    refine ⟨⟨kind, ⟨pos + gap.length, pos + gap.length + word.length, file⟩⟩ :: init, ?_,
      List.forall_mem_cons.mpr ⟨⟨hword.ne_eof, by simpa using hpositive⟩, hinit⟩⟩
    simp [Nat.add_assoc]

theorem gaps (h : Laid file pos cs ts) (htext : text.drop pos = cs) {before after : List Token}
    {t : Token} (hts : ts = before ++ t :: after) :
    Gap (after = []) (text.extract (endFrom pos before) t.span.start) := by
  induction h generalizing before with
  | @eof pos gap hgap =>
    obtain ⟨rfl, rfl, rfl⟩ : before = [] ∧
        t = ⟨.eof, ⟨pos + gap.length, pos + gap.length, file⟩⟩ ∧ after = [] := by
      simpa [List.singleton_eq_append_iff] using hts
    have hextract := extract_of_append (htext.trans (List.append_nil gap).symm)
    simpa [endFrom, hextract] using hgap
  | @word pos gap word rest kind ts hgap _ hrest ih =>
    cases before with
    | nil =>
      obtain ⟨rfl, rfl⟩ := List.cons.inj hts
      obtain ⟨init, hinit, -⟩ := hrest.final
      have hafter : ts ≠ [] := by simp [hinit]
      have hextract := extract_of_append htext
      simpa [endFrom, hextract, hafter] using hgap
    | cons b before =>
      obtain ⟨rfl, hbehind⟩ := List.cons.inj hts
      rw [endFrom_cons]
      exact ih (drop_of_append (drop_of_append htext)) hbehind

theorem isWord (h : Laid file pos cs ts) (htext : text.drop pos = cs) :
    ∀ t ∈ ts, t.kind ≠ .eof → IsWord (t.span.slice text) t.kind := by
  induction h with
  | eof _ => simp
  | @word pos gap word rest kind ts _ hword _ ih =>
    have hbehind := drop_of_append htext
    refine List.forall_mem_cons.mpr ⟨fun _ => ?_, ih (drop_of_append hbehind)⟩
    rw [Span.slice, extract_of_append hbehind]
    exact hword

end Laid

/-! ### Words behind single blanks -/

/-- The words of some tokens, set apart by single blanks. -/
def respaced (text : List Char) (ts : List Token) : List Char :=
  [' '].intercalate (ts.map fun t => t.span.slice text)

namespace Lexer

theorem next_blank (cs : List Char) (pos file : Nat) :
    (Lexer.mk (' ' :: cs) pos file).next = (Lexer.mk cs (pos + 1) file).next := by
  have hlength : triviaLength .blank (' ' :: cs) = triviaLength .blank cs + 1 := by
    rw [triviaLength]
    · simp [isBlank]
    · exact fun _ h => absurd h (by decide)
    · exact fun _ h => absurd h (by decide)
  have hskip : (Lexer.mk (' ' :: cs) pos file).skipTrivia =
      (Lexer.mk cs (pos + 1) file).skipTrivia := by
    simp only [skipTrivia, advance, hlength, List.drop_succ_cons, Lexer.mk.injEq, true_and,
      and_true]
    omega
  simp only [next, hskip]

/-- A blank in front of a text only moves its tokens. -/
theorem tokens_blank (cs : List Char) (pos file : Nat) :
    (Lexer.mk (' ' :: cs) pos file).tokens = (Lexer.mk cs (pos + 1) file).tokens := by
  rw [tokens_eq, tokens_eq, next_blank]

theorem tokens_nil (pos file : Nat) :
    (Lexer.mk [] pos file).tokens = .ok [⟨.eof, ⟨pos, pos, file⟩⟩] := by
  rw [tokens_eq, next_of_rest_eq_nil rfl]
  rfl

theorem tokens_word {word follow : List Char} {kind : TokenKind} (hword : IsWord word kind)
    (hfollow : Breaks follow) (pos file : Nat) :
    (Lexer.mk (word ++ follow) pos file).tokens =
      (Lexer.mk follow (pos + word.length) file).tokens.map
        (⟨kind, ⟨pos, pos + word.length, file⟩⟩ :: ·) := by
  rw [tokens_eq, hword.next_eq hfollow]
  simp only [hword.ne_eof, ↓reduceIte]

end Lexer

theorem tokenize_word {word : List Char} {kind : TokenKind} (h : IsWord word kind) (file : Nat) :
    tokenize (String.ofList word) file = .ok [⟨kind, ⟨0, word.length, file⟩⟩,
      ⟨.eof, ⟨word.length, word.length, file⟩⟩] := by
  have htokens := Lexer.tokens_word h breaks_nil 0 file
  rw [List.append_nil, Lexer.tokens_nil, Nat.zero_add] at htokens
  rw [tokenize, Lexer.ofSource, String.toList_ofList, htokens]
  rfl

/-- Words behind single blanks are read as their tokens, wherever they stand. -/
theorem Laid.tokens_respaced {file pos : Nat} {cs text : List Char} {ts : List Token}
    (h : Laid file pos cs ts) (htext : text.drop pos = cs) (pos' file' : Nat) :
    ∃ ts', (Lexer.mk (respaced text ts) pos' file').tokens = .ok ts' ∧
      ts'.map Token.kind = ts.map Token.kind := by
  induction h generalizing pos' with
  | @eof pos gap _ =>
    have hslice : Span.slice text ⟨pos + gap.length, pos + gap.length, file⟩ = [] := by
      simp [Span.slice, List.extract_eq_take_drop]
    refine ⟨[⟨.eof, ⟨pos', pos', file'⟩⟩], ?_, rfl⟩
    rw [respaced, List.map_singleton, hslice]
    exact Lexer.tokens_nil pos' file'
  | @word pos gap word rest kind ts _ hword hrest ih =>
    have hbehind := drop_of_append htext
    obtain ⟨init, hinit, -⟩ := hrest.final
    have hne : ts.map (fun t => t.span.slice text) ≠ [] := by simp [hinit]
    obtain ⟨ts', hts', hkinds⟩ := ih (drop_of_append hbehind) (pos' + word.length + 1)
    refine ⟨⟨kind, ⟨pos', pos' + word.length, file'⟩⟩ :: ts', ?_, by simp [hkinds]⟩
    have htail := Lexer.tokens_word hword (breaks_blank (respaced text ts)) pos' file'
    rw [Lexer.tokens_blank, hts'] at htail
    rw [respaced, List.map_cons, List.intercalate_cons_of_ne_nil hne, Span.slice,
      extract_of_append hbehind, List.append_assoc]
    exact htail

/-! ### Tokens of a text -/

/-- How tokens stand in the text that they were read from. -/
structure WellSpaced (text : List Char) (file : Nat) (ts : List Token) : Prop where
  /-- The last token is the end of the file, and all before it take characters. -/
  final : ∃ init, ts = init ++ [⟨.eof, ⟨text.length, text.length, file⟩⟩] ∧
    ∀ t ∈ init, t.kind ≠ .eof ∧ t.span.start < t.span.stop
  /-- The tokens lie within the text. -/
  within : ∀ t ∈ ts, t.span.file = file ∧ t.span.stop ≤ text.length
  /-- Each token ends in front of those behind it. -/
  disjoint : ts.Pairwise fun t u => t.span.stop ≤ u.span.start
  /-- Blanks and comments stand between a token and the one before, or the start of the text. -/
  gaps : ∀ before t after, ts = before ++ t :: after →
    Gap (after = []) (text.extract (endFrom 0 before) t.span.start)
  /-- Every word alone is read as its token. -/
  alone : ∀ t ∈ ts, t.kind ≠ .eof → ∀ file',
    tokenize (String.ofList (t.span.slice text)) file' =
      .ok [⟨t.kind, ⟨0, (t.span.slice text).length, file'⟩⟩,
        ⟨.eof, ⟨(t.span.slice text).length, (t.span.slice text).length, file'⟩⟩]
  /-- The words behind single blanks are read as the same tokens. -/
  respaced : ∀ file', ∃ ts', tokenize (String.ofList (respaced text ts)) file' = .ok ts' ∧
    ts'.map Token.kind = ts.map Token.kind

/--
The tokens of a text do not depend on the blanks and comments between them: nothing else stands
there, and the words of the text are read as the same tokens behind single blanks, or alone.
-/
theorem tokenize_wellSpaced {text : String} {file : Nat} {ts : List Token}
    (h : tokenize text file = .ok ts) : WellSpaced text.toList file ts := by
  have hlaid : Laid file 0 text.toList ts :=
    Lexer.laid_tokensWithin (.ofSource text file) (Nat.le_refl _) h
  have htext : text.toList.drop 0 = text.toList := List.drop_zero
  have hordered := ordered_tokenize h
  refine ⟨?_, fun t ht => ⟨hordered.file t ht, ?_⟩, hlaid.disjoint,
    fun before t after hts => hlaid.gaps htext hts,
    fun t ht hk file' => tokenize_word (hlaid.isWord htext t ht hk) file', fun file' => ?_⟩
  · simpa using hlaid.final
  · simpa using (hlaid.bounds t ht).2
  · rw [tokenize, Lexer.ofSource, String.toList_ofList]
    exact hlaid.tokens_respaced htext 0 file'

/-- A comment stands between the first two of these words, and none between the others. -/
theorem tokenize_commented :
    tokenize "x/*c*/=1" 0 = .ok [⟨.ident "x", ⟨0, 1, 0⟩⟩, ⟨.punct .eq, ⟨6, 7, 0⟩⟩,
      ⟨.int 1, ⟨7, 8, 0⟩⟩, ⟨.eof, ⟨8, 8, 0⟩⟩] := by
  decide +kernel

/-- The words `x`, `=` and `1` are read as their tokens without the comment as well. -/
theorem wellSpaced_commented :
    WellSpaced "x/*c*/=1".toList 0 [⟨.ident "x", ⟨0, 1, 0⟩⟩, ⟨.punct .eq, ⟨6, 7, 0⟩⟩,
      ⟨.int 1, ⟨7, 8, 0⟩⟩, ⟨.eof, ⟨8, 8, 0⟩⟩] :=
  tokenize_wellSpaced tokenize_commented

end Sable
