import Sable.Proofs.Token.Respacing

/-!
# String literals

Behind its opening quote a string literal is a row of contents: single characters, and pairs of a
backslash with the character it escapes. The row ends at the first quote that is not escaped,
unless a newline that is not escaped, or the end of the text, comes first. So a string that is
written with its quotes, backslashes and newlines escaped is read back as it was.
-/

namespace Sable

/-! ### Contents of a literal -/

/-- Raw contents of a literal, with the characters that they stand for. -/
inductive Decodes : List Char → List Char → Prop
  /-- Nothing. -/
  | nil : Decodes [] []
  /-- A character that stands for itself. -/
  | plain {c : Char} {raw value : List Char} : c ≠ '"' → c ≠ '\n' → c ≠ '\\' →
    Decodes raw value → Decodes (c :: raw) (c :: value)
  /-- A backslash and the character behind it, whichever it is. -/
  | escape {c : Char} {raw value : List Char} :
    Decodes raw value → Decodes ('\\' :: c :: raw) (unescape c :: value)

/-- What reading the characters behind an opening quote comes to. -/
inductive BodyRead : List Char → Option (List Char) × Nat → Prop
  /-- The closing quote is found. -/
  | closed {raw value : List Char} (rest : List Char) : Decodes raw value →
    BodyRead (raw ++ '"' :: rest) (some value, raw.length + 1)
  /-- The line ends first. -/
  | line {raw value : List Char} (rest : List Char) : Decodes raw value →
    BodyRead (raw ++ '\n' :: rest) (none, raw.length)
  /-- The text ends first. -/
  | last {raw value : List Char} : Decodes raw value → BodyRead raw (none, raw.length)
  /-- The text ends behind a backslash, which takes one character more than there is. -/
  | dangling {raw value : List Char} : Decodes raw value →
    BodyRead (raw ++ ['\\']) (none, raw.length + 2)

theorem BodyRead.plain {c : Char} {cs : List Char} {contents : Option (List Char)} {n : Nat}
    (hquote : c ≠ '"') (hline : c ≠ '\n') (hescape : c ≠ '\\') (h : BodyRead cs (contents, n)) :
    BodyRead (c :: cs) (contents.map (c :: ·), n + 1) := by
  cases h with
  | closed rest hraw => exact .closed rest (.plain hquote hline hescape hraw)
  | line rest hraw => exact .line rest (.plain hquote hline hescape hraw)
  | last hraw => exact .last (.plain hquote hline hescape hraw)
  | dangling hraw => exact .dangling (.plain hquote hline hescape hraw)

theorem BodyRead.escape (c : Char) {cs : List Char} {contents : Option (List Char)} {n : Nat}
    (h : BodyRead cs (contents, n)) :
    BodyRead ('\\' :: c :: cs) (contents.map (unescape c :: ·), n + 2) := by
  cases h with
  | closed rest hraw => exact .closed rest (.escape hraw)
  | line rest hraw => exact .line rest (.escape hraw)
  | last hraw => exact .last (.escape hraw)
  | dangling hraw => exact .dangling (.escape hraw)

theorem bodyRead_stringBody (cs : List Char) : BodyRead cs (stringBody cs) := by
  fun_induction stringBody cs with
  | case1 => exact .last .nil
  | case2 rest => exact .closed rest .nil
  | case3 rest => exact .line rest .nil
  | case4 => exact .dangling .nil
  | case5 c rest contents n hbody ih => exact (hbody ▸ ih).escape c
  | case6 c rest hquote hline hlast hescape contents n hbody ih =>
    have hescape' : c ≠ '\\' := by
      rintro rfl
      cases rest with
      | nil => exact hlast rfl rfl
      | cons d ds => exact hescape d ds rfl rfl
    exact (hbody ▸ ih).plain hquote hline hescape'

/-- The contents of a literal end at the quote behind them. -/
theorem Decodes.stringBody_append {raw value : List Char} (h : Decodes raw value)
    (rest : List Char) : stringBody (raw ++ '"' :: rest) = (some value, raw.length + 1) := by
  induction h with
  | nil => rfl
  | plain hquote hline hescape _ ih =>
    rw [List.cons_append, stringBody_cons hquote hline hescape, ih]
    rfl
  | escape _ ih =>
    simp only [List.cons_append, stringBody, ih]
    rfl

/-! ### Escaped characters -/

/-- Whether the character behind these is escaped: the last is a backslash that is not. -/
def escapesNext (cs : List Char) : Bool :=
  cs.foldl (fun escaped c => !escaped && c == '\\') false

/-- The character that stands at a place and is not escaped. -/
def Unescaped (cs : List Char) (i : Nat) (c : Char) : Prop :=
  cs[i]? = some c ∧ escapesNext (cs.take i) = false

theorem escapesNext_cons {c : Char} (hc : c ≠ '\\') (cs : List Char) :
    escapesNext (c :: cs) = escapesNext cs := by
  have hc' : (c == '\\') = false := beq_eq_false_iff_ne.mpr hc
  simp only [escapesNext, List.foldl_cons, hc', Bool.and_false]

theorem escapesNext_escape (c : Char) (cs : List Char) :
    escapesNext ('\\' :: c :: cs) = escapesNext cs := by
  simp [escapesNext]

namespace Decodes

variable {raw value : List Char}

theorem escapesNext_eq_false (h : Decodes raw value) : escapesNext raw = false := by
  induction h with
  | nil => rfl
  | plain _ _ hescape _ ih => rw [escapesNext_cons hescape, ih]
  | escape _ ih => rw [escapesNext_escape, ih]

/-- The character behind the contents of a literal is not escaped. -/
theorem unescaped (h : Decodes raw value) (c : Char) (rest : List Char) :
    Unescaped (raw ++ c :: rest) raw.length c := by
  refine ⟨by simp, ?_⟩
  rw [List.take_left, h.escapesNext_eq_false]

/-- The contents of a literal hold no quote and no newline that is not escaped. -/
theorem free (h : Decodes raw value) {rest : List Char} {i : Nat} {c : Char}
    (hi : i < raw.length) (hc : Unescaped (raw ++ rest) i c) : c ≠ '"' ∧ c ≠ '\n' := by
  induction h generalizing i with
  | nil => simp at hi
  | @plain d raw value hquote hline hescape _ ih =>
    cases i with
    | zero =>
      obtain rfl : d = c := by simpa [Unescaped] using hc.1
      exact ⟨hquote, hline⟩
    | succ i =>
      refine ih (Nat.lt_of_succ_lt_succ hi) ⟨by simpa using hc.1, ?_⟩
      simpa [escapesNext_cons hescape] using hc.2
  | @escape d raw value _ ih =>
    match i with
    | 0 =>
      obtain rfl : '\\' = c := by simpa [Unescaped] using hc.1
      decide
    | 1 => exact absurd hc.2 (by simp [escapesNext])
    | i + 2 =>
      refine ih (by simpa using hi) ⟨by simpa using hc.1, ?_⟩
      simpa [escapesNext_escape] using hc.2

/-- The contents of a literal reach no further than to the first place of either kind. -/
theorem length_le (h : Decodes raw value) {rest : List Char} {i : Nat} {c : Char}
    (hc : Unescaped (raw ++ rest) i c) (hend : c = '"' ∨ c = '\n') : raw.length ≤ i := by
  by_contra hi
  obtain ⟨hquote, hline⟩ := h.free (Nat.lt_of_not_le hi) hc
  exact hend.elim hquote hline

end Decodes

/-- The first quote that is not escaped. -/
def FirstQuote (cs : List Char) (i : Nat) : Prop :=
  Unescaped cs i '"' ∧ ∀ j < i, ¬ Unescaped cs j '"'

/-- The end of the text, or a newline that is not escaped, comes before such a quote. -/
def Unclosed (cs : List Char) : Prop :=
  (∀ i, ¬ Unescaped cs i '"') ∨ ∃ j, Unescaped cs j '\n' ∧ ∀ i < j, ¬ Unescaped cs i '"'

theorem Decodes.firstQuote {raw value : List Char} (h : Decodes raw value) (rest : List Char) :
    FirstQuote (raw ++ '"' :: rest) raw.length :=
  ⟨h.unescaped '"' rest, fun _ hj hquote => Nat.not_lt.mpr (h.length_le hquote (.inl rfl)) hj⟩

/-- A literal with a closing quote is not unclosed. -/
theorem Decodes.not_unclosed {raw value : List Char} (h : Decodes raw value) (rest : List Char) :
    ¬ Unclosed (raw ++ '"' :: rest) := by
  rintro (hnone | ⟨j, hline, hnone⟩)
  · exact hnone _ (h.unescaped '"' rest)
  · rcases Nat.lt_or_eq_of_le (h.length_le hline (.inr rfl)) with hj | rfl
    · exact hnone _ hj (h.unescaped '"' rest)
    · exact absurd (hline.1.symm.trans (h.unescaped '"' rest).1) (by decide)

/-- A literal has contents exactly if it is not unclosed. -/
theorem isNone_stringBody_iff (cs : List Char) : (stringBody cs).1 = none ↔ Unclosed cs := by
  have hread := bodyRead_stringBody cs
  generalize stringBody cs = read at hread
  cases hread with
  | closed rest hraw => exact iff_of_false nofun (hraw.not_unclosed rest)
  | @line raw _ rest hraw =>
    refine iff_of_true rfl (.inr ⟨raw.length, hraw.unescaped '\n' rest, fun i hi hquote => ?_⟩)
    exact Nat.not_lt.mpr (hraw.length_le hquote (.inl rfl)) hi
  | last hraw =>
    refine iff_of_true rfl (.inl fun i hquote => ?_)
    obtain ⟨hi, -⟩ := List.getElem?_eq_some_iff.mp hquote.1
    rw [← List.append_nil cs] at hquote
    exact Nat.not_lt.mpr (hraw.length_le hquote (.inl rfl)) hi
  | @dangling raw _ hraw =>
    refine iff_of_true rfl (.inl fun i hquote => ?_)
    -- The backslash itself is the only character behind the contents.
    obtain ⟨hi, -⟩ := List.getElem?_eq_some_iff.mp hquote.1
    have hle := hraw.length_le hquote (.inl rfl)
    obtain rfl : i = raw.length := by
      simp only [List.length_append, List.length_singleton] at hi
      omega
    exact absurd (hquote.1.symm.trans (hraw.unescaped '\\' []).1) (by decide)

/-! ### Writing and reading -/

/-- A character as it is written between quotes. -/
def escapeChar : Char → List Char
  | '"' => ['\\', '"']
  | '\\' => ['\\', '\\']
  | '\n' => ['\\', 'n']
  | c => [c]

/-- A string as it is written in a source text. -/
def quoteLiteral (value : String) : String :=
  String.ofList ('"' :: (value.toList.flatMap escapeChar ++ ['"']))

theorem Decodes.escapeChar_append (c : Char) {raw value : List Char} (h : Decodes raw value) :
    Decodes (escapeChar c ++ raw) (c :: value) := by
  unfold escapeChar
  split
  · exact .escape h
  · exact .escape h
  · exact .escape h
  · next hquote hescape hline => exact .plain hquote hline hescape h

theorem decodes_flatMap_escapeChar (value : List Char) : Decodes (value.flatMap escapeChar) value := by
  induction value with
  | nil => exact .nil
  | cons c value ih =>
    rw [List.flatMap_cons]
    exact ih.escapeChar_append c

/-- A literal with a closing quote is read as one token wherever it stands. -/
theorem Decodes.isWord {raw value : List Char} (h : Decodes raw value) :
    IsWord ('"' :: (raw ++ ['"'])) (.string (String.ofList value)) := by
  have hread : lexeme '"' (raw ++ ['"']) =
      .token (.string (String.ofList value)) (raw.length + 2) := by
    rw [lexeme_quote, stringLexeme, h.stringBody_append []]
    rfl
  have htrivia : triviaLength .blank ('"' :: (raw ++ ['"'])) = 0 :=
    triviaLength_cons_eq_zero_iff.mpr ⟨by decide, fun _ _ hc => absurd hc (by decide)⟩
  have hok : (lexeme '"' (raw ++ ['"'])).outcome .nowhere =
      .ok (.string (String.ofList value)) := by
    rw [hread]
    rfl
  have hword := isWord_of_lexeme htrivia hok
  rwa [hread, Lexeme.token, List.take_of_length_le (by simp)] at hword

theorem tokenize_quoteLiteral (value : String) (file : Nat) :
    tokenize (quoteLiteral value) file =
      .ok [⟨.string value, ⟨0, (quoteLiteral value).length, file⟩⟩,
        ⟨.eof, ⟨(quoteLiteral value).length, (quoteLiteral value).length, file⟩⟩] := by
  have hword := tokenize_word (decodes_flatMap_escapeChar value.toList).isWord file
  rwa [String.ofList_toList, ← String.length_ofList] at hword

/-- What the lexer reads first from a text that starts with a quote. -/
theorem Lexer.next_quote (cs : List Char) (file : Nat) :
    (Lexer.ofSource (String.ofList ('"' :: cs)) file).next.1 =
      match (stringBody cs).1 with
      | some value => .ok ⟨.string (String.ofList value), ⟨0, (stringBody cs).2 + 1, file⟩⟩
      | none => .error (.unterminatedString ⟨0, (stringBody cs).2 + 1, file⟩) := by
  have htrivia : triviaLength .blank ('"' :: cs) = 0 :=
    triviaLength_cons_eq_zero_iff.mpr ⟨by decide, fun _ _ hc => absurd hc (by decide)⟩
  simp only [next, ofSource, String.toList_ofList, skipTrivia, advance, htrivia, List.drop_zero,
    lexeme_quote, stringLexeme, spanOf, Nat.zero_add]
  cases (stringBody cs).1 <;> rfl

/-- Reading a text fails with its first lexeme, which is an unterminated string literal. -/
def StartsUnterminated (source : String) (file : Nat) : Prop :=
  ∃ span, (Lexer.ofSource source file).next.1 = .error (.unterminatedString span) ∧
    tokenize source file = .error (.unterminatedString span)

theorem startsUnterminated_of_next {source : String} {file : Nat} {span : Span}
    (h : (Lexer.ofSource source file).next.1 = .error (.unterminatedString span)) :
    StartsUnterminated source file := by
  refine ⟨span, h, ?_⟩
  rw [tokenize, Lexer.tokens_eq]
  rcases hn : (Lexer.ofSource source file).next with ⟨r, ly⟩
  obtain rfl : r = .error (.unterminatedString span) := by rw [← h, hn]
  rfl

/--
A string literal is read as what was written. Behind an opening quote the literal ends with the
first quote that is not escaped, and the characters before it are decoded; it is unterminated,
which fails the whole text, exactly if the end of the text, or a newline that is not escaped,
comes before such a quote.
-/
theorem tokenize_string_literal (file : Nat) :
    (∀ value : String, tokenize (quoteLiteral value) file =
      .ok [⟨.string value, ⟨0, (quoteLiteral value).length, file⟩⟩,
        ⟨.eof, ⟨(quoteLiteral value).length, (quoteLiteral value).length, file⟩⟩]) ∧
    ∀ cs : List Char,
      ((∃ i value, FirstQuote cs i ∧ Decodes (cs.take i) value ∧
          (Lexer.ofSource (String.ofList ('"' :: cs)) file).next.1 =
            .ok ⟨.string (String.ofList value), ⟨0, i + 2, file⟩⟩) ∨
        StartsUnterminated (String.ofList ('"' :: cs)) file) ∧
      (StartsUnterminated (String.ofList ('"' :: cs)) file ↔ Unclosed cs) := by
  refine ⟨fun value => tokenize_quoteLiteral value file, fun cs => ?_⟩
  have hfirst := Lexer.next_quote cs file
  have hiff := isNone_stringBody_iff cs
  have hread := bodyRead_stringBody cs
  cases hbody : (stringBody cs).1 with
  | none =>
    simp only [hbody] at hfirst
    have hfails := startsUnterminated_of_next hfirst
    exact ⟨.inr hfails, iff_of_true hfails (hiff.mp hbody)⟩
  | some value =>
    have hclosed : ¬ Unclosed cs := fun h => Option.some_ne_none _ (hbody.symm.trans (hiff.mpr h))
    simp only [hbody] at hfirst
    have hreads : ¬ StartsUnterminated (String.ofList ('"' :: cs)) file :=
      fun ⟨_, herror, _⟩ => nomatch hfirst.symm.trans herror
    refine ⟨.inl ?_, iff_of_false hreads hclosed⟩
    generalize stringBody cs = read at hread hbody hfirst
    cases hread with
    | closed rest hraw =>
      obtain rfl := Option.some.inj hbody
      exact ⟨_, _, hraw.firstQuote rest, by rwa [List.take_left], hfirst⟩
    | line | last | dangling => cases hbody

/-- An escaped quote does not end the literal, and the quote behind an escaped backslash does. -/
example : tokenize "\"\\\"\\\\\"" 0 =
    .ok [⟨.string "\"\\", ⟨0, 6, 0⟩⟩, ⟨.eof, ⟨6, 6, 0⟩⟩] := by
  decide +kernel

end Sable
