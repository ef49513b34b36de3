import Mathlib.Data.List.TakeWhile
import Sable.Proofs.Token.Fractions

/-!
# Where lexemes end

A lexeme takes as many characters as it can. If its own characters stand in front of a blank or
at the end of a text, they are taken again, and no more, whatever stood behind them before. Each
kind of lexeme has its own reason: a run of characters holds no blank, the parts of a number are
such runs, the closing quote ends a string literal, and no mark has a blank in its spelling.
-/

namespace Sable

/-! ### Runs of characters -/

/-- A run of characters ends where one follows that does not belong to it. -/
theorem takeWhile_takeWhile_append {p : Char → Bool} (cs : List Char) {follow : List Char}
    (h : ∀ c ∈ follow.head?, p c = false) :
    (cs.takeWhile p ++ follow).takeWhile p = cs.takeWhile p := by
  rw [List.takeWhile_append_of_pos fun c hc => List.mem_takeWhile_imp hc]
  cases follow with
  | nil => simp
  | cons c rest => simp [h c (by simp)]

/-- What follows ends every lexeme: it is empty or begins with a blank. -/
def Breaks (follow : List Char) : Prop := ∀ c ∈ follow.head?, c = ' '

theorem breaks_nil : Breaks [] := by simp [Breaks]

theorem breaks_blank (cs : List Char) : Breaks (' ' :: cs) := by simp [Breaks]

namespace Breaks

variable {follow : List Char}

theorem eq_nil_or_cons (h : Breaks follow) : follow = [] ∨ ∃ cs, follow = ' ' :: cs := by
  cases follow with
  | nil => exact Or.inl rfl
  | cons c cs => exact Or.inr ⟨cs, by rw [h c (by simp)]⟩

theorem takeWhile_append {p : Char → Bool} (h : Breaks follow) (hp : p ' ' = false)
    (cs : List Char) : (cs.takeWhile p ++ follow).takeWhile p = cs.takeWhile p :=
  takeWhile_takeWhile_append cs fun c hc => h c hc ▸ hp

/-- A word without blanks does not reach into what follows. -/
theorem isPrefixOf_append (h : Breaks follow) {word : List Char} (hword : ' ' ∉ word)
    (cs : List Char) : word.isPrefixOf (cs ++ follow) = word.isPrefixOf cs := by
  induction word generalizing cs with
  | nil => simp
  | cons w word ih =>
    have hw : w ≠ ' ' := fun hw => hword (by simp [hw])
    cases cs with
    | nil =>
      rcases h.eq_nil_or_cons with rfl | ⟨ds, rfl⟩
      · rfl
      · simp [List.isPrefixOf, hw]
    | cons c cs =>
      rw [List.cons_append, List.isPrefixOf_cons_cons, List.isPrefixOf_cons_cons,
        ih (fun hmem => hword (by simp [hmem]))]

end Breaks

theorem isIdentContinue_blank : isIdentContinue ' ' = false := by decide

/-! ### Lexemes in front of a blank -/

section Lexemes

variable {follow : List Char} (hfollow : Breaks follow)

include hfollow

theorem wordLexeme_respaced (cs : List Char) :
    wordLexeme (cs.take (wordLexeme cs).length ++ follow) = wordLexeme cs := by
  have hword : cs.take (wordLexeme cs).length = cs.takeWhile isIdentContinue :=
    (List.prefix_iff_eq_take.mp (List.takeWhile_prefix _)).symm
  rw [hword]
  simp only [wordLexeme, hfollow.takeWhile_append isIdentContinue_blank]

omit hfollow in
theorem stringBody_cons {c : Char} (hquote : c ≠ '"') (hline : c ≠ '\n') (hescape : c ≠ '\\')
    (rest : List Char) :
    stringBody (c :: rest) =
      ((stringBody rest).1.map (c :: ·), (stringBody rest).2 + 1) := by
  rw [stringBody]
  · exact hquote
  · exact hline
  · exact fun h => absurd h hescape
  · exact fun _ _ h => absurd h hescape

omit hfollow in
/-- A closed string literal is the same whatever follows it. -/
theorem stringBody_respaced (cs : List Char) (h : (stringBody cs).1.isSome = true) :
    stringBody (cs.take (stringBody cs).2 ++ follow) = stringBody cs := by
  fun_induction stringBody cs with
  | case1 | case3 | case4 => simp at h
  | case2 rest => simp [stringBody]
  | case5 c rest contents n hbody ih =>
    rw [hbody] at ih
    rw [Option.isSome_map] at h
    simp only [List.take_succ_cons, List.cons_append, stringBody, ih h]
  | case6 c rest hquote hline hlast hescape contents n hbody ih =>
    have hescape' : c ≠ '\\' := by
      rintro rfl
      cases rest with
      | nil => exact hlast rfl rfl
      | cons d ds => exact hescape d ds rfl rfl
    rw [hbody] at ih
    rw [Option.isSome_map] at h
    rw [List.take_succ_cons, List.cons_append, stringBody_cons hquote hline hescape', ih h]

omit hfollow in
/-- A closed string literal takes only characters that there are. -/
theorem stringBody_length_le (cs : List Char) (h : (stringBody cs).1.isSome = true) :
    (stringBody cs).2 ≤ cs.length := by
  fun_induction stringBody cs with
  | case1 | case3 | case4 => simp at h
  | case2 rest => simp
  | case5 c rest contents n hbody ih =>
    rw [hbody] at ih
    rw [Option.isSome_map] at h
    exact Nat.add_le_add_right (ih h) 2
  | case6 c rest _ _ _ _ contents n hbody ih =>
    rw [hbody] at ih
    rw [Option.isSome_map] at h
    exact Nat.succ_le_succ (ih h)

omit hfollow in
theorem blank_notMem_spelling (mark : Punct) : ' ' ∉ mark.spelling := by cases mark <;> decide

omit hfollow in
theorem punct?_spelling (mark : Punct) : punct? mark.spelling = some mark := by
  cases mark <;> decide

theorem punct?_append (cs : List Char) : punct? (cs ++ follow) = punct? cs := by
  simp only [punct?, hfollow.isPrefixOf_append (blank_notMem_spelling _)]

omit hfollow in
theorem spelling_isPrefix_of_punct? {cs : List Char} {mark : Punct} (h : punct? cs = some mark) :
    mark.spelling <+: cs := by
  have hspelling := List.find?_some h
  exact List.isPrefixOf_iff_prefix.mp hspelling

omit hfollow in
/-- Characters that begin with no mark do not begin with one if others are cut off behind them. -/
theorem punct?_eq_none_of_isPrefix {cs ds : List Char} (hcs : cs <+: ds) (h : punct? ds = none) :
    punct? cs = none := by
  rw [punct?, List.find?_eq_none] at h ⊢
  intro mark hmark hp
  rw [List.isPrefixOf_iff_prefix] at hp
  exact h mark hmark (List.isPrefixOf_iff_prefix.mpr (hp.trans hcs))

end Lexemes

/-! ### Numbers in front of a blank -/

/-- No part of a number goes on with a blank. -/
theorem Breaks.stops {follow : List Char} (h : Breaks follow) : NumberTail.Stops follow := by
  intro c hc
  obtain rfl := h c hc
  exact ⟨by decide, by decide, by decide, by decide, by simp [NumberTail.IsSign]⟩

theorem numberLexeme_text_isPrefix (cs : List Char) :
    cs.takeWhile isDigitOrSeparator ++
      (NumberTail.read (cs.drop (cs.takeWhile isDigitOrSeparator).length)).text <+: cs := by
  have hcs := List.prefix_iff_eq_append.mp (List.takeWhile_prefix isDigitOrSeparator (l := cs))
  have htext := (List.prefix_append_right_inj (cs.takeWhile isDigitOrSeparator)).mpr
    (NumberTail.text_read_isPrefix (cs.drop (cs.takeWhile isDigitOrSeparator).length))
  rw [hcs] at htext
  exact htext

theorem numberLexeme_respaced (cs : List Char) {follow : List Char} (h : Breaks follow) :
    numberLexeme (cs.take (numberLexeme cs).length ++ follow) = numberLexeme cs := by
  have htake : cs.take (numberLexeme cs).length = _ :=
    (List.prefix_iff_eq_take.mp (numberLexeme_text_isPrefix cs)).symm
  have hwritten := NumberTail.isWritten_read (cs.drop (cs.takeWhile isDigitOrSeparator).length)
  have hint := takeWhile_takeWhile_append (p := isDigitOrSeparator) cs
    (forall_head?_append hwritten.forall_head?_text fun c hc => (h.stops c hc).1)
  rw [htake, List.append_assoc]
  simp only [numberLexeme, hint, List.drop_left, hwritten.read_text_append h.stops]

/-! ### Lexemes in front of a blank -/

theorem lexeme_eq_wordLexeme {c : Char} (hword : isIdentStart c = true) (rest : List Char) :
    lexeme c rest = wordLexeme (c :: rest) := by
  simp only [lexeme, hword, ↓reduceIte]

theorem lexeme_eq_numberLexeme {c : Char} (hword : isIdentStart c = false)
    (hdigit : c.isDigit = true) (rest : List Char) :
    lexeme c rest = numberLexeme (c :: rest) := by
  simp only [lexeme, hword, hdigit, Bool.false_eq_true, ↓reduceIte]

theorem lexeme_quote (rest : List Char) : lexeme '"' rest = stringLexeme rest := by
  have hword : isIdentStart '"' = false := by decide
  have hdigit : '"'.isDigit = false := by decide
  simp only [lexeme, hword, hdigit, Bool.false_eq_true, ↓reduceIte]

theorem lexeme_eq_punct {c : Char} (hword : isIdentStart c = false) (hdigit : c.isDigit = false)
    (hquote : c ≠ '"') (rest : List Char) :
    lexeme c rest =
      match punct? (c :: rest) with
      | some mark => .token (.punct mark) mark.spelling.length
      | none => .token (.unknown c) 1 := by
  cases hmark : punct? (c :: rest) <;>
    simp only [lexeme, hword, hdigit, hquote, hmark, Bool.false_eq_true, ↓reduceIte]

theorem isSome_of_stringLexeme {rest : List Char} {kind : TokenKind} {span : Span}
    (hok : (stringLexeme rest).outcome span = .ok kind) : (stringBody rest).1.isSome = true := by
  simp only [stringLexeme] at hok
  split at hok
  · next contents h => simp [h]
  · cases hok

theorem stringLexeme_respaced {rest : List Char} {kind : TokenKind} {span : Span}
    (hok : (stringLexeme rest).outcome span = .ok kind) (follow : List Char) :
    stringLexeme (rest.take ((stringLexeme rest).length - 1) ++ follow) = stringLexeme rest := by
  have hsome := isSome_of_stringLexeme hok
  have hlength : (stringLexeme rest).length - 1 = (stringBody rest).2 := rfl
  rw [hlength]
  simp only [stringLexeme, stringBody_respaced rest hsome]

/-- A lexeme that is a token ends in front of a blank, whatever else it stood in front of. -/
theorem lexeme_respaced {c : Char} {rest : List Char} {kind : TokenKind} {span : Span}
    (hok : (lexeme c rest).outcome span = .ok kind) {follow : List Char} (h : Breaks follow) :
    lexeme c (rest.take ((lexeme c rest).length - 1) ++ follow) = lexeme c rest := by
  have hcons : c :: (rest.take ((lexeme c rest).length - 1) ++ follow) =
      (c :: rest).take (lexeme c rest).length ++ follow := by
    obtain ⟨n, hn⟩ := Nat.exists_eq_succ_of_ne_zero (lexeme_length_pos c rest).ne'
    rw [hn]
    rfl
  cases hword : isIdentStart c with
  | true =>
    rw [lexeme_eq_wordLexeme hword] at hcons ⊢
    rw [lexeme_eq_wordLexeme hword, hcons, wordLexeme_respaced h]
  | false =>
    cases hdigit : c.isDigit with
    | true =>
      rw [lexeme_eq_numberLexeme hword hdigit] at hcons ⊢
      rw [lexeme_eq_numberLexeme hword hdigit, hcons, numberLexeme_respaced _ h]
    | false =>
      by_cases hquote : c = '"'
      · subst hquote
        rw [lexeme_quote] at hok ⊢
        rw [lexeme_quote, stringLexeme_respaced hok]
      · rw [lexeme_eq_punct hword hdigit hquote] at hcons ⊢
        rw [lexeme_eq_punct hword hdigit hquote, hcons, punct?_append h]
        cases hmark : punct? (c :: rest) with
        | some mark =>
          have htake := List.prefix_iff_eq_take.mp (spelling_isPrefix_of_punct? hmark)
          simp only [Lexeme.token, ← htake, punct?_spelling]
        | none =>
          have hone := punct?_eq_none_of_isPrefix (List.take_prefix 1 (c :: rest)) hmark
          simp only [Lexeme.token, hone]

/-- A lexeme that is a token takes only characters that there are. -/
theorem lexeme_length_le {c : Char} {rest : List Char} {kind : TokenKind} {span : Span}
    (hok : (lexeme c rest).outcome span = .ok kind) :
    (lexeme c rest).length ≤ (c :: rest).length := by
  cases hword : isIdentStart c with
  | true =>
    rw [lexeme_eq_wordLexeme hword]
    exact (List.takeWhile_prefix _).length_le
  | false =>
    cases hdigit : c.isDigit with
    | true =>
      rw [lexeme_eq_numberLexeme hword hdigit]
      exact (numberLexeme_text_isPrefix (c :: rest)).length_le
    | false =>
      by_cases hquote : c = '"'
      · subst hquote
        rw [lexeme_quote] at hok ⊢
        exact Nat.succ_le_succ (stringBody_length_le rest (isSome_of_stringLexeme hok))
      · rw [lexeme_eq_punct hword hdigit hquote]
        cases hmark : punct? (c :: rest) with
        | some mark => exact (spelling_isPrefix_of_punct? hmark).length_le
        | none => simp [Lexeme.token]

end Sable
