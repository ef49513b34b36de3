import Sable.Proofs.Token.Respacing

/-!
# Numbers as they are written

A written number starts with a run of digits, in which underscores may stand. A point with a digit
behind it may open a fraction, and a mark with a sign or without one an exponent, whose digits may
be missing. A text spells one number at most. In front of a digit the lexer takes the longest text
that spells a number: no part of a number goes on with a character that could start the next part,
so the parts are taken one by one, each as far as it goes. The text is a token unless the integer
is out of range or the exponent has no digits.
-/

namespace Sable

/-! ### Written numbers -/

/-- A number as it is written. -/
structure Numeral where
  /-- The digits in front of a fraction and an exponent. -/
  integral : List Char
  /-- The fraction and the exponent. -/
  tail : NumberTail
  /-- The first character is a digit. -/
  starts : StartsWithDigit integral
  /-- Digits and separators follow it. -/
  isDigitRun : IsDigitRun integral
  /-- Fraction and exponent are written as such. -/
  isWritten : tail.IsWritten

namespace Numeral

variable {n m : Numeral}

/-- The characters of a written number. -/
def text (n : Numeral) : List Char := n.integral ++ n.tail.text

/-- The number that is taken in front of a digit. -/
def atStart (cs : List Char) (h : StartsWithDigit cs) : Numeral where
  integral := cs.takeWhile isDigitOrSeparator
  tail := .read (cs.drop (cs.takeWhile isDigitOrSeparator).length)
  starts := by
    obtain ⟨c, hc, hdigit⟩ := h
    cases cs with
    | nil => simp at hc
    | cons d cs =>
      obtain rfl : d = c := by simpa using hc
      exact ⟨d, by simp [isDigitOrSeparator_of_isDigit hdigit], hdigit⟩
  isDigitRun := isDigitRun_takeWhile cs
  isWritten := NumberTail.isWritten_read _

theorem text_atStart_isPrefix (cs : List Char) (h : StartsWithDigit cs) :
    (atStart cs h).text <+: cs :=
  numberLexeme_text_isPrefix cs

theorem takeWhile_text (n : Numeral) : n.text.takeWhile isDigitOrSeparator = n.integral := by
  rw [text, n.isDigitRun.takeWhile_append,
    takeWhile_eq_nil_of_head? n.isWritten.forall_head?_text, List.append_nil]

/-- A text spells one number at most. -/
theorem text_injective (h : m.text = n.text) : m = n := by
  have hintegral : m.integral = n.integral := by rw [← takeWhile_text, h, takeWhile_text]
  have htail : m.tail = n.tail := by
    rw [text, text, hintegral, List.append_cancel_left_eq] at h
    have hm := m.isWritten.read_text_append NumberTail.stops_nil
    have hn := n.isWritten.read_text_append NumberTail.stops_nil
    rw [List.append_nil] at hm hn
    rw [← hm, h, hn]
  cases m
  cases n
  subst hintegral htail
  rfl

/-- Every number that characters start with is a start of the one that is taken there. -/
theorem text_isPrefix_atStart {cs : List Char} (h : StartsWithDigit cs) (hm : m.text <+: cs) :
    m.text <+: (atStart cs h).text := by
  obtain ⟨follow, hfollow⟩ := hm
  have hcs : cs = m.integral ++ (m.tail.text ++ follow) := by
    rw [← hfollow, text, List.append_assoc]
  have hintegral : cs.takeWhile isDigitOrSeparator =
      m.integral ++ (m.tail.text ++ follow).takeWhile isDigitOrSeparator := by
    rw [hcs, m.isDigitRun.takeWhile_append]
  have htext : (atStart cs h).text = cs.takeWhile isDigitOrSeparator ++
      (NumberTail.read (cs.drop (cs.takeWhile isDigitOrSeparator).length)).text := rfl
  by_cases htail : m.tail.text = []
  · rw [htext, hintegral, text, htail, List.append_nil, List.append_assoc]
    exact List.prefix_append ..
  · -- What stands behind the digits starts the fraction or the exponent.
    have hhead : ∀ c ∈ (m.tail.text ++ follow).head?, isDigitOrSeparator c = false := by
      rw [List.head?_append_of_ne_nil _ htail]
      exact m.isWritten.forall_head?_text
    rw [takeWhile_eq_nil_of_head? hhead, List.append_nil] at hintegral
    rw [htext, hintegral, hcs, List.drop_left, text]
    exact (List.prefix_append_right_inj _).mpr (m.isWritten.text_isPrefix follow)

/-- The characters start with the number, and with no longer one. -/
def LongestIn (n : Numeral) (cs : List Char) : Prop :=
  n.text <+: cs ∧ ∀ m : Numeral, m.text <+: cs → m.text.length ≤ n.text.length

/-- In front of a digit the longest number is the one that is taken. -/
theorem longestIn_iff {cs : List Char} (h : StartsWithDigit cs) :
    n.LongestIn cs ↔ n = atStart cs h := by
  have hle : ∀ m : Numeral, m.text <+: cs → m.text.length ≤ (atStart cs h).text.length :=
    fun m hm => (text_isPrefix_atStart h hm).length_le
  constructor
  · rintro ⟨hstart, hlongest⟩
    refine text_injective ((text_isPrefix_atStart h hstart).eq_of_length ?_)
    exact Nat.le_antisymm (hle n hstart) (hlongest _ (text_atStart_isPrefix cs h))
  · rintro rfl
    exact ⟨text_atStart_isPrefix cs h, hle⟩

/-! ### Values -/

/-- Whether a number is written without fraction and exponent. -/
def IsWhole (n : Numeral) : Prop := n.tail.fraction = none ∧ n.tail.exponent = none

/-- Whether an exponent, if there is one, has a digit. -/
def HasExponentDigits (n : Numeral) : Prop :=
  ∀ mark sign digits, n.tail.exponent = some (mark, sign, digits) →
    ∃ c ∈ digits, c.isDigit = true

/-- The decimal value of the digits in front of fraction and exponent. -/
def value (n : Numeral) : Nat := Nat.ofDigitChars 10 (digitsOf n.integral) 0

/-- The digits of the fraction. -/
def fractionDigits (n : Numeral) : List Char := digitsOf (n.tail.fraction.getD [])

/-- The decimal value of all digits but those of the exponent. -/
def coefficient (n : Numeral) : Nat :=
  Nat.ofDigitChars 10 (digitsOf n.integral ++ n.fractionDigits) 0

/-- The exponent with its sign. -/
def exponent (n : Numeral) : Int :=
  match n.tail.exponent with
  | none => 0
  | some (_, sign, digits) =>
    if sign = some '-' then -exponentValue (digitsOf digits) else exponentValue (digitsOf digits)

/-- A run of digits and separators holds a digit unless it holds separators only. -/
theorem exists_isDigit_iff {digits : List Char} (h : IsDigitRun digits) :
    (∃ c ∈ digits, c.isDigit = true) ↔ digitsOf digits ≠ [] := by
  rw [Ne, digitsOf, List.eq_nil_iff_forall_not_mem, not_forall_not]
  refine exists_congr fun c => ?_
  rw [List.mem_filter, bne_iff_ne]
  refine and_congr_right fun hc => ⟨?_, fun hne => ?_⟩
  · rintro hdigit rfl
    exact absurd hdigit (by decide)
  · simpa [isDigitOrSeparator, hne] using h c hc

theorem numberKind?_of_isWhole (h : n.IsWhole) :
    numberKind? n.integral n.tail =
      if n.value ≤ maxIntLiteral then some (.int n.value) else none := by
  simp only [numberKind?, h.1, h.2]
  rfl

theorem numberKind?_of_hasExponentDigits (h : ¬ n.IsWhole) (hdigits : n.HasExponentDigits) :
    numberKind? n.integral n.tail =
      some (.float (.ofDecimal n.coefficient (n.exponent - n.fractionDigits.length))) := by
  cases hexponent : n.tail.exponent with
  | none =>
    obtain ⟨digits, hfraction⟩ := Option.ne_none_iff_exists'.mp fun hf => h ⟨hf, hexponent⟩
    simp only [numberKind?, hexponent, hfraction, coefficient, fractionDigits, exponent]
    simp [digitsValue, Nat.ofDigitChars]
  | some parts =>
    obtain ⟨mark, sign, digits⟩ := parts
    have hne := (exists_isDigit_iff (n.isWritten.exponent _ _ _ hexponent).2.2).mp
      (hdigits mark sign digits hexponent)
    have hempty : (digitsOf digits).isEmpty = false := by simpa using hne
    cases hfraction : n.tail.fraction <;>
      simp only [numberKind?, hexponent, hfraction, hempty, coefficient, fractionDigits, exponent] <;>
      rfl

theorem numberKind?_of_not_hasExponentDigits (h : ¬ n.HasExponentDigits) :
    numberKind? n.integral n.tail = none := by
  simp only [HasExponentDigits, not_forall] at h
  obtain ⟨mark, sign, digits, hexponent, hdigits⟩ := h
  rw [exists_isDigit_iff (n.isWritten.exponent _ _ _ hexponent).2.2, not_not] at hdigits
  simp [numberKind?, hexponent, hdigits]

/-! ### What the lexer takes -/

theorem outcome_eq_ok {cs : List Char} (h : StartsWithDigit cs) {kind : TokenKind}
    (hkind : numberKind? (atStart cs h).integral (atStart cs h).tail = some kind) (span : Span) :
    (numberLexeme cs).outcome span = .ok kind := by
  simp only [atStart] at hkind
  simp only [numberLexeme, hkind]

theorem outcome_eq_error {cs : List Char} (h : StartsWithDigit cs)
    (hkind : numberKind? (atStart cs h).integral (atStart cs h).tail = none) (span : Span) :
    (numberLexeme cs).outcome span =
      .error (.invalidNumber (String.ofList (digitsOf (atStart cs h).text)) span) := by
  simp only [atStart] at hkind
  simp only [numberLexeme, hkind]
  rfl

end Numeral

/-! ### Reading a number -/

theorem isIdentStart_of_isDigit {c : Char} (h : c.isDigit = true) : isIdentStart c = false := by
  have hcodes : ∀ code < 58, 48 ≤ code → isIdentStart (Char.ofNat code) = false := by decide
  obtain ⟨hlow, hhigh⟩ := Char.isDigit_iff_toNat.mp h
  have hcode := hcodes c.toNat (Nat.lt_succ_of_le hhigh) hlow
  rwa [Char.ofNat_toNat] at hcode

theorem triviaLength_of_isDigit {c : Char} (h : c.isDigit = true) (rest : List Char) :
    triviaLength .blank (c :: rest) = 0 := by
  have hne : ∀ d : Char, d.isDigit = false → c ≠ d := by
    rintro d hd rfl
    exact absurd h (by simp [hd])
  refine triviaLength_cons_eq_zero_iff.mpr ⟨?_, fun _ _ hc => absurd hc (hne '/' (by decide))⟩
  simp [isBlank, hne]

namespace Lexer

variable {lx : Lexer}

theorem next_of_startsWithDigit (h : StartsWithDigit lx.rest) :
    lx.next = (((numberLexeme lx.rest).outcome (lx.spanOf (numberLexeme lx.rest).length)).map
        fun kind => ⟨kind, lx.spanOf (numberLexeme lx.rest).length⟩,
      lx.advance (numberLexeme lx.rest).length) := by
  obtain ⟨c, hc, hdigit⟩ := h
  cases hrest : lx.rest with
  | nil => simp [hrest] at hc
  | cons d rest =>
    obtain rfl : d = c := by simpa [hrest] using hc
    have hskip : lx.skipTrivia = lx := by
      cases lx
      subst hrest
      simp [skipTrivia, advance, triviaLength_of_isDigit hdigit]
    simp only [next, hskip, hrest,
      lexeme_eq_numberLexeme (isIdentStart_of_isDigit hdigit) hdigit]

/-- One step of a lexer reads a written number, and how it turns out. -/
structure ReadsNumeral (lx : Lexer) (n : Numeral) : Prop where
  /-- The characters of the number are taken, and no others. -/
  behind : lx.next.2 = lx.advance n.text.length
  /-- A number without fraction and exponent is an integer if it is in range. -/
  whole : n.IsWhole → n.value ≤ maxIntLiteral →
    lx.next.1 = .ok ⟨.int n.value, lx.spanOf n.text.length⟩
  /-- A number with a fraction or an exponent is a float if the exponent has digits. -/
  scaled : ¬ n.IsWhole → n.HasExponentDigits →
    lx.next.1 = .ok ⟨.float (.ofDecimal n.coefficient (n.exponent - n.fractionDigits.length)),
      lx.spanOf n.text.length⟩
  /-- Any other number is refused, and reported without its underscores. -/
  refused : n.IsWhole ∧ maxIntLiteral < n.value ∨ ¬ n.HasExponentDigits →
    lx.next.1 = .error (.invalidNumber (String.ofList (digitsOf n.text)) (lx.spanOf n.text.length))

/-- The lexer in front of a digit reads the number that is taken there. -/
theorem readsNumeral_atStart (h : StartsWithDigit lx.rest) :
    lx.ReadsNumeral (.atStart lx.rest h) := by
  have hnext := next_of_startsWithDigit h
  have hread := @Numeral.outcome_eq_ok _ h
  have hfails := Numeral.outcome_eq_error h
  generalize hn : Numeral.atStart lx.rest h = n at hread hfails ⊢
  have hlength : (numberLexeme lx.rest).length = n.text.length := by
    rw [← hn]
    rfl
  rw [hlength] at hnext
  refine ⟨by rw [hnext], fun hwhole hvalue => ?_, fun hwhole hdigits => ?_, ?_⟩
  · have hkind := Numeral.numberKind?_of_isWhole hwhole
    rw [if_pos hvalue] at hkind
    rw [hnext, hread hkind]
    rfl
  · rw [hnext, hread (Numeral.numberKind?_of_hasExponentDigits hwhole hdigits)]
    rfl
  · rintro (⟨hwhole, hvalue⟩ | hdigits)
    · have hkind := Numeral.numberKind?_of_isWhole hwhole
      rw [if_neg (Nat.not_le.mpr hvalue)] at hkind
      rw [hnext, hfails hkind]
      rfl
    · rw [hnext, hfails (Numeral.numberKind?_of_not_hasExponentDigits hdigits)]
      rfl

/--
In front of an ASCII digit, one step takes the longest written number, which is the only one of
its length. It is an integer if it is written without fraction and exponent and its value is in
range, a float if it has a fraction or an exponent and the exponent has digits, and in every
other case it is reported as invalid.
-/
theorem next_longest_numeral {c : Char} {cs : List Char} (hrest : lx.rest = c :: cs)
    (hdigit : c.isDigit = true) :
    ∃ n : Numeral, (∀ m : Numeral, m.LongestIn lx.rest ↔ m = n) ∧ lx.ReadsNumeral n := by
  have h : StartsWithDigit lx.rest := ⟨c, by rw [hrest]; rfl, hdigit⟩
  exact ⟨.atStart lx.rest h, fun m => Numeral.longestIn_iff h, readsNumeral_atStart h⟩

/-- A mark without digits belongs to the number in front of it. -/
theorem next_longest_numeral_dangling :
    ∃ n : Numeral, (∀ m : Numeral, m.LongestIn (ofSource "1_0.5e+x" 0).rest ↔ m = n) ∧
      (ofSource "1_0.5e+x" 0).ReadsNumeral n :=
  next_longest_numeral (by rfl) (by decide)

example : (ofSource "1_0.5e+x" 0).next.1 = .error (.invalidNumber "10.5e+" ⟨0, 7, 0⟩) := by
  decide +kernel

end Lexer

end Sable
