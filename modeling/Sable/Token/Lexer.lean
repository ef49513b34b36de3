import Sable.Text.Alphabetic
import Sable.Text.Numeric
import Sable.Error

/-!
# Reading tokens from characters

A lexer holds the characters that are still to be read. One step drops the blanks and
comments in front, reads one lexeme, and moves behind it; it does so also when the lexeme is
in error, so that reading can go on. Every step that does not meet the end of the input
leaves fewer characters, which is why a whole text is read in finitely many steps.
-/

namespace Sable

/-! ### Character classes -/

/-- The blanks between tokens: space, tab, carriage return and newline. -/
def isBlank (c : Char) : Bool := c == ' ' || c == '\t' || c == '\r' || c == '\n'

/-- The characters that start a name. -/
def isIdentStart (c : Char) : Bool := isAlphabetic c || c == '_'

/-- The characters that continue a name. -/
def isIdentContinue (c : Char) : Bool := isAlphabetic c || isNumeric c || c == '_'

/-- The characters of a run of digits, where an underscore separates groups. -/
def isDigitOrSeparator (c : Char) : Bool := c.isDigit || c == '_'

/-! ### Blanks and comments -/

/-- The kinds of text that no token comes from. -/
inductive Trivia
  /-- Blanks between tokens. -/
  | blank
  /-- A comment to the end of its line. -/
  | line
  /-- A block comment inside `depth` more block comments. -/
  | block (depth : Nat)

/-- What surrounds a block comment that ends at the given depth. -/
def Trivia.closeBlock : Nat → Trivia
  | 0 => .blank
  | depth + 1 => .block depth

/--
The number of characters in front of the next token, or of all characters if there is none.
Block comments nest, and one that is never closed reaches to the end of the input.
-/
def triviaLength : Trivia → List Char → Nat
  | _, [] => 0
  | .blank, '/' :: '/' :: rest => triviaLength .line rest + 2
  | .blank, '/' :: '*' :: rest => triviaLength (.block 0) rest + 2
  | .blank, c :: rest => if isBlank c then triviaLength .blank rest + 1 else 0
  | .line, c :: rest => triviaLength (if c = '\n' then .blank else .line) rest + 1
  | .block depth, '*' :: '/' :: rest => triviaLength (.closeBlock depth) rest + 2
  | .block depth, '/' :: '*' :: rest => triviaLength (.block (depth + 1)) rest + 2
  | .block depth, _ :: rest => triviaLength (.block depth) rest + 1

/-! ### Lexemes -/

/-- What a lexeme turns out to be, and how many characters it takes. -/
structure Lexeme where
  /-- The token, or the error for which there is none, given the span of the lexeme. -/
  outcome : Span → Except SyntaxError TokenKind
  /-- The number of characters taken. -/
  length : Nat

/-- A lexeme that is a token whatever its span. -/
def Lexeme.token (kind : TokenKind) (length : Nat) : Lexeme := ⟨fun _ => .ok kind, length⟩

/-- The reserved word or name that a run of characters spells. -/
def wordKind (word : String) : TokenKind :=
  match Keyword.ofText? word with
  | some k => .keyword k
  | none => .ident word

/-- The lexeme of a name or reserved word at the start of the characters. -/
def wordLexeme (cs : List Char) : Lexeme :=
  let word := cs.takeWhile isIdentContinue
  .token (wordKind (String.ofList word)) word.length

/-- The part of a number behind its integral digits. -/
structure NumberTail where
  /-- The characters of the fraction, without the point. -/
  fraction : Option (List Char)
  /-- The mark, the sign and the characters of the exponent. -/
  exponent : Option (Char × Option Char × List Char)

namespace NumberTail

/-- The characters of a fraction, which exists only if a digit follows the point. -/
def fraction? : List Char → Option (List Char)
  | '.' :: c :: rest =>
    if c.isDigit then some (c :: rest.takeWhile isDigitOrSeparator) else none
  | _ => none

/-- The characters of an exponent, which its mark alone brings into being. -/
def exponent? : List Char → Option (Char × Option Char × List Char)
  | mark :: rest =>
    if mark = 'e' ∨ mark = 'E' then
      match rest with
      | sign :: digits =>
        if sign = '+' ∨ sign = '-' then
          some (mark, some sign, digits.takeWhile isDigitOrSeparator)
        else some (mark, none, rest.takeWhile isDigitOrSeparator)
      | [] => some (mark, none, [])
    else none
  | [] => none

/-- The characters that a fraction was read from. -/
def fractionText (t : NumberTail) : List Char :=
  match t.fraction with
  | some digits => '.' :: digits
  | none => []

/-- The characters that an exponent was read from. -/
def exponentText (t : NumberTail) : List Char :=
  match t.exponent with
  | some (mark, sign, digits) => mark :: (sign.toList ++ digits)
  | none => []

/-- The characters that the whole tail was read from. -/
def text (t : NumberTail) : List Char := t.fractionText ++ t.exponentText

/-- Fraction and exponent behind the integral digits of a number. -/
def read (cs : List Char) : NumberTail :=
  let fraction := fraction? cs
  let behind := cs.drop (NumberTail.mk fraction none).fractionText.length
  ⟨fraction, exponent? behind⟩

end NumberTail

/-- The digits of a run without the separators. -/
def digitsOf (cs : List Char) : List Char := cs.filter (· != '_')

/-- The value of a run of decimal digits. -/
def digitsValue (ds : List Char) : Nat := ds.foldl (fun v d => 10 * v + (d.toNat - '0'.toNat)) 0

/-- The value at which an exponent is out of range, whatever digits follow. -/
def exponentBound : Nat := 0x10000

/--
The value of the digits of an exponent, of which those behind a value that is out of range
already do not count.
-/
def exponentValue (ds : List Char) : Nat :=
  ds.foldl (fun v d => if v < exponentBound then 10 * v + (d.toNat - '0'.toNat) else v) 0

/-- The greatest value of an integer literal. -/
def maxIntLiteral : Nat := 0x7fffffffffffffff

/--
The number that integral digits and a tail stand for: an integer if the tail is empty, and
nothing if the integer is out of range or an exponent has no digits.
-/
def numberKind? (integral : List Char) (tail : NumberTail) : Option TokenKind :=
  match tail.fraction, tail.exponent with
  | none, none =>
    let value := digitsValue (digitsOf integral)
    if value ≤ maxIntLiteral then some (.int value) else none
  | fraction, exponent =>
    let fraction := digitsOf (fraction.getD [])
    let coefficient := digitsValue (digitsOf integral ++ fraction)
    let shift : Int := fraction.length
    match exponent with
    | none => some (.float (.ofDecimal coefficient (-shift)))
    | some (_, sign, digits) =>
      let digits := digitsOf digits
      if digits.isEmpty then none
      else
        let size : Int := exponentValue digits
        let exponent := if sign = some '-' then -size else size
        some (.float (.ofDecimal coefficient (exponent - shift)))

/-- The lexeme of a number at the start of the characters, the first of which is a digit. -/
def numberLexeme (cs : List Char) : Lexeme :=
  let integral := cs.takeWhile isDigitOrSeparator
  let tail := NumberTail.read (cs.drop integral.length)
  let text := integral ++ tail.text
  ⟨fun span =>
      match numberKind? integral tail with
      | some kind => .ok kind
      | none => .error (.invalidNumber (String.ofList (digitsOf text)) span),
    text.length⟩

/-- The character that an escape stands for: itself, unless it is one of four letters. -/
def unescape : Char → Char
  | 'n' => '\n'
  | 'r' => '\r'
  | 't' => '\t'
  | '0' => '\x00'
  | c => c

/--
The contents of a string literal behind its opening quote, and the number of characters
read. There are no contents if a newline or the end of the input comes before the closing
quote. A backslash takes the next character with it; the end of the input counts as one.
-/
def stringBody : List Char → Option (List Char) × Nat
  | [] => (none, 0)
  | '"' :: _ => (some [], 1)
  | '\n' :: _ => (none, 0)
  | ['\\'] => (none, 2)
  | '\\' :: c :: rest =>
    let (contents, n) := stringBody rest
    (contents.map (unescape c :: ·), n + 2)
  | c :: rest =>
    let (contents, n) := stringBody rest
    (contents.map (c :: ·), n + 1)

/-- The lexeme of a string literal, given the characters behind its opening quote. -/
def stringLexeme (cs : List Char) : Lexeme :=
  let (contents, n) := stringBody cs
  ⟨fun span =>
      match contents with
      | some contents => .ok (.string (String.ofList contents))
      | none => .error (.unterminatedString span),
    n + 1⟩

/-- The longest delimiter or operator at the start of the characters. -/
def punct? (cs : List Char) : Option Punct := Punct.all.find? fun p => p.spelling.isPrefixOf cs

/-- The lexeme at the start of the characters, given its first one apart. -/
def lexeme (c : Char) (rest : List Char) : Lexeme :=
  if isIdentStart c then wordLexeme (c :: rest)
  else if c.isDigit then numberLexeme (c :: rest)
  else if c = '"' then stringLexeme rest
  else
    match punct? (c :: rest) with
    | some mark => .token (.punct mark) mark.spelling.length
    | none => .token (.unknown c) 1

theorem isIdentContinue_of_isIdentStart {c : Char} (h : isIdentStart c = true) :
    isIdentContinue c = true := by
  simp only [isIdentStart, isIdentContinue, Bool.or_eq_true] at h ⊢
  rcases h with h | h <;> simp [h]

/-- Every lexeme takes at least its first character. -/
theorem lexeme_length_pos (c : Char) (rest : List Char) : 0 < (lexeme c rest).length := by
  unfold lexeme
  split
  · next h => simp [wordLexeme, Lexeme.token, isIdentContinue_of_isIdentStart h]
  split
  · next h => simp [numberLexeme, isDigitOrSeparator, h]
  split
  · simp [stringLexeme]
  split
  · exact Punct.spelling_length_pos _
  · simp [Lexeme.token]

/-! ### Lexers -/

/-- The state of reading one file. -/
structure Lexer where
  /-- The characters still to be read. -/
  rest : List Char
  /-- The number of characters read. -/
  pos : Nat
  /-- The number of the file. -/
  file : Nat

namespace Lexer

/-- A lexer in front of a whole source text. -/
def ofSource (source : String) (file : Nat) : Lexer := ⟨source.toList, 0, file⟩

/-- The lexer behind `n` more characters. -/
def advance (lx : Lexer) (n : Nat) : Lexer := ⟨lx.rest.drop n, lx.pos + n, lx.file⟩

/-- The lexer behind the blanks and comments in front of the next token. -/
def skipTrivia (lx : Lexer) : Lexer := lx.advance (triviaLength .blank lx.rest)

/-- The span of the next `n` characters. -/
def spanOf (lx : Lexer) (n : Nat) : Span := ⟨lx.pos, lx.pos + n, lx.file⟩

/-- Reads the next token, or finds out why there is none, and moves behind what was read. -/
def next (lx : Lexer) : Except SyntaxError Token × Lexer :=
  let lx := lx.skipTrivia
  match lx.rest with
  | [] => (.ok ⟨.eof, lx.spanOf 0⟩, lx)
  | c :: rest =>
    let word := lexeme c rest
    let span := lx.spanOf word.length
    ((word.outcome span).map fun kind => ⟨kind, span⟩, lx.advance word.length)

theorem rest_skipTrivia_length_le (lx : Lexer) : lx.skipTrivia.rest.length ≤ lx.rest.length := by
  simp [skipTrivia, advance]

/-- Only the end of the input is read as the end of the file. -/
theorem lexeme_ne_eof (c : Char) (rest : List Char) (span : Span) :
    (lexeme c rest).outcome span ≠ .ok .eof := by
  unfold lexeme
  split
  · simp only [wordLexeme, Lexeme.token, wordKind]
    split <;> simp
  split
  · simp only [numberLexeme, numberKind?]
    grind
  split
  · simp only [stringLexeme]
    split <;> simp
  split <;> simp [Lexeme.token]

/-- A step that reads a token other than the end of the file leaves fewer characters. -/
theorem next_rest_length_lt {lx ly : Lexer} {token : Token} (h : lx.next = (.ok token, ly))
    (hk : token.kind ≠ .eof) : ly.rest.length < lx.rest.length := by
  have hskip := lx.rest_skipTrivia_length_le
  unfold next at h
  generalize lx.skipTrivia = lz at h hskip
  cases hr : lz.rest with
  | nil =>
    simp only [hr, Prod.mk.injEq, Except.ok.injEq] at h
    exact absurd (congrArg Token.kind h.1).symm hk
  | cons c rest =>
    have hpos := lexeme_length_pos c rest
    have hlen : lz.rest.length = rest.length + 1 := by rw [hr]; rfl
    simp only [hr, Prod.mk.injEq] at h
    rw [← h.2]
    simp only [advance, hr, List.length_drop, List.length_cons]
    omega

/-- The tokens that at most `n` steps read, up to and with the end of the file. -/
def tokensWithin : Nat → Lexer → Except SyntaxError (List Token)
  | 0, lx => lx.next.1.map fun token => [token]
  | n + 1, lx =>
    match lx.next with
    | (.error e, _) => .error e
    | (.ok token, ly) =>
      if token.kind = .eof then .ok [token] else (tokensWithin n ly).map (token :: ·)

/--
All tokens up to and with the end of the file, or the first error. Every step takes at least
one character, so the characters left bound the number of steps.
-/
def tokens (lx : Lexer) : Except SyntaxError (List Token) := lx.tokensWithin lx.rest.length

theorem next_of_rest_eq_nil {lx : Lexer} (h : lx.rest = []) :
    lx.next = (.ok ⟨.eof, lx.spanOf 0⟩, lx) := by
  have hs : lx.skipTrivia = lx := by cases lx; simp_all [skipTrivia, advance, triviaLength]
  simp only [next, hs, h]

/-- More steps than characters read nothing more. -/
theorem tokensWithin_succ {n : Nat} {lx : Lexer} (h : lx.rest.length ≤ n) :
    lx.tokensWithin (n + 1) = lx.tokensWithin n := by
  induction n generalizing lx with
  | zero =>
    have hr : lx.rest = [] := List.length_eq_zero_iff.mp (Nat.le_zero.mp h)
    simp [tokensWithin, next_of_rest_eq_nil hr, Except.map]
  | succ n ih =>
    rw [tokensWithin, tokensWithin]
    rcases hn : lx.next with ⟨e | token, ly⟩
    · rfl
    · by_cases hk : token.kind = .eof
      · simp [hk]
      · have hlt := next_rest_length_lt hn hk
        simp only [hk, ↓reduceIte]
        rw [ih (by omega)]

theorem tokensWithin_eq_tokens {n : Nat} {lx : Lexer} (h : lx.rest.length ≤ n) :
    lx.tokensWithin n = lx.tokens := by
  obtain ⟨k, rfl⟩ := Nat.exists_eq_add_of_le h
  induction k with
  | zero => rfl
  | succ k ih =>
    rw [← Nat.add_assoc, tokensWithin_succ (Nat.le_add_right _ _), ih (Nat.le_add_right _ _)]

/-- The tokens of a text are the next one and, unless it ends the file, those behind it. -/
theorem tokens_eq (lx : Lexer) :
    lx.tokens =
      match lx.next with
      | (.error e, _) => .error e
      | (.ok token, ly) =>
        if token.kind = .eof then .ok [token] else ly.tokens.map (token :: ·) := by
  rw [tokens, ← tokensWithin_succ (Nat.le_refl _), tokensWithin]
  rcases hn : lx.next with ⟨e | token, ly⟩
  · rfl
  · by_cases hk : token.kind = .eof
    · simp [hk]
    · have hlt := next_rest_length_lt hn hk
      simp only [hk, ↓reduceIte]
      rw [tokensWithin_eq_tokens (Nat.le_of_lt hlt)]

end Lexer

/-- The tokens of a source text, ending in the end of the file, or its first lexical error. -/
def tokenize (source : String) (file : Nat) : Except SyntaxError (List Token) :=
  (Lexer.ofSource source file).tokens

end Sable
