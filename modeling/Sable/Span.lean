/-!
# Source spans

A span names a half-open range of characters of one source file. Offsets count
characters, never bytes, so that a position is the length of a list of characters.
-/

namespace Sable

/-- The characters from `start` up to, but not including, `stop` of one file. -/
structure Span where
  /-- Offset of the first character. -/
  start : Nat
  /-- Offset just behind the last character. -/
  stop : Nat
  /-- Number of the file that the offsets count in. -/
  file : Nat
  deriving DecidableEq, Repr, Inhabited

namespace Span

/-- The span of what stands in no source text, such as a builtin type. -/
def nowhere : Span := ⟨0, 0, 0⟩

/-- The smallest range that holds both spans, in the file of the first. -/
def merge (s t : Span) : Span := ⟨min s.start t.start, max s.stop t.stop, s.file⟩

/-- The number of characters covered, for a span whose ends stand in order. -/
def length? (s : Span) : Option Nat :=
  if s.stop < s.start then none else some (s.stop - s.start)

/-- A span is empty when its two ends coincide. -/
def isEmpty (s : Span) : Bool := s.start == s.stop

/-- The empty span behind the last character of a span. -/
def after (s : Span) : Span := ⟨s.stop, s.stop, s.file⟩

@[simp] theorem merge_file (s t : Span) : (s.merge t).file = s.file := rfl

@[simp] theorem merge_self (s : Span) : s.merge s = s := by simp [merge]

end Span

/-- A place in a text as people count it: lines and columns start at one. -/
structure LineCol where
  /-- One more than the number of newlines passed. -/
  line : Nat
  /-- One more than the number of characters passed since the last newline. -/
  column : Nat
  deriving DecidableEq, Repr

namespace LineCol

/-- The place of the first character of a text. -/
def first : LineCol := ⟨1, 1⟩

/-- The place behind one more character. -/
def step (p : LineCol) (c : Char) : LineCol :=
  if c = '\n' then ⟨p.line + 1, 1⟩ else ⟨p.line, p.column + 1⟩

/-- The place behind the first `offset` characters, or behind the whole text if it is shorter. -/
def ofOffset (text : List Char) (offset : Nat) : LineCol :=
  (text.take offset).foldl step first

end LineCol

/-- Line and column of the start of a span within a text. -/
def Span.lineCol (s : Span) (text : String) : LineCol := LineCol.ofOffset text.toList s.start

end Sable
