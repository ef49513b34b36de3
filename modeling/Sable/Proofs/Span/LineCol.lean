import Mathlib.Data.List.DropRight
import Mathlib.Data.List.Induction
import Sable.Span

/-!
# Lines and columns

The line of a character counts the newlines in front of it, and its column the characters behind the
last one of them. Every character moves the place behind it on to the next column or the next
line, so different offsets in a text have different places, in the same order; and the offset of a
place is the length of the lines in front of it with its column.
-/

namespace Sable.LineCol

variable {front back text : List Char} {p q r : LineCol} {i j : Nat}

/-! ### What the line and the column count -/

/-- The characters behind the last newline of a text. -/
def lastLine (text : List Char) : List Char := text.rtakeWhile (· ≠ '\n')

theorem lastLine_newline : lastLine (front ++ ['\n']) = [] :=
  List.rtakeWhile_concat_neg _ _ _ (by decide)

theorem lastLine_char {c : Char} (hc : c ≠ '\n') :
    lastLine (front ++ [c]) = lastLine front ++ [c] :=
  List.rtakeWhile_concat_pos _ _ _ (by simpa using hc)

theorem foldl_step (front : List Char) :
    front.foldl step first = ⟨front.count '\n' + 1, (lastLine front).length + 1⟩ := by
  induction front using List.reverseRecOn with
  | nil => rfl
  | append_singleton front c ih =>
    rw [List.foldl_append, ih, List.foldl_cons, List.foldl_nil, step, List.count_append]
    by_cases hc : c = '\n'
    · rw [if_pos hc, hc, lastLine_newline, List.count_singleton_self, List.length_nil]
    · rw [if_neg hc, lastLine_char hc, List.length_append, List.length_singleton,
        List.count_singleton, beq_false_of_ne hc, if_neg Bool.false_ne_true]

theorem ofOffset_eq (text : List Char) (i : Nat) :
    ofOffset text i = ⟨(text.take i).count '\n' + 1, (lastLine (text.take i)).length + 1⟩ :=
  foldl_step _

/-- Behind the end of a text all places are that of its end. -/
theorem ofOffset_of_length_le (h : text.length ≤ i) :
    ofOffset text i = ofOffset text text.length := by
  rw [ofOffset, ofOffset, List.take_of_length_le h, List.take_length]

/-! ### The order of places -/

/-- One place stands in front of another one: on an earlier line, or in an earlier column of it. -/
def Before (p q : LineCol) : Prop := p.line < q.line ∨ p.line = q.line ∧ p.column < q.column

theorem Before.trans (hpq : p.Before q) (hqr : q.Before r) : p.Before r := by
  unfold Before at *
  omega

theorem before_step (p : LineCol) (c : Char) : p.Before (p.step c) := by
  rw [step]
  split
  · exact .inl (Nat.lt_succ_self _)
  · exact .inr ⟨rfl, Nat.lt_succ_self _⟩

theorem ofOffset_succ (h : i < text.length) :
    ofOffset text (i + 1) = (ofOffset text i).step text[i] := by
  rw [ofOffset, ofOffset, List.take_succ_eq_append_getElem h, List.foldl_append, List.foldl_cons,
    List.foldl_nil]

/-- A later offset has a later place. -/
theorem ofOffset_before (hij : i < j) (hj : j ≤ text.length) :
    (ofOffset text i).Before (ofOffset text j) := by
  have hnext : ∀ k < text.length, (ofOffset text k).Before (ofOffset text (k + 1)) := fun k hk =>
    ofOffset_succ hk ▸ before_step _ _
  induction j, hij using Nat.le_induction with
  | base => exact hnext i hj
  | succ j hij ih => exact (ih (Nat.le_of_succ_le hj)).trans (hnext j hj)

/-! ### The offset of a place -/

/-- The number of characters up to and with a newline of a text, the first of which has number 1. -/
def lineStart : List Char → Nat → Nat
  | _, 0 => 0
  | [], _ + 1 => 0
  | c :: cs, k + 1 => lineStart cs (if c = '\n' then k else k + 1) + 1

/-- The number of characters in front of a place of a text. -/
def offset (text : List Char) (p : LineCol) : Nat := lineStart text (p.line - 1) + (p.column - 1)

theorem lineStart_newline (front back : List Char) :
    lineStart (front ++ '\n' :: back) (front.count '\n' + 1) = front.length + 1 := by
  induction front with
  | nil => rw [List.nil_append, List.count_nil, lineStart, if_pos rfl, lineStart, List.length_nil]
  | cons c front ih =>
    rw [List.cons_append, lineStart, List.count_cons, List.length_cons]
    by_cases hc : c = '\n'
    · rw [if_pos hc, hc, beq_self_eq_true, if_pos rfl, ih]
    · rw [if_neg hc, beq_false_of_ne hc, if_neg Bool.false_ne_true, Nat.add_zero, ih]

/-- The characters in front of a place are those of the lines in front of it and on its line. -/
theorem lineStart_add_lastLine (front back : List Char) :
    lineStart (front ++ back) (front.count '\n') + (lastLine front).length = front.length := by
  induction front using List.reverseRecOn generalizing back with
  | nil => rw [List.count_nil, lineStart, lastLine, List.rtakeWhile_nil, List.length_nil]
  | append_singleton front c ih =>
    rw [List.append_assoc, List.singleton_append, List.count_append, List.length_append,
      List.length_singleton]
    by_cases hc : c = '\n'
    · rw [hc, lastLine_newline, List.count_singleton_self, lineStart_newline, List.length_nil,
        Nat.add_zero]
    · rw [lastLine_char hc, List.count_singleton, beq_false_of_ne hc, if_neg Bool.false_ne_true,
        Nat.add_zero, List.length_append, List.length_singleton, ← Nat.add_assoc, ih]

theorem offset_ofOffset (h : i ≤ text.length) : offset text (ofOffset text i) = i := by
  have hsplit := lineStart_add_lastLine (text.take i) (text.drop i)
  rw [List.take_append_drop, List.length_take_of_le h] at hsplit
  rw [ofOffset_eq, offset, Nat.add_sub_cancel, Nat.add_sub_cancel, hsplit]

end LineCol

/--
The line of a span that starts in a text, or behind it, is one more than the number of newlines in
front of its start, and its column one more than the number of characters behind the last of them.
In a text the start is recovered from line and column, and a later start has a later line, or the
same one and a later column. Behind the end of a text both are those of the end.
-/
theorem Span.lineCol_exact (text : String) (s : Span) :
    s.lineCol text = ⟨(text.toList.take s.start).count '\n' + 1,
        ((text.toList.take s.start).rtakeWhile (· ≠ '\n')).length + 1⟩ ∧
      (s.start ≤ text.length → LineCol.offset text.toList (s.lineCol text) = s.start) ∧
      (∀ t : Span, s.start < t.start → t.start ≤ text.length →
        (s.lineCol text).Before (t.lineCol text)) ∧
      ∀ t : Span, t.start = text.length → t.start < s.start → s.lineCol text = t.lineCol text := by
  rw [← String.length_toList]
  refine ⟨LineCol.ofOffset_eq _ _, LineCol.offset_ofOffset, fun t => LineCol.ofOffset_before,
    fun t ht hts => ?_⟩
  rw [Span.lineCol, Span.lineCol, ht]
  exact LineCol.ofOffset_of_length_le (ht ▸ hts.le)

/-- Two newlines in front of a character, and the end of a text that ends in a newline. -/
theorem Span.lineCol_exact_lines :
    LineCol.offset "a\n\nb\n".toList ((⟨3, 4, 0⟩ : Span).lineCol "a\n\nb\n") = 3 ∧
      ((⟨3, 4, 0⟩ : Span).lineCol "a\n\nb\n").Before ((⟨5, 5, 0⟩ : Span).lineCol "a\n\nb\n") ∧
      (⟨9, 9, 0⟩ : Span).lineCol "a\n\nb\n" = (⟨5, 5, 0⟩ : Span).lineCol "a\n\nb\n" :=
  have h := Span.lineCol_exact "a\n\nb\n"
  ⟨(h ⟨3, 4, 0⟩).2.1 (by decide), (h ⟨3, 4, 0⟩).2.2.1 ⟨5, 5, 0⟩ (by decide) (by decide),
    (h ⟨9, 9, 0⟩).2.2.2 ⟨5, 5, 0⟩ (by decide) (by decide)⟩

end Sable
