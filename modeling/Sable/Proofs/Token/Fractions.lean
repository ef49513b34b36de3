import Sable.Token.Lexer

/-!
# Fractions and exponents as they are written

Behind the integral digits of a number, a point with a digit behind it opens a fraction, and a mark
with a sign or without one an exponent, whose digits may be missing. What is read is a start of the
characters and is written in this way. Whatever is written in this way is read back in front of a
character that does not go on with it, and read at least in front of any other.
-/

namespace Sable

/-! ### Runs of digits -/

/-- Characters that are digits and separators. -/
def IsDigitRun (cs : List Char) : Prop := ∀ c ∈ cs, isDigitOrSeparator c = true

/-- Characters of which the first is a digit. -/
def StartsWithDigit (cs : List Char) : Prop := ∃ c ∈ cs.head?, c.isDigit = true

theorem IsDigitRun.takeWhile_append {run : List Char} (h : IsDigitRun run) (follow : List Char) :
    (run ++ follow).takeWhile isDigitOrSeparator =
      run ++ follow.takeWhile isDigitOrSeparator :=
  List.takeWhile_append_of_pos h

theorem isDigitRun_takeWhile (cs : List Char) : IsDigitRun (cs.takeWhile isDigitOrSeparator) := by
  intro c hc
  have hall : (cs.takeWhile isDigitOrSeparator).all isDigitOrSeparator = true := List.all_takeWhile
  exact List.all_eq_true.mp hall c hc

theorem isDigitOrSeparator_of_isDigit {c : Char} (h : c.isDigit = true) :
    isDigitOrSeparator c = true := by
  simp [isDigitOrSeparator, h]

theorem takeWhile_eq_nil_of_head? {cs : List Char}
    (h : ∀ c ∈ cs.head?, isDigitOrSeparator c = false) :
    cs.takeWhile isDigitOrSeparator = [] := by
  cases cs with
  | nil => rfl
  | cons c cs => simp [h c (by simp)]

theorem forall_head?_append {p : Char → Prop} {cs ds : List Char} (hcs : ∀ c ∈ cs.head?, p c)
    (hds : ∀ c ∈ ds.head?, p c) : ∀ c ∈ (cs ++ ds).head?, p c := by
  cases cs with
  | nil => exact hds
  | cons c cs => exact hcs

namespace NumberTail

/-- The characters that put a sign on an exponent. -/
def IsSign (c : Char) : Prop := c = '+' ∨ c = '-'

theorem not_isSign_of_isDigitOrSeparator {c : Char} (h : isDigitOrSeparator c = true) :
    ¬ IsSign c := by
  rintro (rfl | rfl) <;> exact absurd h (by decide)

/-- The fraction starts with a digit, and the exponent has a mark and perhaps a sign. -/
structure IsWritten (t : NumberTail) : Prop where
  /-- A fraction is a run of digits and starts with one. -/
  fraction : ∀ digits ∈ t.fraction, StartsWithDigit digits ∧ IsDigitRun digits
  /-- An exponent is a mark, perhaps a sign, and a run of digits, which may be empty. -/
  exponent : ∀ mark sign digits, t.exponent = some (mark, sign, digits) →
    (mark = 'e' ∨ mark = 'E') ∧ (∀ c ∈ sign, IsSign c) ∧ IsDigitRun digits

/-! ### What is read -/

theorem fractionText_isPrefix (cs : List Char) (exponent) :
    (NumberTail.mk (fraction? cs) exponent).fractionText <+: cs := by
  unfold fraction?
  split
  · split
    · next c rest hc =>
      exact (List.prefix_cons_inj _).mpr ((List.prefix_cons_inj _).mpr (List.takeWhile_prefix _))
    · exact List.nil_prefix
  · exact List.nil_prefix

theorem exponentText_isPrefix (cs : List Char) (fraction) :
    (NumberTail.mk fraction (exponent? cs)).exponentText <+: cs := by
  unfold exponent?
  split
  · split
    · split
      · split
        · exact (List.prefix_cons_inj _).mpr
            ((List.prefix_cons_inj _).mpr (List.takeWhile_prefix _))
        · exact (List.prefix_cons_inj _).mpr (List.takeWhile_prefix _)
      · exact List.prefix_rfl
    · exact List.nil_prefix
  · exact List.nil_prefix

/-- The characters behind a fraction, from where the exponent is read. -/
def behindFraction (cs : List Char) : List Char :=
  cs.drop (NumberTail.mk (fraction? cs) none).fractionText.length

theorem text_read (cs : List Char) :
    (read cs).text = (NumberTail.mk (fraction? cs) none).fractionText ++ (read cs).exponentText :=
  rfl

theorem text_read_isPrefix (cs : List Char) : (read cs).text <+: cs := by
  have hfraction := List.prefix_iff_eq_append.mp (fractionText_isPrefix cs none)
  have hexponent := (List.prefix_append_right_inj
    (NumberTail.mk (fraction? cs) none).fractionText).mpr
      (exponentText_isPrefix (behindFraction cs) (fraction? cs))
  rw [behindFraction, hfraction] at hexponent
  exact hexponent

theorem isWritten_read (cs : List Char) : (read cs).IsWritten := by
  constructor
  · intro digits hdigits
    have hfraction : fraction? cs = some digits := hdigits
    unfold fraction? at hfraction
    split at hfraction
    · next c rest =>
      split at hfraction
      · next hc =>
        obtain rfl := Option.some.inj hfraction
        refine ⟨⟨c, rfl, hc⟩, List.forall_mem_cons.mpr ⟨?_, isDigitRun_takeWhile rest⟩⟩
        exact isDigitOrSeparator_of_isDigit hc
      · cases hfraction
    · cases hfraction
  · intro mark sign digits hdigits
    have hexponent : exponent? (behindFraction cs) = some (mark, sign, digits) := hdigits
    unfold exponent? at hexponent
    split at hexponent
    · next m rest =>
      split at hexponent
      · next hm =>
        split at hexponent
        · next c ds =>
          split at hexponent
          · next hc =>
            obtain ⟨rfl, rfl, rfl⟩ := by simpa using hexponent
            exact ⟨hm, by simpa [IsSign] using hc, isDigitRun_takeWhile ds⟩
          · obtain ⟨rfl, rfl, rfl⟩ := by simpa using hexponent
            exact ⟨hm, by simp, isDigitRun_takeWhile (c :: ds)⟩
        · obtain ⟨rfl, rfl, rfl⟩ := by simpa using hexponent
          exact ⟨hm, by simp, isDigitRun_takeWhile []⟩
      · cases hexponent
    · cases hexponent

/-! ### What stands behind digits and behind a fraction -/

/-- No digits and no fraction go on with these characters. -/
def Ends (cs : List Char) : Prop := ∀ c ∈ cs.head?, isDigitOrSeparator c = false ∧ c ≠ '.'

/-- No part of a number goes on with these characters. -/
def Stops (cs : List Char) : Prop :=
  ∀ c ∈ cs.head?, isDigitOrSeparator c = false ∧ c ≠ '.' ∧ c ≠ 'e' ∧ c ≠ 'E' ∧ ¬ IsSign c

theorem stops_nil : Stops [] := by simp [Stops]

theorem Stops.ends {cs : List Char} (h : Stops cs) : Ends cs :=
  fun c hc => ⟨(h c hc).1, (h c hc).2.1⟩

variable {t : NumberTail} {follow : List Char}

/-- A written exponent starts with its mark, so that neither digits nor a fraction go on there. -/
theorem IsWritten.ends_exponentText (h : t.IsWritten) (hexponent : t.exponent ≠ none)
    (follow : List Char) : Ends (t.exponentText ++ follow) := by
  obtain ⟨⟨mark, sign, digits⟩, he⟩ := Option.ne_none_iff_exists'.mp hexponent
  obtain ⟨hmark, -, -⟩ := h.exponent mark sign digits he
  rcases hmark with rfl | rfl <;> simp [Ends, exponentText, he] <;> decide

theorem IsWritten.ends_append (h : t.IsWritten) (hfollow : Ends follow) :
    Ends (t.exponentText ++ follow) := by
  by_cases hexponent : t.exponent = none
  · simpa [exponentText, hexponent] using hfollow
  · exact h.ends_exponentText hexponent follow

/-- No digits in front go on with a written tail. -/
theorem IsWritten.forall_head?_text (h : t.IsWritten) :
    ∀ c ∈ t.text.head?, isDigitOrSeparator c = false := by
  have hends : Ends t.exponentText := by
    simpa using h.ends_append stops_nil.ends
  refine forall_head?_append (fun c hc => ?_) fun c hc => (hends c hc).1
  cases hfraction : t.fraction with
  | none => simp [fractionText, hfraction] at hc
  | some digits =>
    obtain rfl : '.' = c := by simpa [fractionText, hfraction] using hc
    decide

/-! ### Reading what is written -/

theorem fraction?_of_ends {cs : List Char} (h : Ends cs) : fraction? cs = none := by
  unfold fraction?
  split
  · exact absurd rfl (h '.' (by simp)).2
  · rfl

/-- Behind a point, a run of digits is the fraction with all the digits that follow it. -/
theorem fraction?_point {digits : List Char} (hdigit : StartsWithDigit digits)
    (hrun : IsDigitRun digits) (follow : List Char) :
    fraction? ('.' :: (digits ++ follow)) =
      some (digits ++ follow.takeWhile isDigitOrSeparator) := by
  obtain ⟨c, hc, hc'⟩ := hdigit
  cases digits with
  | nil => simp at hc
  | cons d digits =>
    obtain rfl : d = c := by simpa using hc
    have hrun' : IsDigitRun digits := fun c hc => hrun c (List.mem_cons_of_mem _ hc)
    simp [fraction?, hc', hrun'.takeWhile_append]

theorem exponent?_signed {mark sign : Char} (hmark : mark = 'e' ∨ mark = 'E') (hsign : IsSign sign)
    (digits : List Char) :
    exponent? (mark :: sign :: digits) =
      some (mark, some sign, digits.takeWhile isDigitOrSeparator) := by
  have hsign' : sign = '+' ∨ sign = '-' := hsign
  simp only [exponent?, hmark, hsign', ↓reduceIte]

theorem exponent?_unsigned {mark : Char} (hmark : mark = 'e' ∨ mark = 'E') {digits : List Char}
    (h : ∀ c ∈ digits.head?, ¬ IsSign c) :
    exponent? (mark :: digits) = some (mark, none, digits.takeWhile isDigitOrSeparator) := by
  cases digits with
  | nil => simp [exponent?, hmark]
  | cons c digits =>
    have hc : ¬ (c = '+' ∨ c = '-') := h c (by simp)
    simp only [exponent?, hmark, hc, ↓reduceIte]

/-- Behind its mark, an exponent is read whatever follows. -/
theorem exists_exponent?_mark {mark : Char} (hmark : mark = 'e' ∨ mark = 'E')
    (follow : List Char) : ∃ sign digits, exponent? (mark :: follow) = some (mark, sign, digits) := by
  by_cases hhead : ∃ c ∈ follow.head?, IsSign c
  · obtain ⟨sign, hc, hsign⟩ := hhead
    cases follow with
    | nil => simp at hc
    | cons d follow =>
      obtain rfl : d = sign := by simpa using hc
      exact ⟨_, _, exponent?_signed hmark hsign follow⟩
  · exact ⟨_, _, exponent?_unsigned hmark fun c hc hsign => hhead ⟨c, hc, hsign⟩⟩

theorem exponent?_of_stops (h : Stops follow) : exponent? follow = none := by
  cases follow with
  | nil => rfl
  | cons c follow =>
    obtain ⟨-, -, he, hE, -⟩ := h c (by simp)
    simp [exponent?, he, hE]

/-- A written exponent is read in front of what does not go on with it. -/
theorem IsWritten.exponent?_append (h : t.IsWritten) (hfollow : Stops follow) :
    exponent? (t.exponentText ++ follow) = t.exponent := by
  cases hexponent : t.exponent with
  | none =>
    rw [exponentText, hexponent]
    exact exponent?_of_stops hfollow
  | some parts =>
    obtain ⟨mark, sign, digits⟩ := parts
    obtain ⟨hmark, hsign, hrun⟩ := h.exponent mark sign digits hexponent
    have hdigits : (digits ++ follow).takeWhile isDigitOrSeparator = digits := by
      rw [hrun.takeWhile_append, takeWhile_eq_nil_of_head? fun c hc => (hfollow c hc).1,
        List.append_nil]
    rw [exponentText, hexponent]
    cases sign with
    | some sign =>
      exact (exponent?_signed hmark (hsign sign rfl) (digits ++ follow)).trans (by rw [hdigits])
    | none =>
      have hhead : ∀ c ∈ (digits ++ follow).head?, ¬ IsSign c :=
        forall_head?_append
          (fun c hc => not_isSign_of_isDigitOrSeparator (hrun c (List.mem_of_mem_head? hc)))
          fun c hc => (hfollow c hc).2.2.2.2
      exact (exponent?_unsigned hmark hhead).trans (by rw [hdigits])

/-- Whatever follows a written exponent, reading takes it all. -/
theorem IsWritten.exponentText_isPrefix (h : t.IsWritten) (fraction) (follow : List Char) :
    t.exponentText <+: (NumberTail.mk fraction (exponent? (t.exponentText ++ follow))).exponentText := by
  cases hexponent : t.exponent with
  | none => simp [exponentText, hexponent]
  | some parts =>
    obtain ⟨mark, sign, digits⟩ := parts
    obtain ⟨hmark, hsign, hrun⟩ := h.exponent mark sign digits hexponent
    match sign, digits with
    | some sign, digits =>
      have hread := exponent?_signed hmark (hsign sign rfl) (digits ++ follow)
      rw [hrun.takeWhile_append] at hread
      simp [exponentText, hexponent, hread]
    | none, [] =>
      -- A sign may follow the mark, and is taken with it.
      obtain ⟨sign, digits, hread⟩ := exists_exponent?_mark hmark follow
      simp [exponentText, hexponent, hread]
    | none, c :: digits =>
      have hhead : ∀ d ∈ (c :: digits ++ follow).head?, ¬ IsSign d := by
        simpa using not_isSign_of_isDigitOrSeparator (hrun c (List.mem_cons_self ..))
      have hread := exponent?_unsigned hmark hhead
      rw [hrun.takeWhile_append] at hread
      simp only [List.cons_append] at hread
      simp [exponentText, hexponent, hread]

/-- Behind a written fraction that ends there, the exponent is read. -/
theorem IsWritten.read_fractionText_append (h : t.IsWritten) (hfollow : Ends follow) :
    read (t.fractionText ++ follow) = ⟨t.fraction, exponent? follow⟩ := by
  have hfraction : fraction? (t.fractionText ++ follow) = t.fraction := by
    cases hfraction : t.fraction with
    | none =>
      rw [fractionText, hfraction]
      exact fraction?_of_ends hfollow
    | some digits =>
      obtain ⟨hdigit, hrun⟩ := h.fraction digits hfraction
      rw [fractionText, hfraction, List.cons_append, fraction?_point hdigit hrun,
        takeWhile_eq_nil_of_head? fun c hc => (hfollow c hc).1, List.append_nil]
  have htext : (NumberTail.mk t.fraction none).fractionText = t.fractionText := rfl
  rw [read, hfraction, htext, List.drop_left]

/-- A written tail is read in front of what does not go on with it. -/
theorem IsWritten.read_text_append (h : t.IsWritten) (hfollow : Stops follow) :
    read (t.text ++ follow) = t := by
  rw [text, List.append_assoc, h.read_fractionText_append (h.ends_append hfollow.ends),
    h.exponent?_append hfollow]

/-- Whatever follows a written tail, reading takes it all. -/
theorem IsWritten.text_isPrefix (h : t.IsWritten) (follow : List Char) :
    t.text <+: (read (t.text ++ follow)).text := by
  by_cases hexponent : t.exponent = none
  · have htext : t.text = t.fractionText := by simp [text, exponentText, hexponent]
    rw [htext, text_read]
    refine List.IsPrefix.trans ?_ (List.prefix_append ..)
    cases hfraction : t.fraction with
    | none => simp [fractionText, hfraction]
    | some digits =>
      obtain ⟨hdigit, hrun⟩ := h.fraction digits hfraction
      simp [fractionText, hfraction, fraction?_point hdigit hrun]
  · rw [text, List.append_assoc,
      h.read_fractionText_append (h.ends_exponentText hexponent follow)]
    exact (List.prefix_append_right_inj _).mpr (h.exponentText_isPrefix _ follow)

end NumberTail

end Sable
