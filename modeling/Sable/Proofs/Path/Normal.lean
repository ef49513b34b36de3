import Sable.Path

/-!
# Normalized paths

Behind normalization, parent steps stand only at the start of a path and names behind them. The
text of such a path spells exactly its steps, so normalizing it once more changes nothing, and
paths with one normalized text take the same normalized steps.
-/

namespace Sable

namespace PathComponent

/-- A text between two slashes that names an entry of a directory. -/
def IsName (s : List Char) : Prop := s ≠ [] ∧ s ≠ ['.'] ∧ s ≠ ['.', '.'] ∧ '/' ∉ s

/-- A step that is neither to the root nor to nowhere. -/
def IsStep : PathComponent → Prop
  | up => True
  | name s => IsName s
  | _ => False

/-- The text of a step stands for the step, and holds no slash. -/
theorem IsStep.text {c : PathComponent} (h : c.IsStep) :
    ofSegment? c.text = some c ∧ '/' ∉ c.text ∧ c.text ≠ [] ∧ c.text ≠ ['.'] := by
  cases c with
  | up => decide
  | name s =>
    obtain ⟨hempty, hdot, hup, hslash⟩ := h
    exact ⟨by simp [ofSegment?, PathComponent.text, hempty, hdot, hup], hslash, hempty, hdot⟩
  | root => exact h.elim
  | here => exact h.elim

/-- What stands between slashes and counts is a step. -/
theorem isStep_of_ofSegment? {s : List Char} {c : PathComponent} (hs : '/' ∉ s)
    (h : ofSegment? s = some c) : c.IsStep := by
  unfold ofSegment? at h
  split at h
  · cases h
  · next hne =>
    rw [not_or] at hne
    split at h
    · rw [← Option.some.inj h]
      trivial
    · next hup =>
      rw [← Option.some.inj h]
      exact ⟨hne.1, hne.2, hup, hs⟩

end PathComponent

namespace Path

open PathComponent

/-! ### Texts between slashes -/

theorem not_mem_of_mem_segments {cs s : List Char} (h : s ∈ segments cs) : '/' ∉ s := by
  induction cs generalizing s with
  | nil =>
    rw [List.mem_singleton.mp h]
    exact List.not_mem_nil
  | cons c cs ih =>
    rw [segments] at h
    split at h
    · rcases List.mem_cons.mp h with rfl | h
      · exact List.not_mem_nil
      · exact ih h
    · next hc =>
      split at h
      · next segment rest heq =>
        rcases List.mem_cons.mp h with rfl | h
        · have := ih (heq ▸ List.mem_cons_self ..)
          simp [this, Ne.symm hc]
        · exact ih (heq ▸ List.mem_cons_of_mem _ h)
      · rw [List.mem_singleton.mp h, List.mem_singleton]
        exact Ne.symm hc

theorem segments_of_not_mem {s : List Char} (h : '/' ∉ s) : segments s = [s] := by
  induction s with
  | nil => rfl
  | cons c s ih =>
    rw [List.mem_cons, not_or] at h
    rw [segments, if_neg (Ne.symm h.1), ih h.2]

theorem segments_ne_nil (cs : List Char) : segments cs ≠ [] := by
  cases cs with
  | nil => exact List.cons_ne_nil _ _
  | cons c cs =>
    rw [segments]
    split
    · exact List.cons_ne_nil _ _
    · split <;> exact List.cons_ne_nil _ _

theorem segments_append (cs ds : List Char) :
    segments (cs ++ '/' :: ds) = segments cs ++ segments ds := by
  induction cs with
  | nil => rfl
  | cons c cs ih =>
    rw [List.cons_append, segments, segments, ih]
    by_cases hc : c = '/'
    · rw [if_pos hc, if_pos hc, List.cons_append]
    · obtain ⟨s, rest, hs⟩ := List.exists_cons_of_ne_nil (segments_ne_nil cs)
      rw [if_neg hc, if_neg hc, hs]
      rfl

/-- Splitting joined steps gives their texts back. -/
theorem segments_joinText {cs : List PathComponent} (hne : cs ≠ [])
    (h : ∀ c ∈ cs, '/' ∉ c.text) : segments (joinText cs) = cs.map PathComponent.text := by
  induction cs with
  | nil => exact absurd rfl hne
  | cons c cs ih =>
    rw [List.forall_mem_cons] at h
    cases cs with
    | nil => exact segments_of_not_mem h.1
    | cons d cs =>
      have hjoin : joinText (c :: d :: cs) = c.text ++ '/' :: joinText (d :: cs) := rfl
      rw [hjoin, segments_append, segments_of_not_mem h.1, ih (by simp) h.2]
      rfl

/-! ### The shape of normalized steps -/

/-- Normalized steps, the last one first. -/
def Folded : List PathComponent → Prop
  | [] => True
  | .root :: rest => rest = []
  | .here :: _ => False
  | .up :: rest => rest = [] ∨ rest = [.root]
  | .name s :: rest => IsName s ∧ Folded rest

/-- One more step behind normalized ones keeps them normalized. -/
theorem folded_foldStep {done : List PathComponent} {c : PathComponent} (h : Folded done)
    (hc : c.IsStep) : Folded (foldStep done c) := by
  cases c with
  | up =>
    match done, h with
    | [], _ => exact Or.inl rfl
    | .root :: _, h => exact Or.inr (congrArg _ h)
    | .up :: _, h => rcases h with rfl | rfl <;> trivial
    | .name _ :: _, h => exact h.2
  | name s => exact ⟨hc, h⟩
  | root => exact hc.elim
  | here => exact hc.elim

private theorem folded_foldl {steps done : List PathComponent} (h : Folded done)
    (hs : ∀ c ∈ steps, c.IsStep) :
    Folded (steps.foldl foldStep done) := by
  induction steps generalizing done with
  | nil => exact h
  | cons c steps ih =>
    rw [List.forall_mem_cons] at hs
    exact ih (folded_foldStep h hs.1) hs.2

/-- The steps between the slashes of a path. -/
def inner (p : Path) : List PathComponent := (segments p.text.toList).filterMap ofSegment?

theorem isStep_of_mem_inner {p : Path} {c : PathComponent} (h : c ∈ p.inner) : c.IsStep := by
  obtain ⟨s, hs, hc⟩ := List.mem_filterMap.mp h
  exact isStep_of_ofSegment? (not_mem_of_mem_segments hs) hc

/-- Normalizing the steps of a path normalizes those between its slashes. -/
theorem foldl_components (p : Path) (done : List PathComponent) :
    p.components.foldl foldStep done =
      p.inner.foldl foldStep (if p.isAbsolute then .root :: done else done) := by
  simp only [components]
  split
  · rfl
  · split <;> rfl

/-- The steps that a normalization ends with are normalized. -/
theorem folded_components (p : Path) : Folded (p.components.foldl foldStep []) := by
  rw [foldl_components]
  refine folded_foldl ?_ fun _ hc => isStep_of_mem_inner hc
  split
  · exact rfl
  · trivial

/-- Folding normalized steps changes nothing. -/
theorem foldl_reverse_of_folded {done : List PathComponent} (h : Folded done) :
    done.reverse.foldl foldStep [] = done := by
  induction done with
  | nil => rfl
  | cons c rest ih =>
    rw [List.reverse_cons, List.foldl_append]
    match c, h with
    | .root, h =>
      obtain rfl : rest = [] := h
      rfl
    | .up, h =>
      rcases h with rfl | rfl <;> rfl
    | .name s, h =>
      rw [ih h.2]
      rfl

/-- Normalized steps in order: a step to the root may stand in front of other steps. -/
theorem Folded.shape {done : List PathComponent} (h : Folded done) :
    ∃ steps, (∀ c ∈ steps, c.IsStep) ∧ (done.reverse = steps ∨ done.reverse = .root :: steps) := by
  induction done with
  | nil => exact ⟨[], by simp, Or.inl rfl⟩
  | cons c rest ih =>
    match c, h with
    | .root, h =>
      obtain rfl : rest = [] := h
      exact ⟨[], by simp, Or.inr rfl⟩
    | .up, h =>
      have hup : ∀ c ∈ [up], c.IsStep := by simp [IsStep]
      rcases h with rfl | rfl
      · exact ⟨[.up], hup, Or.inl rfl⟩
      · exact ⟨[.up], hup, Or.inr rfl⟩
    | .name s, h =>
      obtain ⟨steps, hsteps, heq⟩ := ih h.2
      refine ⟨steps ++ [.name s], ?_, ?_⟩
      · exact List.forall_mem_append.mpr ⟨hsteps, List.forall_mem_singleton.mpr h.1⟩
      · rw [List.reverse_cons]
        refine heq.imp (fun he => ?_) fun he => ?_
        · rw [he]
        · rw [he, List.cons_append]

/-! ### The text of normalized steps -/

private theorem filterMap_text {steps : List PathComponent} (h : ∀ c ∈ steps, c.IsStep) :
    (steps.map PathComponent.text).filterMap ofSegment? = steps := by
  induction steps with
  | nil => rfl
  | cons c steps ih =>
    rw [List.forall_mem_cons] at h
    rw [List.map_cons, List.filterMap_cons_some h.1.text.1, ih h.2]

/-- Steps that start with none to the root are read from their text. -/
private theorem components_joinText {steps : List PathComponent} (h : ∀ c ∈ steps, c.IsStep) :
    (Path.mk (String.ofList (joinText steps))).components = steps := by
  cases steps with
  | nil => rfl
  | cons c steps =>
    have hc := (List.forall_mem_cons.mp h).1.text
    have hseg := segments_joinText (List.cons_ne_nil c steps) fun c hc => (h c hc).text.2.1
    have habs : (joinText (c :: steps)).head? ≠ some '/' := by
      obtain ⟨a, as, ha⟩ := List.exists_cons_of_ne_nil hc.2.2.1
      have hne : a ≠ '/' := fun he => hc.2.1 (ha ▸ he ▸ List.mem_cons_self ..)
      cases steps <;> simpa [joinText, ha] using hne
    have hmap := filterMap_text h
    rw [List.map_cons] at hseg hmap
    simp only [components, isAbsolute, String.toList_ofList, hseg, hmap, beq_iff_eq, habs,
      ↓reduceIte, List.head?_cons, Option.some.injEq, hc.2.2.2]

/-- Steps behind one to the root are read from their text. -/
private theorem components_root_joinText {steps : List PathComponent} (hne : steps ≠ [])
    (h : ∀ c ∈ steps, c.IsStep) :
    (Path.mk (String.ofList ('/' :: joinText steps))).components = .root :: steps := by
  have hseg := segments_joinText hne fun c hc => (h c hc).text.2.1
  have hroot : segments ('/' :: joinText steps) = [] :: steps.map PathComponent.text := by
    rw [segments, if_pos rfl, hseg]
  have hempty : ofSegment? [] = none := rfl
  simp [components, isAbsolute, hroot, filterMap_text h, hempty]

/-- The text of normalized steps spells these steps. -/
theorem components_ofComponents {done : List PathComponent} (h : Folded done) :
    (ofComponents done.reverse).components = done.reverse := by
  obtain ⟨steps, hsteps, heq | heq⟩ := h.shape
  · have hroot : steps ≠ [.root] := by
      rintro rfl
      exact hsteps .root (List.mem_singleton_self _)
    rw [heq, ofComponents]
    · exact components_joinText hsteps
    · exact hroot
  · rw [heq]
    cases steps with
    | nil => decide
    | cons c steps => exact components_root_joinText (List.cons_ne_nil c steps) hsteps

theorem components_normalize (p : Path) : p.normalize.components = p.normalComponents :=
  components_ofComponents p.folded_components

/-- Normalizing a normalized path changes nothing. -/
theorem normalComponents_normalize (p : Path) :
    p.normalize.normalComponents = p.normalComponents := by
  rw [normalComponents, components_normalize, normalComponents,
    foldl_reverse_of_folded p.folded_components]

end Path

/-!
## Paths as seen from a directory

A path that does not start at the root, as seen from a directory, takes the steps to the directory
and its own steps behind them. Normalizing it goes on from the normalized steps of the directory.
-/

namespace Path

open PathComponent

variable {p q : Path}

theorem root_notMem_inner (p : Path) : .root ∉ p.inner := fun h => isStep_of_mem_inner h

theorem components_of_absolute (h : p.isAbsolute = true) : p.components = .root :: p.inner := by
  simp only [components, h, ↓reduceIte, inner]

theorem root_notMem_components (h : p.isAbsolute = false) : .root ∉ p.components := by
  have hroot := p.root_notMem_inner
  simp only [components, h, Bool.false_eq_true, ↓reduceIte]
  split
  · exact List.not_mem_cons_of_ne_of_not_mem nofun hroot
  · exact hroot

/-- A path behind a directory has its own text behind a slash, if the directory has a text. -/
theorem inner_join (hq : q.isAbsolute = false) : (p.join q).inner = p.inner ++ q.inner := by
  unfold join
  rw [if_neg (by simp [hq])]
  split
  · next hend =>
    rcases List.eq_nil_or_concat p.text.toList with hp | ⟨front, c, hp⟩
    · simp [inner, hp, segments, ofSegment?]
    · obtain rfl : c = '/' := by simpa [hp] using hend
      rw [List.concat_eq_append] at hp
      simp [inner, hp, segments_append, segments, ofSegment?]
  · simp [inner, segments_append]

theorem isAbsolute_join (hq : q.isAbsolute = false) : (p.join q).isAbsolute = p.isAbsolute := by
  unfold join
  rw [if_neg (by simp [hq])]
  cases hp : p.text.toList with
  | nil =>
    unfold isAbsolute at hq ⊢
    simpa [hp] using hq
  | cons c cs => split <;> simp [isAbsolute, hp]

/-- Normalizing a path behind a directory goes on behind the normalized steps of the directory. -/
theorem foldl_components_join (hq : q.isAbsolute = false) :
    (p.join q).components.foldl foldStep [] =
      q.components.foldl foldStep (p.components.foldl foldStep []) := by
  rw [foldl_components, foldl_components, foldl_components, isAbsolute_join hq, inner_join hq,
    List.foldl_append, hq]
  rfl

theorem join_of_isAbsolute (hq : q.isAbsolute = true) : p.join q = q := if_pos hq

end Path

end Sable
