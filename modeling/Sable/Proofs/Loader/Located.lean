import Sable.Proofs.Loader.Keys

/-!
# Located files and their keys

Every file that an import stands for has a normalized path that ends in a name with the ending
of source files. Its key therefore loses nothing of the path but the steps of the root: two
located files share a key exactly if one of them lies below the root where the other, which
lies outside of it, takes the remaining steps.
-/

namespace Sable

namespace Path

open PathComponent

/-! ### Paths with normalized steps -/

theorem Folded.of_append {front rest : List PathComponent} (h : Folded (front ++ rest)) :
    Folded front := by
  induction front with
  | nil => trivial
  | cons c front ih =>
    match c, h with
    | .root, h => exact (List.append_eq_nil_iff.mp h).1
    | .up, h =>
      refine h.elim (fun h => Or.inl (List.append_eq_nil_iff.mp h).1) fun h => ?_
      exact (List.append_eq_singleton_iff.mp h).imp And.left And.left
    | .name s, h => exact ⟨h.1, ih h.2⟩

theorem folded_reverse_normalComponents (p : Path) : Folded p.normalComponents.reverse := by
  rw [normalComponents, List.reverse_reverse]
  exact p.folded_components

/-- The text of normalized steps tells them apart. -/
theorem ofComponents_inj {cs ds : List PathComponent} (hc : Folded cs.reverse)
    (hd : Folded ds.reverse) (h : ofComponents cs = ofComponents ds) : cs = ds := by
  have hcs := components_ofComponents hc
  have hds := components_ofComponents hd
  rw [List.reverse_reverse] at hcs hds
  rw [← hcs, h, hds]

/-- The steps behind a start are what comes after it. -/
theorem stripStart_eq_some_iff {start cs rest : List PathComponent} :
    stripStart start cs = some rest ↔ cs = start ++ rest := by
  induction start generalizing cs with
  | nil => simp [stripStart]
  | cons s start ih =>
    cases cs with
    | nil => simp [stripStart]
    | cons c cs =>
      rw [stripStart]
      by_cases hsc : s = c
      · rw [if_pos hsc, ih, hsc, List.cons_append, List.cons.injEq, and_iff_right rfl]
      · simp [hsc, Ne.symm hsc]

/-! ### The text of a path that ends in a name -/

/-- What ends a text without a slash ends its last part between slashes. -/
private theorem suffix_getLast_segments {cs ending : List Char} (hslash : '/' ∉ ending)
    (h : ending <:+ cs) : ∃ front last, segments cs = front ++ [last] ∧ ending <:+ last := by
  induction cs with
  | nil => exact ⟨[], [], rfl, h⟩
  | cons c cs ih =>
    rcases List.suffix_cons_iff.mp h with rfl | h
    · exact ⟨[], c :: cs, segments_of_not_mem hslash, List.suffix_refl _⟩
    · obtain ⟨front, last, heq, hlast⟩ := ih h
      rw [segments, heq]
      by_cases hc : c = '/'
      · exact ⟨[] :: front, last, if_pos hc, hlast⟩
      · rw [if_neg hc]
        cases front with
        | nil => exact ⟨[], c :: last, rfl, hlast.trans (List.suffix_cons ..)⟩
        | cons s front => exact ⟨(c :: s) :: front, last, rfl, hlast⟩

/-- The last normalized step of a source file is the name that its path ends in. -/
theorem exists_normalComponents_eq {p : Path} (h : sourceSuffix <:+ p.text.toList) :
    ∃ front s, p.normalComponents = front ++ [.name s] ∧ sourceSuffix <:+ s := by
  have hslash : '/' ∉ sourceSuffix := by decide
  obtain ⟨parts, s, hparts, hs⟩ := suffix_getLast_segments hslash h
  have hstep : ofSegment? s = some (.name s) := by
    have hlength : sourceSuffix.length ≤ s.length := hs.length_le
    have hne : ∀ t : List Char, t.length < 4 → s ≠ t := by
      rintro t ht rfl
      exact absurd hlength (Nat.not_le.mpr ht)
    rw [ofSegment?, if_neg (not_or.mpr ⟨hne _ (by decide), hne _ (by decide)⟩),
      if_neg (hne _ (by decide))]
  have hsteps : ∃ front, p.components = front ++ [.name s] := by
    simp only [components, hparts, List.filterMap_append, List.filterMap_cons_some hstep,
      List.filterMap_nil]
    split
    · exact ⟨_ :: _, rfl⟩
    · split
      · exact ⟨_ :: _, rfl⟩
      · exact ⟨_, rfl⟩
  obtain ⟨front, hsteps⟩ := hsteps
  refine ⟨(front.foldl foldStep []).reverse, s, ?_, hs⟩
  rw [normalComponents, hsteps, List.foldl_append]
  exact List.reverse_cons

/-- The text of the last step ends the text of steps. -/
private theorem suffix_joinText {front : List PathComponent} (c : PathComponent) :
    c.text <:+ joinText (front ++ [c]) := by
  induction front with
  | nil => exact List.suffix_refl _
  | cons d front ih =>
    have hjoin : joinText (d :: front ++ [c]) = d.text ++ '/' :: joinText (front ++ [c]) := by
      cases front <;> rfl
    rw [hjoin]
    exact ih.trans ((List.suffix_cons ..).trans (List.suffix_append ..))

/-- The text of steps behind others ends the text of all of them. -/
private theorem joinText_suffix {front rest : List PathComponent} (hne : rest ≠ []) :
    joinText rest <:+ joinText (front ++ rest) := by
  induction front with
  | nil => exact List.suffix_refl _
  | cons d front ih =>
    have hjoin : joinText (d :: (front ++ rest)) =
        d.text ++ '/' :: joinText (front ++ rest) := by
      cases h : front ++ rest with
      | nil => exact absurd (List.append_eq_nil_iff.mp h).2 hne
      | cons e rest' => rfl
    rw [List.cons_append, hjoin]
    exact ih.trans ((List.suffix_cons ..).trans (List.suffix_append ..))

/-- Steps that end in a name have their joined texts as text. -/
private theorem text_ofComponents {front : List PathComponent} {s : List Char} :
    (ofComponents (front ++ [.name s])).text.toList = joinText (front ++ [.name s]) := by
  rw [ofComponents]
  · exact String.toList_ofList
  · intro h
    have := congrArg List.getLast? h
    simp at this

end Path

/-! ### The ending of source files -/

theorem slashed_eq_self {s : String} (h : '\\' ∉ s.toList) : slashed s = s := by
  rw [slashed, Loader.map_slash_eq_self h, String.ofList_toList]

/-- Without the ending of source files, a text is what stood in front of it. -/
theorem withoutSourceSuffix_append (front : List Char) :
    withoutSourceSuffix (front ++ sourceSuffix) = front := by
  rw [withoutSourceSuffix, if_pos (List.isSuffixOf_iff_suffix.mpr (List.suffix_append ..)),
    List.length_append, Nat.add_sub_cancel, List.take_left]

/-- The name of the file of a module has the ending of source files. -/
theorem suffix_sourceFile (path : String) : sourceSuffix <:+ (sourceFile path).text.toList := by
  unfold sourceFile
  split
  · next h => exact List.isSuffixOf_iff_suffix.mp h
  · rw [String.toList_append, String.toList_ofList]
    exact List.suffix_append ..

/-- The text of a path ends what it becomes as seen from a directory. -/
theorem Path.suffix_join (p q : Path) : q.text.toList <:+ (p.join q).text.toList := by
  unfold Path.join
  split
  · exact List.suffix_refl _
  · split
    · rw [String.toList_append]
      exact List.suffix_append ..
    · rw [String.toList_append, String.toList_append]
      exact List.suffix_append ..

namespace Loader

variable {l : Loader} {p q : Path}

/-! ### Located files -/

/-- The loader finds a file for some import of some file. -/
def Locates (l : Loader) (p : Path) : Prop :=
  ∃ path importer, l.locate path importer = .ok p

/-- Every file that is found is the normalized path of a source file below some directory. -/
private theorem Locates.exists_eq_normalize (h : l.Locates p) :
    ∃ base path, (Path.join base (sourceFile path)).normalize = p := by
  obtain ⟨path, importer, h⟩ := h
  rcases (locate_eq_ok h).2 with ⟨-, -, hp⟩ | ⟨-, base, -, hp⟩
  · exact ⟨_, _, hp⟩
  · exact ⟨base, _, hp⟩

/-- A located file is spelled by its normalized steps, the last of which names a source file. -/
theorem Locates.spelled (h : l.Locates p) :
    Path.ofComponents p.normalComponents = p ∧
      ∃ front s, p.normalComponents = front ++ [.name s] ∧ sourceSuffix <:+ s := by
  obtain ⟨base, path, hp⟩ := h.exists_eq_normalize
  rw [← hp, Path.normalComponents_normalize]
  refine ⟨rfl, Path.exists_normalComponents_eq ?_⟩
  exact (suffix_sourceFile path).trans (Path.suffix_join ..)

/-- The normalized steps of located files tell them apart. -/
theorem Locates.ext (hp : l.Locates p) (hq : l.Locates q)
    (h : p.normalComponents = q.normalComponents) : p = q := by
  rw [← hp.spelled.1, h, hq.spelled.1]

/-! ### Files with one key -/

/-- The steps of a file that its key spells. -/
def keySteps (l : Loader) (p : Path) : List PathComponent :=
  (Path.stripStart l.options.root.normalComponents p.normalComponents).getD p.normalComponents

/-- A file below the root has the steps from there in its key, and any other file has all. -/
theorem keySteps_cases (l : Loader) (p : Path) :
    (p.normalComponents = l.options.root.normalComponents ++ l.keySteps p) ∨
      (l.keySteps p = p.normalComponents ∧
        ¬ l.options.root.normalComponents <+: p.normalComponents) := by
  unfold keySteps
  cases h : Path.stripStart l.options.root.normalComponents p.normalComponents with
  | some rest => exact Or.inl (Path.stripStart_eq_some_iff.mp h)
  | none =>
    refine Or.inr ⟨rfl, ?_⟩
    rintro ⟨rest, hrest⟩
    rw [Path.stripStart_eq_some_iff.mpr hrest.symm] at h
    cases h

/-- The key of a file below the root spells the steps from there. -/
theorem keySteps_of_append {rest : List PathComponent}
    (h : p.normalComponents = l.options.root.normalComponents ++ rest) :
    l.keySteps p = rest := by
  rw [keySteps, Path.stripStart_eq_some_iff.mpr h, Option.getD_some]

/-- The key of a file outside of the root spells all of its steps. -/
theorem keySteps_of_not_prefix
    (h : ¬ l.options.root.normalComponents <+: p.normalComponents) :
    l.keySteps p = p.normalComponents := by
  rcases l.keySteps_cases p with hin | hout
  · exact absurd ⟨_, hin.symm⟩ h
  · exact hout.1

/--
The steps in the key of a located file are the last ones of its path, and the name of the file
is among them unless the file is the root itself.
-/
private theorem Locates.exists_keySteps (h : l.Locates p)
    (hroot : p.normalComponents ≠ l.options.root.normalComponents) :
    ∃ before rest s, l.keySteps p = rest ++ [.name s] ∧ sourceSuffix <:+ s ∧
      p.normalComponents = before ++ (rest ++ [.name s]) := by
  obtain ⟨-, front, s, hsteps, hs⟩ := h.spelled
  rcases l.keySteps_cases p with hin | hout
  · rcases List.eq_nil_or_concat (l.keySteps p) with hnil | ⟨rest, c, hc⟩
    · rw [hnil, List.append_nil] at hin
      exact absurd hin hroot
    · rw [List.concat_eq_append] at hc
      have hlast : c = .name s := by
        have := congrArg List.getLast? (hsteps.symm.trans hin)
        rw [hc] at this
        simpa using this.symm
      subst hlast
      exact ⟨_, rest, s, hc, hs, hc ▸ hin⟩
  · exact ⟨[], front, s, hout.1.trans hsteps, hs, hsteps⟩

/--
With the ending of source files behind it, the key of a located file is the text of the steps
that it spells. Backslashes would be lost in it, and so would the steps of the root itself.
-/
private theorem Locates.moduleKey_append (h : l.Locates p) (hplain : '\\' ∉ p.text.toList)
    (hroot : p.normalComponents ≠ l.options.root.normalComponents) :
    Path.Folded (l.keySteps p).reverse ∧
      (l.moduleKey p).toList ++ sourceSuffix = (Path.ofComponents (l.keySteps p)).text.toList := by
  obtain ⟨before, rest, s, hkey, hs, hsteps⟩ := h.exists_keySteps hroot
  constructor
  · have hfolded := p.folded_reverse_normalComponents
    rw [hsteps, List.reverse_append, ← hkey] at hfolded
    exact hfolded.of_append
  · have htext : p.text.toList = Path.joinText (before ++ (rest ++ [.name s])) := by
      rw [← h.spelled.1, hsteps, ← List.append_assoc, Path.text_ofComponents]
    have hplain' : '\\' ∉ (Path.ofComponents (rest ++ [.name s])).text.toList := by
      rw [Path.text_ofComponents]
      rw [htext] at hplain
      exact fun hmem => hplain ((Path.joinText_suffix (by simp)).mem hmem)
    have hending : sourceSuffix <:+ (Path.ofComponents (rest ++ [.name s])).text.toList := by
      rw [Path.text_ofComponents]
      exact hs.trans (Path.suffix_joinText (.name s))
    obtain ⟨front, hfront⟩ := hending
    have hmodule : l.moduleKey p = String.ofList (withoutSourceSuffix
        (slashed (Path.ofComponents (l.keySteps p)).text).toList) := rfl
    rw [hmodule, hkey, slashed_eq_self hplain', String.toList_ofList, ← hfront,
      withoutSourceSuffix_append]

/--
One of two files hides behind the key of the other: `p` lies below the root, and `q` takes the
steps from there without lying below the root itself.
-/
def Shadows (l : Loader) (p q : Path) : Prop :=
  p.normalComponents = l.options.root.normalComponents ++ q.normalComponents ∧
    ¬ l.options.root.normalComponents <+: q.normalComponents

/--
Located files without backslashes, neither of which is the root itself, share a key exactly if
they are the same file or one shadows the other.
-/
theorem moduleKey_eq_iff_shadows (hp : l.Locates p) (hq : l.Locates q)
    (hplain : '\\' ∉ p.text.toList) (hplain' : '\\' ∉ q.text.toList)
    (hroot : p.normalComponents ≠ l.options.root.normalComponents)
    (hroot' : q.normalComponents ≠ l.options.root.normalComponents) :
    l.moduleKey p = l.moduleKey q ↔ p = q ∨ l.Shadows p q ∨ l.Shadows q p := by
  obtain ⟨hfolded, hkey⟩ := hp.moduleKey_append hplain hroot
  obtain ⟨hfolded', hkey'⟩ := hq.moduleKey_append hplain' hroot'
  have hsteps : l.moduleKey p = l.moduleKey q ↔ l.keySteps p = l.keySteps q := by
    constructor
    · intro h
      rw [h, hkey'] at hkey
      exact Path.ofComponents_inj hfolded hfolded'
        (congrArg Path.mk (String.toList_injective hkey.symm))
    · intro h
      rw [h, ← hkey'] at hkey
      exact String.toList_injective (List.append_cancel_right hkey)
  rw [hsteps]
  constructor
  · intro h
    rcases l.keySteps_cases p with hin | ⟨hout, hnot⟩ <;>
      rcases l.keySteps_cases q with hin' | ⟨hout', hnot'⟩
    · exact Or.inl (hp.ext hq (by rw [hin, hin', h]))
    · exact Or.inr (Or.inl ⟨by rw [hin, h, hout'], hnot'⟩)
    · exact Or.inr (Or.inr ⟨by rw [hin', ← h, hout], hnot⟩)
    · exact Or.inl (hp.ext hq (by rw [← hout, ← hout', h]))
  · rintro (rfl | ⟨hin, hnot⟩ | ⟨hin, hnot⟩)
    · rfl
    · rw [keySteps_of_append hin, keySteps_of_not_prefix hnot]
    · rw [keySteps_of_append hin, keySteps_of_not_prefix hnot]

/-- A loader with a root directory, and a file of one name inside and outside of it. -/
private def rootAndSearched : Loader :=
  new ⟨⟨"lib"⟩, [⟨"."⟩], false⟩ (.memory [(⟨"lib/x.sbl"⟩, ""), (⟨"x.sbl"⟩, "")])

/-- One import from two files finds two files that share a key. -/
theorem exists_moduleKey_eq_of_ne :
    ∃ l : Loader, ∃ p q, l.locate "x" ⟨"lib/main.sbl"⟩ = .ok p ∧
      l.locate "x" ⟨"main.sbl"⟩ = .ok q ∧ p ≠ q ∧ l.moduleKey p = l.moduleKey q := by
  have hp : rootAndSearched.locate "x" ⟨"lib/main.sbl"⟩ = .ok ⟨"lib/x.sbl"⟩ := by decide +kernel
  have hq : rootAndSearched.locate "x" ⟨"main.sbl"⟩ = .ok ⟨"x.sbl"⟩ := by decide +kernel
  refine ⟨rootAndSearched, _, _, hp, hq, by decide, ?_⟩
  refine (moduleKey_eq_iff_shadows ⟨_, _, hp⟩ ⟨_, _, hq⟩ (by decide) (by decide)
    (by decide +kernel) (by decide +kernel)).mpr (Or.inr (Or.inl ⟨by decide +kernel, ?_⟩))
  decide +kernel

end Loader

end Sable
