import Mathlib.Data.List.TakeWhile
import Sable.Proofs.Loader.Keys

/-!
# Default aliases and the ending of source files

The ending of source files may be left off the path of an import: the same file is found with it
and without it. The alias of an import that states none loses what follows the last dot of the
last segment, which is the ending of source files only if that is there. So the alias of a path
without the ending is that of the path with it exactly if no dot stands behind the first character
of the last segment.
-/

namespace Sable

/-! ### The last dot of a segment -/

theorem forall_bne_of_notMem {a : Char} {cs : List Char} (h : a ∉ cs) :
    ∀ c ∈ cs.reverse, (c != a) = true := by
  intro c hc
  refine bne_iff_ne.mpr ?_
  rintro rfl
  exact h (List.mem_reverse.mp hc)

/-- From behind, the last dot is the first one. -/
theorem dropWhile_reverse_append (stem : List Char) {ending : List Char} (h : '.' ∉ ending) :
    (stem ++ '.' :: ending).reverse.dropWhile (· != '.') = '.' :: stem.reverse := by
  rw [List.reverse_append, List.reverse_cons, List.append_assoc,
    List.dropWhile_append_of_pos (forall_bne_of_notMem h)]
  simp

/-- What follows the last dot of a segment is dropped with the dot, if something stands before it. -/
theorem withoutExtension_append {stem ending : List Char} (hstem : stem ≠ [])
    (hending : '.' ∉ ending) : withoutExtension (stem ++ '.' :: ending) = stem := by
  obtain ⟨c, cs, hcs⟩ := List.exists_cons_of_ne_nil (List.reverse_ne_nil_iff.mpr hstem)
  rw [withoutExtension, dropWhile_reverse_append stem hending, hcs]
  exact List.reverse_eq_iff.mpr hcs.symm

/-- A segment with a dot has a last one. -/
theorem exists_eq_append_dot {segment : List Char} (h : '.' ∈ segment) :
    ∃ stem ending, segment = stem ++ '.' :: ending ∧ '.' ∉ ending := by
  obtain ⟨back, front, hsplit, hback⟩ := List.eq_append_cons_of_mem (List.mem_reverse.mpr h)
  refine ⟨front.reverse, back.reverse, ?_, fun hmem => hback (List.mem_reverse.mp hmem)⟩
  rw [List.reverse_eq_iff.mp hsplit]
  simp

/-- A segment keeps all of its characters exactly if no dot stands behind the first one. -/
theorem withoutExtension_eq_self_iff {segment : List Char} :
    withoutExtension segment = segment ↔ '.' ∉ segment.tail := by
  by_cases hdot : '.' ∈ segment
  · obtain ⟨stem, ending, rfl, hending⟩ := exists_eq_append_dot hdot
    cases stem with
    | nil =>
      refine iff_of_true ?_ hending
      rw [withoutExtension, dropWhile_reverse_append [] hending]
      rfl
    | cons c stem =>
      refine iff_of_false ?_ (by simp)
      rw [withoutExtension_append (List.cons_ne_nil c stem) hending]
      simp
  · refine iff_of_true ?_ fun h => hdot (List.mem_of_mem_tail h)
    rw [withoutExtension, List.dropWhile_eq_nil_iff.mpr (forall_bne_of_notMem hdot)]

/-! ### The last segment of a path -/

theorem lastSegment_eq {cs : List Char} (h : ∀ c ∈ cs.getLast?, c ≠ '/') :
    lastSegment cs = (cs.reverse.takeWhile (· != '/')).reverse := by
  rw [lastSegment]
  rcases List.eq_nil_or_concat cs with rfl | ⟨init, c, rfl⟩
  · rfl
  · have hc : c ≠ '/' := h c (by simp)
    simp [hc]

/-- What stands behind the last segment without a slash belongs to it. -/
theorem lastSegment_append {cs ending : List Char} (h : ∀ c ∈ cs.getLast?, c ≠ '/')
    (hending : '/' ∉ ending) : lastSegment (cs ++ ending) = lastSegment cs ++ ending := by
  have hlast : ∀ c ∈ (cs ++ ending).getLast?, c ≠ '/' := by
    intro c hc
    rw [List.getLast?_append] at hc
    rcases Option.or_eq_some_iff.mp hc with hc | ⟨-, hc⟩
    · rintro rfl
      exact hending (List.mem_of_getLast? hc)
    · exact h c hc
  rw [lastSegment_eq hlast, lastSegment_eq h, List.reverse_append,
    List.takeWhile_append_of_pos (forall_bne_of_notMem hending)]
  simp

/-! ### Paths with the ending and without it -/

theorem slashed_append (a b : String) : slashed (a ++ b) = slashed a ++ slashed b := by
  refine String.toList_injective ?_
  simp [slashed]

/-- No slash of a backslash is in the ending of source files. -/
theorem suffix_of_suffix_slashed {path : String} (h : sourceSuffix <:+ (slashed path).toList) :
    sourceSuffix <:+ path.toList := by
  rw [slashed, String.toList_ofList] at h
  obtain ⟨front, hfront⟩ := h
  obtain ⟨before, ending, hpath, -, hending⟩ := List.map_eq_append_iff.mp hfront.symm
  have hplain : '\\' ∉ ending := by
    intro hmem
    have hslash := List.mem_map_of_mem (f := fun c => if c = '\\' then '/' else c) hmem
    rw [hending] at hslash
    exact absurd hslash (by decide)
  rw [hpath, ← hending, Loader.map_slash_eq_self hplain]
  exact List.suffix_append ..

/-- A path without the ending has the source file of the path with it. -/
theorem sourceFile_append {path : String} (h : ¬ sourceSuffix <:+ path.toList) :
    sourceFile (path ++ ".sbl") = sourceFile path := by
  have hending : (".sbl" : String).toList = sourceSuffix := rfl
  have hsuffix : sourceSuffix <:+ (path ++ ".sbl").toList := by
    rw [String.toList_append, hending]
    exact List.suffix_append ..
  rw [sourceFile, sourceFile, if_pos (List.isSuffixOf_iff_suffix.mpr hsuffix),
    if_neg fun hpath => h (List.isSuffixOf_iff_suffix.mp hpath)]
  rfl

/-- What holds no slash does not complete the start of the paths of remote modules. -/
theorem isPrefixOf_remoteStart_append (cs : List Char) {ending : List Char} (h : '/' ∉ ending) :
    remoteStart.isPrefixOf (cs ++ ending) = remoteStart.isPrefixOf cs := by
  rw [Bool.eq_iff_iff, List.isPrefixOf_iff_prefix, List.isPrefixOf_iff_prefix]
  refine ⟨fun ⟨follow, hfollow⟩ => ?_, fun hs => hs.trans (List.prefix_append ..)⟩
  have hstart : remoteStart = "github.com".toList ++ ['/'] := rfl
  rw [hstart, List.append_assoc, List.append_eq_append_iff] at hfollow
  rcases hfollow with ⟨rest, hcs, hrest⟩ | ⟨rest, -, hending⟩
  · cases rest with
    | nil =>
      have hending : '/' :: follow = ending := hrest
      exact absurd (by simp [← hending]) h
    | cons c rest =>
      obtain ⟨rfl, -⟩ := List.cons.inj hrest
      rw [hcs, hstart]
      exact (List.prefix_append_right_inj _).mpr ((List.prefix_cons_inj _).mpr List.nil_prefix)
  · exact absurd (by simp [hending]) h

/-- Where an import is looked for depends on its source file and on whether it is remote. -/
theorem Loader.locate_eq_ok_iff_of_sourceFile_eq {a b : String}
    (hempty : (slashed a).isEmpty = (slashed b).isEmpty)
    (hremote : remoteStart.isPrefixOf (slashed a).toList =
      remoteStart.isPrefixOf (slashed b).toList)
    (hfile : sourceFile (slashed a) = sourceFile (slashed b)) (l : Loader) (importer p : Path) :
    l.locate a importer = .ok p ↔ l.locate b importer = .ok p := by
  simp only [locate, locateRemote, locateLocal, hempty, hremote, hfile]
  split
  · simp
  · split
    · split
      · split <;> simp
      · simp
    · split <;> simp

/-! ### Default aliases -/

/--
The ending of source files may be left off: where the path of one import is that of another with
the ending behind it, and that path has no such ending and does not end in a slash, both find the
same file from everywhere. The import with the ending has the last segment of the other path as
its default alias. The one without it has that alias exactly if no dot stands behind the first
character of the segment; otherwise its alias ends before the last dot.
-/
theorem Import.localAlias_sourceSuffix {i j : Import} (hi : i.alias? = none) (hj : j.alias? = none)
    (hpath : j.path = i.path ++ ".sbl") (hending : ¬ sourceSuffix <:+ i.path.toList)
    (hlast : ∀ c ∈ i.path.toList.getLast?, c ≠ '/' ∧ c ≠ '\\')
    (hsegment : lastSegment (slashed i.path).toList ≠ []) :
    (∀ (l : Loader) importer p, l.locate i.path importer = .ok p ↔
      l.locate j.path importer = .ok p) ∧
    j.localAlias = String.ofList (lastSegment (slashed i.path).toList) ∧
    (i.localAlias = j.localAlias ↔ '.' ∉ (lastSegment (slashed i.path).toList).tail) ∧
    ∀ stem ending, lastSegment (slashed i.path).toList = stem ++ '.' :: ending → stem ≠ [] →
      '.' ∉ ending → i.localAlias = String.ofList stem := by
  have hslashed : slashed j.path = slashed i.path ++ ".sbl" := by
    rw [hpath, slashed_append]
    rfl
  have hlast' : ∀ c ∈ (slashed i.path).toList.getLast?, c ≠ '/' := by
    intro c hc
    rw [slashed, String.toList_ofList, List.getLast?_map] at hc
    obtain ⟨d, hd, rfl⟩ := Option.map_eq_some_iff.mp hc
    rw [if_neg (hlast d hd).2]
    exact (hlast d hd).1
  have hsegment' : lastSegment (slashed j.path).toList =
      lastSegment (slashed i.path).toList ++ sourceSuffix := by
    rw [hslashed, String.toList_append, lastSegment_append hlast' (by decide)]
    rfl
  have halias : i.localAlias =
      String.ofList (withoutExtension (lastSegment (slashed i.path).toList)) := by
    rw [localAlias, hi]
    rfl
  have halias' : j.localAlias = String.ofList (lastSegment (slashed i.path).toList) := by
    rw [localAlias, hj, ← withoutExtension_append hsegment (by decide : '.' ∉ ['s', 'b', 'l'])]
    exact congrArg (fun cs => String.ofList (withoutExtension cs)) hsegment'
  have hempty : (slashed i.path).isEmpty = (slashed j.path).isEmpty := by
    have hi : slashed i.path ≠ "" := fun h => hsegment (by rw [h]; rfl)
    rw [Bool.eq_iff_iff, String.isEmpty_iff, String.isEmpty_iff, hslashed]
    exact iff_of_false hi (by simp)
  have hfile : sourceFile (slashed i.path) = sourceFile (slashed j.path) := by
    rw [hslashed, sourceFile_append fun h => hending (suffix_of_suffix_slashed h)]
  have hremote : remoteStart.isPrefixOf (slashed i.path).toList =
      remoteStart.isPrefixOf (slashed j.path).toList := by
    rw [hslashed, String.toList_append, isPrefixOf_remoteStart_append _ (by decide)]
  refine ⟨Loader.locate_eq_ok_iff_of_sourceFile_eq hempty hremote hfile, halias', ?_, ?_⟩
  · rw [halias, halias', String.ofList_inj, withoutExtension_eq_self_iff]
  · rintro stem ending heq hstem hdot
    rw [halias, heq, withoutExtension_append hstem hdot]

/-- A version in the path is taken for an ending, unless the ending of source files is there. -/
theorem Import.localAlias_sourceSuffix_version :
    ∃ i j : Import, j.path = i.path ++ ".sbl" ∧ i.localAlias = "v1" ∧ j.localAlias = "v1.2" ∧
      ∀ (l : Loader) importer p, l.locate i.path importer = .ok p ↔
        l.locate j.path importer = .ok p := by
  have h := localAlias_sourceSuffix (i := ⟨"lib/v1.2", none, ⟨0, 0, 0⟩⟩)
    (j := ⟨"lib/v1.2.sbl", none, ⟨0, 0, 0⟩⟩) rfl rfl (by decide) (by decide)
    (by rintro c ⟨⟩; decide) (by decide)
  refine ⟨_, _, by decide, ?_, h.2.1.trans (by decide), h.1⟩
  exact h.2.2.2 ['v', '1'] ['2'] (by decide) (by decide) (by decide)

end Sable
