import Sable.Loader
import Sable.Proofs.Path.Normal

/-!
# Spellings of paths

Normalization goes through the steps of a path one by one, so it may be interrupted: what is looked
up from the normal form of a directory is what is looked up from the directory. The files in memory
and the keys of modules depend on normal forms only, and so not on how a path is spelt.
-/

namespace Sable

namespace Path

theorem normalize_congr {p q : Path} (h : p.normalComponents = q.normalComponents) :
    p.normalize = q.normalize := congrArg ofComponents h

/-- Normalizing a path once more changes nothing. -/
theorem normalize_normalize (p : Path) : p.normalize.normalize = p.normalize :=
  normalize_congr p.normalComponents_normalize

/-- Normalizing the steps of a normal form goes on where those of the path stop. -/
theorem foldl_components_normalize (p : Path) :
    p.normalize.components.foldl foldStep [] = p.components.foldl foldStep [] := by
  rw [components_normalize, normalComponents, foldl_reverse_of_folded p.folded_components]

/-- A path leads from the normal form of a directory to where it leads from the directory. -/
theorem normalize_join_normalize (p q : Path) :
    (p.normalize.join q).normalize = (p.join q).normalize := by
  cases hq : q.isAbsolute with
  | true => rw [join_of_isAbsolute hq, join_of_isAbsolute hq]
  | false =>
    refine normalize_congr ?_
    rw [normalComponents, normalComponents, foldl_components_join hq, foldl_components_join hq,
      foldl_components_normalize]

end Path

namespace SourceFiles

variable {files : List (Path × String)} {p : Path} {text : String}

/-- The text in memory is that of the last file whose path has the same normal form. -/
theorem textInMemory?_eq_some_iff :
    textInMemory? files p = some text ↔ ∃ before q after, files = before ++ (q, text) :: after ∧
      q.normalize = p.normalize ∧ ∀ file ∈ after, file.1.normalize ≠ p.normalize := by
  rw [textInMemory?, Option.map_eq_some_iff]
  constructor
  · rintro ⟨⟨q, text⟩, hfind, rfl⟩
    obtain ⟨hq, after, before, hfiles, hafter⟩ := List.find?_eq_some_iff_append.mp hfind
    refine ⟨before.reverse, q, after.reverse, ?_, by simpa using hq, by simpa using hafter⟩
    simpa using congrArg List.reverse hfiles
  · rintro ⟨before, q, after, rfl, hq, hafter⟩
    refine ⟨(q, text), List.find?_eq_some_iff_append.mpr ⟨by simpa using hq, ?_⟩, rfl⟩
    exact ⟨after.reverse, before.reverse, by simp, by simpa using hafter⟩

theorem read_memory_iff : (memory files).read p = .ok text ↔ textInMemory? files p = some text := by
  rw [read]
  cases textInMemory? files p <;> simp

theorem isFile_memory_iff :
    (memory files).isFile p = true ↔ ∃ file ∈ files, file.1.normalize = p.normalize := by
  rw [isFile, textInMemory?, Option.isSome_map, List.find?_isSome]
  simp

end SourceFiles

/--
A path has one normal form, from a directory and from the normal form of that directory, and a
normal form has no other one. Under any path the files in memory have the text that was last put
under a path of the same normal form, and none if there is no such path; and the module of a file
has one key, whichever path leads to the file.
-/
theorem Loader.spellings_agree (l : Loader) :
    (∀ p q : Path, (p.normalize.join q).normalize = (p.join q).normalize) ∧
      (∀ p : Path, p.normalize.normalize = p.normalize) ∧
      (∀ (files : List (Path × String)) (p : Path) (text : String),
        (SourceFiles.memory files).read p = .ok text ↔
          ∃ before q after, files = before ++ (q, text) :: after ∧ q.normalize = p.normalize ∧
            ∀ file ∈ after, file.1.normalize ≠ p.normalize) ∧
      (∀ (files : List (Path × String)) (p : Path), (SourceFiles.memory files).isFile p = true ↔
        ∃ file ∈ files, file.1.normalize = p.normalize) ∧
      ∀ p : Path, l.moduleKey p.normalize = l.moduleKey p := by
  refine ⟨Path.normalize_join_normalize, Path.normalize_normalize, fun _ _ _ => ?_,
    fun _ _ => SourceFiles.isFile_memory_iff, fun p => ?_⟩
  · rw [SourceFiles.read_memory_iff, SourceFiles.textInMemory?_eq_some_iff]
  · rw [moduleKey, moduleKey, Path.normalComponents_normalize]

end Sable
