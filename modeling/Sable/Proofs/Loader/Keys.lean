import Sable.Loader
import Sable.Proofs.ImportGraph.Acyclic
import Sable.Proofs.Path.Normal

/-!
# Keys of files

The key of a module is made from the normalized steps of its path. A source store hands out a
text only for the normalized steps of one of its files, so a store never gives rise to more
keys than it has files, under whatever spellings its files are asked for.
-/

namespace Sable

/-!
### Where imports are looked for

An import that starts as the paths of remote modules do is looked for in the remote cache only,
and only if remote modules are allowed. Any other import is looked for in the directory of the
importing file, in the root and in the search paths.
-/

namespace Loader

variable {l : Loader} {path : String} {importer p : Path}

/--
A file that is found for an import exists, and it is the normalized path to the source file in
some directory.
-/
theorem locate_eq_ok (h : l.locate path importer = .ok p) :
    l.store.isFile p = true ∧
    ((remoteStart <+: (slashed path).toList ∧ l.options.allowRemote = true ∧
      ((l.options.root.join remoteCache).join (sourceFile (slashed path))).normalize = p) ∨
    (¬ remoteStart <+: (slashed path).toList ∧
      ∃ base ∈ l.bases importer, (base.join (sourceFile (slashed path))).normalize = p)) := by
  unfold locate at h
  dsimp only at h
  split at h
  · cases h
  · split at h
    · next hremote =>
      unfold locateRemote at h
      split at h
      · next hallowed =>
        dsimp only at h
        split at h
        · next hfile =>
          have hp := Except.ok.inj h
          exact ⟨hp ▸ hfile, .inl ⟨List.isPrefixOf_iff_prefix.mp hremote, hallowed, hp⟩⟩
        · cases h
      · cases h
    · next hlocal =>
      unfold locateLocal at h
      dsimp only at h
      split at h
      · next candidate hfind =>
        obtain ⟨base, hmem, hbase⟩ := List.mem_map.mp (List.mem_of_find?_eq_some hfind)
        have hp := Except.ok.inj h
        refine ⟨hp ▸ List.find?_some hfind, .inr ⟨fun hremote => ?_, base, hmem, hbase.trans hp⟩⟩
        exact hlocal (List.isPrefixOf_iff_prefix.mpr hremote)
      · cases h

end Loader

/-! ### The files of a store -/

namespace FileTree

variable {t : FileTree}

/-- A walk that has left the files of a tree never comes back to them. -/
private theorem walk_outside {cs : List PathComponent} {place : Place}
    (hplace : ∀ names, place ≠ .inside names) {names : List (List Char)} :
    t.walk place cs ≠ .ok (.inside names) := by
  induction cs generalizing place with
  | nil =>
    intro h
    exact hplace names (Except.ok.inj h)
  | cons c cs ih =>
    rw [walk]
    cases hstep : t.step place c with
    | error e => simp
    | ok next =>
      refine ih fun names' heq => ?_
      subst heq
      cases place with
      | inside names => exact hplace names rfl
      | above n => cases c <;> simp [step] at hstep
      | root => cases c <;> simp [step] at hstep

/-- A walk that ends at a file has folded its steps on the way. -/
private theorem foldl_of_walk {cs : List PathComponent} {start names : List (List Char)}
    (h : t.walk (.inside start) cs = .ok (.inside names)) :
    cs.foldl Path.foldStep (start.map .name).reverse = (names.map .name).reverse := by
  induction cs generalizing start with
  | nil =>
    obtain rfl : start = names := by simpa [walk] using h
    rfl
  | cons c cs ih =>
    rw [walk] at h
    cases hstep : t.step (.inside start) c with
    | error e => simp [hstep] at h
    | ok next =>
      simp only [hstep] at h
      rw [List.foldl_cons]
      cases c with
      | root =>
        obtain rfl : Place.root = next := by simpa [step] using hstep
        exact absurd h (walk_outside (by simp))
      | here =>
        obtain rfl : Place.inside start = next := by simpa [step] using hstep
        exact ih h
      | up =>
        simp only [step] at hstep
        split at hstep
        · obtain rfl := Except.ok.inj hstep
          rcases List.eq_nil_or_concat start with rfl | ⟨front, last, rfl⟩
          · exact absurd h (walk_outside (by simp))
          · rw [if_neg (by simp), List.concat_eq_append, List.dropLast_concat] at h
            rw [← ih h]
            simp [Path.foldStep]
        · cases hstep
      | name s =>
        simp only [step] at hstep
        split at hstep
        · cases hstep
        · split at hstep
          · cases hstep
          · split at hstep
            · obtain rfl := Except.ok.inj hstep
              rw [← ih h]
              simp [Path.foldStep]
            · cases hstep

/-- A tree hands out a text only for the names of a file. -/
private theorem exists_of_read {p : Path} {text : String} (h : t.read p = .ok text) :
    ∃ file ∈ t.files, p.normalComponents = file.1.map .name := by
  simp only [read] at h
  split at h
  · cases h
  · split at h
    · cases h
    · split at h
      · cases h
      · split at h
        · cases h
        · next names hwalk =>
          cases hfile : t.file? names with
          | none => simp [hfile] at h
          | some text? =>
            obtain ⟨file, hfind, -⟩ := Option.map_eq_some_iff.mp hfile
            have hmem := List.mem_reverse.mp (List.mem_of_find?_eq_some hfind)
            have hnames : file.1 = names := by simpa using List.find?_some hfind
            refine ⟨file, hmem, ?_⟩
            have hfold : _ = (names.map PathComponent.name).reverse := foldl_of_walk hwalk
            rw [Path.normalComponents, hnames]
            simpa using congrArg List.reverse hfold
        · cases h

end FileTree

namespace SourceFiles

/-- The normalized steps to the files of a store. -/
def steps : SourceFiles → List (List PathComponent)
  | memory files => files.map fun file => file.1.normalComponents
  | tree t => t.files.map fun file => file.1.map .name

theorem length_steps (S : SourceFiles) : S.steps.length = S.size := by
  cases S <;> simp [steps, size]

/-- A text held in memory is that of a file whose path may be spelt differently. -/
theorem exists_of_textInMemory? {files : List (Path × String)} {p : Path} {text : String}
    (h : textInMemory? files p = some text) :
    ∃ q, (q, text) ∈ files ∧ q.normalize = p.normalize := by
  obtain ⟨⟨q, text'⟩, hfind, rfl⟩ := Option.map_eq_some_iff.mp h
  exact ⟨q, List.mem_reverse.mp (List.mem_of_find?_eq_some hfind),
    by simpa using List.find?_some hfind⟩

/-- A store hands out a text only for the normalized steps to one of its files. -/
theorem mem_steps_of_read {S : SourceFiles} {p : Path} {text : String}
    (h : S.read p = .ok text) : p.normalComponents ∈ S.steps := by
  cases S with
  | memory files =>
    simp only [read] at h
    cases htext : textInMemory? files p with
    | none => simp [htext] at h
    | some text' =>
      obtain ⟨q, hmem, hnorm⟩ := exists_of_textInMemory? htext
      refine List.mem_map.mpr ⟨(q, text'), hmem, ?_⟩
      rw [← Path.normalComponents_normalize, hnorm, Path.normalComponents_normalize]
  | tree t =>
    cases hread : t.read p with
    | error e => simp [read, hread, Except.mapError] at h
    | ok text' =>
      obtain ⟨file, hmem, heq⟩ := FileTree.exists_of_read hread
      exact List.mem_map.mpr ⟨file, hmem, heq.symm⟩

end SourceFiles

namespace Loader

variable (l : Loader)

/-- The key of the module of a file, given the normalized steps to it. -/
def keyOfSteps (steps : List PathComponent) : String :=
  let rest := (Path.stripStart l.options.root.normalComponents steps).getD steps
  String.ofList (withoutSourceSuffix (slashed (Path.ofComponents rest).text).toList)

theorem moduleKey_eq (p : Path) : l.moduleKey p = l.keyOfSteps p.normalComponents := rfl

/-- Characters among which there is no backslash stay as they are. -/
theorem map_slash_eq_self {cs : List Char} (h : '\\' ∉ cs) :
    cs.map (fun c => if c = '\\' then '/' else c) = cs := by
  refine (List.map_congr_left fun c hc => if_neg ?_).trans (List.map_id _)
  rintro rfl
  exact h hc

/-- A key holds no backslash. -/
theorem slashed_moduleKey (p : Path) : slashed (l.moduleKey p) = l.moduleKey p := by
  have hslash : ∀ key cs, withoutSourceSuffix (slashed key).toList = cs →
      slashed (String.ofList cs) = String.ofList cs := by
    rintro key cs rfl
    unfold withoutSourceSuffix
    split
    · have h := congrArg String.toList (slashed_slashed key)
      simp only [slashed, String.toList_ofList] at h ⊢
      rw [List.map_take, h]
    · rw [String.ofList_toList, slashed_slashed]
  exact hslash _ _ rfl

/-- The keys of the files that can be read. -/
def fileKeys : List String := l.store.steps.map l.keyOfSteps

theorem length_fileKeys : l.fileKeys.length = l.store.size := by
  rw [fileKeys, List.length_map, SourceFiles.length_steps]

/-- What can be read has one of these keys. -/
theorem moduleKey_mem_fileKeys {p : Path} {text : String} (h : l.read p = .ok text) :
    l.moduleKey p ∈ l.fileKeys :=
  List.mem_map.mpr ⟨p.normalComponents, SourceFiles.mem_steps_of_read h, (l.moduleKey_eq p).symm⟩

end Loader

end Sable
