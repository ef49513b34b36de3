import Mathlib.Order.Basic
import Sable.Proofs.Loader.Keys
import Sable.Proofs.Path.Destinations
import Sable.Proofs.Path.Normal

/-!
# The fence around the remote cache

Only a step that names the directory of the cache leads into it from outside, and only a parent
step leads out of it again. So a local import reaches the cache only if its own path names that
directory or it is looked for from a directory in the cache, and a remote import stays in the
cache if its path does not climb above it.
-/

namespace Sable

namespace Path

open PathComponent

variable {done rest steps : List PathComponent} {s : List Char}

/-- A path lies in a directory: its steps begin with those to the directory. -/
def LiesIn (p directory : Path) : Prop := directory.components <+: p.components

instance (p directory : Path) : Decidable (p.LiesIn directory) :=
  inferInstanceAs (Decidable (directory.components <+: p.components))

/-- Only a step of its name leads into a directory. -/
theorem suffix_of_suffix_foldStep {c : PathComponent} (hc : c ≠ .name s)
    (h : .name s :: rest <:+ foldStep done c) : .name s :: rest <:+ done := by
  -- Nothing but `c` itself may stand in front of what was there.
  have hpush : .name s :: rest <:+ c :: done → .name s :: rest <:+ done := fun h =>
    (List.suffix_cons_iff.mp h).resolve_left fun heq => hc (List.cons.inj heq).1.symm
  cases c with
  | root => exact hpush h
  | here => exact h
  | name t => exact hpush h
  | up =>
    match done, h with
    | [], h => exact hpush h
    | .root :: _, h => exact hpush h
    | .here :: _, h => exact hpush h
    | .up :: _, h => exact h.trans (List.suffix_cons ..)
    | .name _ :: _, h => exact h.trans (List.suffix_cons ..)

theorem suffix_of_suffix_foldl (hs : .name s ∉ steps)
    (h : .name s :: rest <:+ steps.foldl foldStep done) : .name s :: rest <:+ done := by
  induction steps generalizing done with
  | nil => exact h
  | cons c steps ih =>
    rw [List.mem_cons, not_or] at hs
    exact suffix_of_suffix_foldStep (Ne.symm hs.1) (ih hs.2 h)

/-- Steps that climb no further than the names in front of them leave the rest in place. -/
theorem suffix_foldl_foldStep (hroot : .root ∉ steps) {names : List (List Char)}
    (hclimb : climb steps ≤ names.length) :
    done <:+ steps.foldl foldStep (names.map .name ++ done) := by
  induction steps generalizing names with
  | nil => exact List.suffix_append ..
  | cons c steps ih =>
    rw [List.mem_cons, not_or] at hroot
    rw [climb.eq_def] at hclimb
    cases c with
    | root => exact absurd rfl hroot.1
    | here => exact ih hroot.2 hclimb
    | name t => exact @ih hroot.2 (t :: names) (Nat.le_add_of_sub_le hclimb)
    | up =>
      cases names with
      | nil => exact absurd hclimb (Nat.not_succ_le_zero _)
      | cons t names => exact ih hroot.2 (Nat.le_of_succ_le_succ hclimb)

theorem liesIn_normalize_iff {p directory : Path} :
    p.normalize.LiesIn directory.normalize ↔
      directory.components.foldl foldStep [] <:+ p.components.foldl foldStep [] := by
  rw [LiesIn, components_normalize, components_normalize, normalComponents, normalComponents,
    List.reverse_prefix]

end Path

namespace Loader

open Sable.Path PathComponent

variable {l : Loader} {base file : Path}

/-- The directory of the remote modules. -/
def cache (l : Loader) : Path := (l.options.root.join remoteCache).normalize

/-- The name of the directory of the remote modules. -/
def cacheName : List Char := remoteCache.text.toList

theorem foldl_cache (l : Loader) :
    (l.options.root.join remoteCache).components.foldl foldStep [] =
      .name cacheName :: l.options.root.components.foldl foldStep [] := by
  rw [foldl_components_join (by decide)]
  rfl

/-- From a directory to the cache, a path names the cache or the directory is in the cache. -/
theorem name_mem_or_liesIn_of_join (h : (base.join file).normalize.LiesIn l.cache) :
    .name cacheName ∈ file.components ∨ base.normalize.LiesIn l.cache := by
  rw [cache, liesIn_normalize_iff, foldl_cache] at h ⊢
  by_cases hname : .name cacheName ∈ file.components
  · exact .inl hname
  · cases hfile : file.isAbsolute with
    | true =>
      rw [join_of_isAbsolute hfile] at h
      exact absurd (List.suffix_nil.mp (suffix_of_suffix_foldl hname h)) (List.cons_ne_nil _ _)
    | false =>
      rw [foldl_components_join hfile] at h
      exact .inr (suffix_of_suffix_foldl hname h)

/-- The root does not lie in the cache, which lies in the root. -/
theorem not_liesIn_root (l : Loader) : ¬ l.options.root.normalize.LiesIn l.cache := by
  rw [cache, liesIn_normalize_iff, foldl_cache]
  intro h
  exact Nat.not_succ_le_self _ h.length_le

/-- From the cache, a path that does not climb stays in the cache. -/
theorem liesIn_join_cache (hfile : file.isAbsolute = false) (hclimb : climb file.components = 0) :
    ((l.options.root.join remoteCache).join file).normalize.LiesIn l.cache := by
  have hkeeps : ∀ done, done <:+ file.components.foldl foldStep ([].map .name ++ done) :=
    fun _ => suffix_foldl_foldStep (root_notMem_components hfile) (Nat.le_of_eq hclimb)
  rw [cache, liesIn_normalize_iff, foldl_components_join hfile]
  exact hkeeps _

/-- The path of a remote module does not start at the root of all directories. -/
theorem isAbsolute_sourceFile_of_remote {path : String} (h : remoteStart <+: path.toList) :
    (sourceFile path).isAbsolute = false := by
  obtain ⟨rest, hrest⟩ := h
  have hhead : path.toList.head? = some 'g' := by rw [← hrest]; rfl
  unfold sourceFile Path.isAbsolute
  split
  · simp [hhead]
  · simp [String.toList_append, List.head?_append, hhead]

/--
A file in the cache is found only for a remote import, and if remote modules are allowed, unless
the path of the import names the directory of the cache, or the importing file or a search path
lies in the cache. A remote import finds a file only if remote modules are allowed, and in the
cache only, unless its path climbs above the cache.
-/
theorem locate_fenced {path : String} {importer p : Path} (h : l.locate path importer = .ok p) :
    (p.LiesIn l.cache →
      (l.options.allowRemote = true ∧ remoteStart <+: (slashed path).toList) ∨
      .name cacheName ∈ (sourceFile (slashed path)).components ∨
      ∃ base ∈ importer.parent?.toList ++ l.options.searchPaths,
        base.normalize.LiesIn l.cache) ∧
    (remoteStart <+: (slashed path).toList →
      l.options.allowRemote = true ∧
      (climb (sourceFile (slashed path)).components = 0 → p.LiesIn l.cache)) := by
  rcases (locate_eq_ok h).2 with ⟨hremote, hallowed, rfl⟩ | ⟨hlocal, base, hbase, rfl⟩
  · refine ⟨fun _ => .inl ⟨hallowed, hremote⟩, fun _ => ⟨hallowed, fun hclimb => ?_⟩⟩
    exact liesIn_join_cache (isAbsolute_sourceFile_of_remote hremote) hclimb
  · refine ⟨fun hin => .inr ?_, fun hremote => absurd hremote hlocal⟩
    refine (name_mem_or_liesIn_of_join hin).imp_right fun hin => ⟨base, ?_, hin⟩
    rcases List.mem_append.mp hbase with hparent | hbase
    · exact List.mem_append_left _ hparent
    · rcases List.mem_cons.mp hbase with rfl | hsearch
      · exact absurd hin l.not_liesIn_root
      · exact List.mem_append_right _ hsearch

/-- A module in the cache of a project. -/
private def cachedModule : Path := ⟨"/proj/.modules/github.com/acme/text.sbl"⟩

/-- A project with one module of its own and one in its cache. -/
private def projectWithCache (searchPaths : List Path) (allowRemote : Bool) : Loader :=
  new ⟨⟨"/proj"⟩, searchPaths, allowRemote⟩
    (.memory [(⟨"/proj/main.sbl"⟩, ""), (cachedModule, "")])

theorem locate_fenced_installed :
    (projectWithCache [] true).locate "github.com/acme/text" ⟨"/proj/main.sbl"⟩ =
        .ok cachedModule ∧
      cachedModule.LiesIn (projectWithCache [] true).cache := by
  have h : (projectWithCache [] true).locate "github.com/acme/text" ⟨"/proj/main.sbl"⟩ =
      .ok cachedModule := by decide +kernel
  exact ⟨h, ((locate_fenced h).2 (by decide +kernel)).2 (by decide +kernel)⟩

/--
Where remote modules are not allowed, a file in the cache is found through the name of the cache,
from a file in the cache and through a search path in it. Where they are allowed, parent steps in
the path of a remote import lead to a file outside of the cache.
-/
theorem locate_across_fence :
    ((projectWithCache [] false).locate ".modules/github.com/acme/text" ⟨"/proj/main.sbl"⟩ =
        .ok cachedModule ∧
      cachedModule.LiesIn (projectWithCache [] false).cache) ∧
    ((projectWithCache [] false).locate "text" ⟨"/proj/.modules/github.com/acme/list.sbl"⟩ =
        .ok cachedModule ∧
      cachedModule.LiesIn (projectWithCache [] false).cache) ∧
    ((projectWithCache [⟨"/proj/.modules/github.com"⟩] false).locate "acme/text"
        ⟨"/proj/main.sbl"⟩ = .ok cachedModule ∧
      cachedModule.LiesIn (projectWithCache [⟨"/proj/.modules/github.com"⟩] false).cache) ∧
    ((projectWithCache [] true).locate "github.com/../../main" ⟨"/proj/main.sbl"⟩ =
        .ok ⟨"/proj/main.sbl"⟩ ∧
      ¬ Path.LiesIn ⟨"/proj/main.sbl"⟩ (projectWithCache [] true).cache) := by
  decide +kernel

end Loader

end Sable
