import Sable.Error
import Sable.Path

/-!
# Source stores

A source store says which paths name files and hands out their texts. A store in memory
knows its files by normalized paths; a store over a directory follows every step of a path
and so needs every directory on the way to exist.
-/

namespace Sable

/-- The reasons for which an entry of a directory is not read. -/
inductive AccessFailure
  /-- The path holds the character that ends a name in a file system. -/
  | nulInName
  /-- The path, or the name of one of its steps, takes too many bytes. -/
  | nameTooLong
  /-- A step of the path leads to nothing. -/
  | notFound
  /-- A step of the path leads through a file. -/
  | notADirectory
  /-- The path leads to a directory. -/
  | isADirectory
  /-- The file holds no valid text. -/
  | notText
  deriving DecidableEq, Repr

/-- The wording that a file system has for a reason. -/
def AccessFailure.message : AccessFailure → String
  | nulInName => "file name contained an unexpected NUL byte"
  | nameTooLong => "File name too long (os error 36)"
  | notFound => "No such file or directory (os error 2)"
  | notADirectory => "Not a directory (os error 20)"
  | isADirectory => "Is a directory (os error 21)"
  | notText => "stream did not contain valid UTF-8"

/-- The files below a working directory: names from there, and the text if it is valid. -/
structure FileTree where
  /-- The files; of two with the same names the later counts. -/
  files : List (List (List Char) × Option String)

namespace FileTree

/-- The tree of files that are given by paths from the working directory. -/
def ofFiles (files : List (Path × Option String)) : FileTree :=
  ⟨files.map fun (p, text) =>
    (p.normalComponents.filterMap fun
      | .name s => some s
      | _ => none, text)⟩

/-- The file at some names from the working directory. -/
def file? (t : FileTree) (names : List (List Char)) : Option (Option String) :=
  (t.files.reverse.find? fun (ns, _) => ns == names).map Prod.snd

/-- Whether some names lead to a directory: the working directory, or one that holds a file. -/
def isDirectory (t : FileTree) (names : List (List Char)) : Bool :=
  names.isEmpty || t.files.any fun (ns, _) => names.length < ns.length && names.isPrefixOf ns

/-- Where a walk along a path stands. -/
inductive Place
  /-- At some names below the working directory. -/
  | inside (names : List (List Char))
  /-- That many steps above the working directory, and one. -/
  | above (steps : Nat)
  /-- At the root of all directories. -/
  | root
  deriving DecidableEq, Repr

/-- The greatest number of bytes in the name of a directory entry. -/
def maxNameBytes : Nat := 255

/-- The greatest number of bytes in a path. -/
def maxPathBytes : Nat := 4095

/-- Whether a name takes too many bytes to be that of a directory entry. -/
def isTooLong (name : List Char) : Bool := maxNameBytes < (String.ofList name).utf8ByteSize

/--
One step of a walk. Nothing is known of directories beside the working directory. A name is
looked up in a directory only, and only a name that is not too long.
-/
def step (t : FileTree) : Place → PathComponent → Except AccessFailure Place
  | place, .here => .ok place
  | _, .root => .ok .root
  | .inside names, .up =>
    if t.isDirectory names then
      .ok (if names.isEmpty then .above 0 else .inside names.dropLast)
    else .error .notADirectory
  | .above n, .up => .ok (.above (n + 1))
  | .root, .up => .ok .root
  | .inside names, .name s =>
    if !t.isDirectory names then .error .notADirectory
    else if isTooLong s then .error .nameTooLong
    else
      let names := names ++ [s]
      if t.isDirectory names || (t.file? names).isSome then .ok (.inside names)
      else .error .notFound
  | .above _, .name s => .error (if isTooLong s then .nameTooLong else .notFound)
  | .root, .name s => .error (if isTooLong s then .nameTooLong else .notFound)

/-- Follows the steps of a path from a place. -/
def walk (t : FileTree) : Place → List PathComponent → Except AccessFailure Place
  | place, [] => .ok place
  | place, c :: cs =>
    match t.step place c with
    | .ok place => t.walk place cs
    | .error e => .error e

/-- Whether the text of a path asks for a directory: it ends in a slash, or in a slash and a dot. -/
def asksForDirectory (p : Path) : Bool :=
  match (Path.segments p.text.toList).reverse with
  | last :: _ :: _ => last.isEmpty || last == ['.']
  | _ => false

/-- The text of the file that a path leads to. -/
def read (t : FileTree) (p : Path) : Except AccessFailure String :=
  if p.text.toList.contains '\x00' then .error .nulInName
  else if maxPathBytes < p.text.utf8ByteSize then .error .nameTooLong
  else if p.text.isEmpty then .error .notFound
  else
    match t.walk (.inside []) p.components with
    | .error e => .error e
    | .ok (.inside names) =>
      match t.file? names with
      | some text? =>
        if asksForDirectory p then .error .notADirectory
        else match text? with
          | some text => .ok text
          | none => .error .notText
      | none => .error .isADirectory
    | .ok _ => .error .isADirectory

/-- Whether a path leads to a file, of valid text or not. -/
def isFile (t : FileTree) (p : Path) : Bool :=
  match t.read p with
  | .ok _ => true
  | .error e => e == .notText

end FileTree

/-- A place that source texts are read from. -/
inductive SourceFiles
  /-- Files held in memory, by path and text; of two with one path the later counts. -/
  | memory (files : List (Path × String))
  /-- The files below a working directory. -/
  | tree (t : FileTree)

namespace SourceFiles

/-- The text held in memory under a path, whatever its spelling. -/
def textInMemory? (files : List (Path × String)) (p : Path) : Option String :=
  (files.reverse.find? fun (q, _) => q.normalize = p.normalize).map Prod.snd

/-- Whether a path names a file. -/
def isFile : SourceFiles → Path → Bool
  | memory files, p => (textInMemory? files p).isSome
  | tree t, p => t.isFile p

/-- The text of the file that a path names. -/
def read : SourceFiles → Path → Except ReadError String
  | memory files, p =>
    match textInMemory? files p with
    | some text => .ok text
    | none => .error (.noSuchFile p.text)
  | tree t, p => (t.read p).mapError fun e => .failed p.text e.message

/-- At least the number of files that different normalized paths name. -/
def size : SourceFiles → Nat
  | memory files => files.length
  | tree t => t.files.length

end SourceFiles

end Sable
