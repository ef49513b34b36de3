import Sable.Source
import Sable.Syntax.Alias
import Sable.Syntax.Grammar

/-!
# Loading modules

A loader turns the path of an import into the path of a file, gives every module the key
that it goes by in all messages, and parses files. Files are numbered in the order in which
they are read; a file that cannot be read takes no number.
-/

namespace Sable

/-- Where modules are looked for. -/
structure LookupOptions where
  /-- The directory that keys are relative to. -/
  root : Path
  /-- More directories to look for local modules in, in order. -/
  searchPaths : List Path
  /-- Whether modules of the remote cache may be imported. -/
  allowRemote : Bool
  deriving DecidableEq, Repr

namespace LookupOptions

/-- The options for a root directory, without search paths and remote modules. -/
def ofRoot (root : Path) : LookupOptions := ⟨root, [], false⟩

/-- One more search path, unless it takes the same steps as one that is there. -/
def addSearchPath (o : LookupOptions) (p : Path) : LookupOptions :=
  if o.searchPaths.any fun q => q.same p then o
  else { o with searchPaths := o.searchPaths ++ [p] }

end LookupOptions

/-- The ending of the names of source files. -/
def sourceSuffix : List Char := ['.', 's', 'b', 'l']

/-- The start of the paths of remote modules. -/
def remoteStart : List Char := "github.com/".toList

/-- The directory under the root that holds the remote modules. -/
def remoteCache : Path := ⟨".modules"⟩

/-- The name of the file of a module: the ending is added if it is not there. -/
def sourceFile (path : String) : Path :=
  if sourceSuffix.isSuffixOf path.toList then ⟨path⟩ else ⟨path ++ String.ofList sourceSuffix⟩

/-- A text without the ending of source files, which is dropped once if it is there. -/
def withoutSourceSuffix (cs : List Char) : List Char :=
  if sourceSuffix.isSuffixOf cs then cs.take (cs.length - sourceSuffix.length) else cs

/-- A source store with the options for looking modules up, and the files read so far. -/
structure Loader where
  /-- Where modules are looked for. -/
  options : LookupOptions
  /-- Where texts are read from. -/
  store : SourceFiles
  /-- The paths of the files read so far, by their numbers. -/
  files : List Path

namespace Loader

/-- A loader that has read nothing. -/
def new (options : LookupOptions) (store : SourceFiles) : Loader := ⟨options, store, []⟩

/-- The path of the file of a given number. -/
def file? (l : Loader) (file : Nat) : Option Path := l.files[file]?

/-- The file of a remote module, which has to be allowed and installed. -/
def locateRemote (l : Loader) (path : String) : Except LookupError Path :=
  if l.options.allowRemote then
    let candidate := ((l.options.root.join remoteCache).join (sourceFile path)).normalize
    if l.store.isFile candidate then .ok candidate else .error (.notInstalled path)
  else .error (.notPermitted path)

/-- The directories in which a local module is looked for, in order. -/
def bases (l : Loader) (importer : Path) : List Path :=
  importer.parent?.toList ++ l.options.root :: l.options.searchPaths

/-- The file of a local module: the first candidate that exists. -/
def locateLocal (l : Loader) (path : String) (importer : Path) : Except LookupError Path :=
  let candidates := (l.bases importer).map fun base => (base.join (sourceFile path)).normalize
  match candidates.find? l.store.isFile with
  | some candidate => .ok candidate
  | none => .error (.moduleNotFound path)

/-- The file that an import stands for, given the file that holds the import. -/
def locate (l : Loader) (path : String) (importer : Path) : Except LookupError Path :=
  let path := slashed path
  if path.isEmpty then .error (.moduleNotFound path)
  else if remoteStart.isPrefixOf path.toList then l.locateRemote path
  else l.locateLocal path importer

/--
The key of the module of a file: its normalized path from the root, if it lies below the
root, with slashes for backslashes and without the ending of source files.
-/
def moduleKey (l : Loader) (p : Path) : String :=
  let steps := p.normalComponents
  let rest := (Path.stripStart l.options.root.normalComponents steps).getD steps
  String.ofList (withoutSourceSuffix (slashed (Path.ofComponents rest).text).toList)

/-- The text of a file. -/
def read (l : Loader) (p : Path) : Except ReadError String := l.store.read p

/-- Reads and parses a file; the file takes the next number once it has been read. -/
def load (l : Loader) (p : Path) : Except LoadError Program × Loader :=
  match l.read p with
  | .error e => (.error (.read e), l)
  | .ok text =>
    let result := Sable.parse text l.files.length
    (result.mapError .grammar, { l with files := l.files ++ [p] })

end Loader

end Sable
