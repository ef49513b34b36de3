import Sable.CommandLine.Arguments
import Sable.Compilation
import Sable.JsonValue

/-!
# The command line

What each command prints and the code that it ends with. Problems of a program go to the
error output unless they are asked for in JSON; a program with errors, a file that cannot be
read and an analysis that stops early end with one, and wrong arguments with two.
-/

namespace Sable

/-- What a command does to the outside. -/
structure Outcome where
  /-- The code that the command ends with. -/
  code : Nat
  /-- The text on the standard output. -/
  stdout : String
  /-- The text on the error output. -/
  stderr : String
  deriving DecidableEq, Repr

/-- A span as a JSON value. -/
def Span.toJson (s : Span) : JsonValue :=
  .object [("start", .number s.start), ("end", .number s.stop), ("file_id", .number s.file)]

/-- A problem as a JSON value; a hint is a member only if there is one. -/
def Diagnostic.toJson (d : Diagnostic) : JsonValue :=
  .object ([("file", .string d.file), ("span", d.span.toJson), ("message", .string d.message),
      ("severity", .string d.severity.key), ("phase", .string d.pass.key)] ++
    match d.hint? with
    | some hint => [("hint", .string hint)]
    | none => [])

mutual

/-- A declared name as a JSON value; type and members are there only if there are any. -/
def Outline.toJson : Outline → JsonValue
  | .mk name kind type? members =>
    .object ([("name", .string name), ("kind", .string kind.text)] ++
      (match type? with
      | some t => [("type", .string t)]
      | none => []) ++
      match members with
      | [] => []
      | x :: xs => [("members", .array (x.toJson :: Outline.listToJson xs))])

/-- Declared names as JSON values. -/
def Outline.listToJson : List Outline → List JsonValue
  | [] => []
  | x :: xs => x.toJson :: Outline.listToJson xs

end

namespace CommandLine

/-- The name and the version of the program. -/
def versionLine : String := "sablec 0.1.0\n"

/-- What the program is. -/
def about : String := versionLine ++ "Sable Compiler\nLicense: Apache-2.0\n"

/-- How the program is called. -/
def usage : String :=
  "Sable compiler - semantic checker for Sable modules\n\n" ++
  "Usage: sablec [OPTIONS] <COMMAND>\n\n" ++
  "Commands:\n" ++
  "  check    Check a source file and everything it imports\n" ++
  "  symbols  Print the symbols of a module as JSON\n" ++
  "  version  Print version information\n\n" ++
  "Options:\n" ++
  "  -v, --verbose  Enable debug logging\n" ++
  "  -h, --help     Print help\n" ++
  "  -V, --version  Print version\n"

/-- The directory of a file, or the working directory if the file is named alone. -/
def directoryOf (input : Path) : Path :=
  match input.parent? with
  | some dir => if dir.text.isEmpty then ⟨"."⟩ else dir
  | none => ⟨"."⟩

/-- The options for looking modules up that arguments state. -/
def lookupOptions (p : ProjectArguments) : LookupOptions :=
  let root := (p.root?.map Path.mk).getD (directoryOf ⟨p.input⟩)
  let options := (p.searchPaths.map Path.mk).foldl LookupOptions.addSearchPath
    (LookupOptions.ofRoot root)
  { options with allowRemote := p.allowRemote }

/-- Checks the source file that arguments state, with the files of the working directory. -/
def checkInput (files : FileTree) (p : ProjectArguments) : Except ReadError String × Compilation :=
  (Compilation.new (Loader.new (lookupOptions p) (.tree files))).check ⟨p.input⟩

/-- The outcome for a source file that cannot be read. -/
def unreadable (p : ProjectArguments) (e : ReadError) : Outcome :=
  ⟨1, "", "Error: could not check " ++ p.input ++ ": " ++ e.message ++ "\n"⟩

/-- The problems of a program, each with an empty line behind it. -/
def problems (ds : Diagnostics) : String :=
  String.join (ds.items.map fun d => d.text ++ "\n\n")

/-- The problems of a program in JSON. -/
def problemsJson (ds : Diagnostics) : String :=
  (JsonValue.array (ds.items.map Diagnostic.toJson)).text ++ "\n"

/-- The line for a program without errors. -/
def successLine (ctx : Context) : String :=
  "✅ No errors found (" ++ toString ctx.modules.length ++ " modules, " ++
    ctx.diagnostics.summary ++ ")\n"

/-- The line for a program with errors. -/
def failureLine (p : ProjectArguments) (ds : Diagnostics) : String :=
  "Checked " ++ p.input ++ ": " ++ ds.summary ++ "\n"

/-- Reports the problems of a program. -/
def check (files : FileTree) (p : ProjectArguments) (json : Bool) : Outcome :=
  match checkInput files p with
  | (.error e, _) => unreadable p e
  | (.ok _, c) =>
    let ds := c.context.diagnostics
    let out := if json then problemsJson ds else ""
    let err := if json then "" else problems ds
    if ds.hasErrors then ⟨1, out, err ++ failureLine p ds⟩
    else ⟨0, if json then out else successLine c.context, err⟩

/-- Prints the names that the module of the source file declares. -/
def symbols (files : FileTree) (p : ProjectArguments) : Outcome :=
  match checkInput files p with
  | (.error e, _) => unreadable p e
  | (.ok key, c) =>
    let ds := c.context.diagnostics
    if ds.hasFatal then
      ⟨1, "", problems ds ++ "Error: analysis of '" ++ key ++ "' stopped early\n"⟩
    else
      match c.outline key with
      | .ok entries => ⟨0, (JsonValue.array (Outline.listToJson entries)).text ++ "\n", ""⟩
      | .error e => ⟨1, "", "Error: " ++ e.message ++ "\n"⟩

/-- Runs a command on the files of the working directory. -/
def execute (files : FileTree) : Command → Outcome
  | .check p json => check files p json
  | .symbols p => symbols files p
  | .version => ⟨0, about, ""⟩

/-- Runs the program with its arguments on the files of the working directory. -/
def run (files : FileTree) (args : List String) : Outcome :=
  match Invocation.ofArguments args with
  | .ok invocation => execute files invocation.command
  | .error .invalid => ⟨2, "", usage⟩
  | .error .help => ⟨0, usage, ""⟩
  | .error .version => ⟨0, versionLine, ""⟩

end CommandLine

end Sable
