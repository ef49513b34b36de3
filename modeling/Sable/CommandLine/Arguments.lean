/-!
# Command-line arguments

The arguments name one of three commands. Options may stand anywhere behind the command. A
value stands behind its option as an argument of its own, or in the same argument with an
equals sign in between; behind a short option the equals sign may be missing. An argument
that starts with a dash is never taken as a value by itself. No option but the one for search
paths may be repeated.
-/

namespace Sable

/-- The arguments that say which program to work on. -/
structure ProjectArguments where
  /-- The source file. -/
  input : String
  /-- The root directory of the project, if it is not that of the source file. -/
  root? : Option String
  /-- More directories to look for modules in. -/
  searchPaths : List String
  /-- Whether modules of the remote cache may be imported. -/
  allowRemote : Bool
  deriving DecidableEq, Repr

/-- What the command line asks for. -/
inductive Command
  /-- Report the problems of a program, as text or in JSON. -/
  | check (project : ProjectArguments) (json : Bool)
  /-- Print the names that a module declares. -/
  | symbols (project : ProjectArguments)
  /-- Print what the compiler is. -/
  | version
  deriving DecidableEq, Repr

/-- A command, and whether to log what is going on. -/
structure Invocation where
  /-- What to do. -/
  command : Command
  /-- Whether to log what is going on. -/
  verbose : Bool
  deriving DecidableEq, Repr

/-- The reasons for which arguments name no command to run. -/
inductive ArgumentStop
  /-- The arguments are wrong. -/
  | invalid
  /-- The arguments ask for help. -/
  | help
  /-- The arguments ask for the version of the program. -/
  | version
  deriving DecidableEq, Repr

namespace Arguments

/-- The words that name a command. -/
inductive CommandWord
  | check
  | symbols
  | version
  deriving DecidableEq, Repr

/-- The command that a word names. -/
def CommandWord.ofText? (word : String) : Option CommandWord :=
  if word = "check" then some check
  else if word = "symbols" then some symbols
  else if word = "version" then some version
  else none

/-- The options that are on or off. -/
inductive Switch
  | verbose
  | allowRemote
  | json
  deriving DecidableEq, Repr

/-- The options that have a value. -/
inductive ValueOption
  | root
  | searchPath
  deriving DecidableEq, Repr

/-- Whether a command works on a program. -/
def CommandWord.hasProject : CommandWord → Bool
  | check | symbols => true
  | version => false

/-- The switch that a long option of a command names. -/
def CommandWord.switch? (w : CommandWord) (name : String) : Option Switch :=
  if name = "verbose" then some .verbose
  else if name = "allow-remote" ∧ w.hasProject then some .allowRemote
  else if name = "json" ∧ w = .check then some .json
  else none

/-- The option with a value that a long option of a command names. -/
def CommandWord.valueOption? (w : CommandWord) (name : String) : Option ValueOption :=
  if ¬ w.hasProject then none
  else if name = "root" then some .root
  else if name = "search-path" then some .searchPath
  else none

/-- What has been read of the arguments of a command. -/
structure Draft where
  /-- The source file. -/
  input? : Option String
  /-- The root directory. -/
  root? : Option String
  /-- The search paths, in order. -/
  searchPaths : List String
  /-- The switches that are on. -/
  switches : List Switch
  deriving DecidableEq, Repr

namespace Draft

/-- Nothing has been read. -/
def empty : Draft := ⟨none, none, [], []⟩

/-- Turns a switch on, which must be off. -/
def turnOn (d : Draft) (s : Switch) : Except ArgumentStop Draft :=
  if d.switches.contains s then .error .invalid
  else .ok { d with switches := d.switches ++ [s] }

/-- Gives a value to an option; no value is empty, and there is one root. -/
def setValue (d : Draft) (o : ValueOption) (value : String) : Except ArgumentStop Draft :=
  if value.isEmpty then .error .invalid
  else
    match o with
    | .searchPath => .ok { d with searchPaths := d.searchPaths ++ [value] }
    | .root => if d.root?.isSome then .error .invalid else .ok { d with root? := some value }

/-- Takes an argument that belongs to no option: the source file, if there is none yet. -/
def setInput (d : Draft) (w : CommandWord) (value : String) : Except ArgumentStop Draft :=
  if w.hasProject ∧ d.input?.isNone ∧ ¬ value.isEmpty then .ok { d with input? := some value }
  else .error .invalid

/-- The arguments of a command that works on a program. -/
def project (d : Draft) : Except ArgumentStop ProjectArguments :=
  match d.input? with
  | some input => .ok ⟨input, d.root?, d.searchPaths, d.switches.contains .allowRemote⟩
  | none => .error .invalid

/-- The command that has been read. -/
def command (d : Draft) : CommandWord → Except ArgumentStop Command
  | .check => d.project.map fun p => .check p (d.switches.contains .json)
  | .symbols => d.project.map .symbols
  | .version => .ok .version

end Draft

/-- Whether an argument starts with a dash that more characters follow. -/
def isOption (arg : List Char) : Bool :=
  match arg with
  | '-' :: _ :: _ => true
  | _ => false

/-- The parts of a long option in front of and behind its first equals sign. -/
def splitValue (option : List Char) : String × Option String :=
  let name := option.takeWhile (· != '=')
  (String.ofList name,
    match option.drop name.length with
    | _ :: value => some (String.ofList value)
    | [] => none)

/-- Reads a long option without its dashes; the answer says which option still needs a value. -/
def readLong (w : CommandWord) (d : Draft) (option : List Char) :
    Except ArgumentStop (Option ValueOption × Draft) :=
  let (name, value?) := splitValue option
  match w.valueOption? name, value? with
  | some o, some value => (d.setValue o value).map fun d => (none, d)
  | some o, none => .ok (some o, d)
  | none, some _ => .error .invalid
  | none, none =>
    if name = "help" then .error .help
    else
      match w.switch? name with
      | some s => (d.turnOn s).map fun d => (none, d)
      | none => .error .invalid

/-- Reads short options without their dash; the answer says which one still needs a value. -/
def readShort (w : CommandWord) (d : Draft) :
    List Char → Except ArgumentStop (Option ValueOption × Draft)
  | [] => .ok (none, d)
  | 'v' :: more =>
    match d.turnOn .verbose with
    | .ok d => readShort w d more
    | .error e => .error e
  | 'h' :: _ => .error .help
  | 'I' :: more =>
    if w.hasProject then
      match more with
      | [] => .ok (some .searchPath, d)
      | '=' :: value => (d.setValue .searchPath (String.ofList value)).map fun d => (none, d)
      | value => (d.setValue .searchPath (String.ofList value)).map fun d => (none, d)
    else .error .invalid
  | _ => .error .invalid

/-- Reads the arguments behind a double dash, none of which is an option. -/
def readOperands (w : CommandWord) : Draft → List String → Except ArgumentStop Draft
  | d, [] => .ok d
  | d, arg :: args =>
    match d.setInput w arg with
    | .ok d => readOperands w d args
    | .error e => .error e

/-- Reads the arguments of a command, the first of them the value of a pending option. -/
def readArguments (w : CommandWord) :
    Option ValueOption → Draft → List String → Except ArgumentStop Draft
  | none, d, [] => .ok d
  | some _, _, [] => .error .invalid
  | some o, d, arg :: args =>
    if isOption arg.toList then .error .invalid
    else
      match d.setValue o arg with
      | .ok d => readArguments w none d args
      | .error e => .error e
  | none, d, arg :: args =>
    match arg.toList with
    | ['-', '-'] => readOperands w d args
    | '-' :: '-' :: option =>
      match readLong w d option with
      | .ok (pending, d) => readArguments w pending d args
      | .error e => .error e
    | '-' :: c :: options =>
      match readShort w d (c :: options) with
      | .ok (pending, d) => readArguments w pending d args
      | .error e => .error e
    | _ =>
      match d.setInput w arg with
      | .ok d => readArguments w none d args
      | .error e => .error e

/-- Reads short options in front of the command; the answer says whether to log. -/
def readLeadingShort : Bool → List Char → Except ArgumentStop Bool
  | verbose, [] => .ok verbose
  | verbose, 'v' :: more => if verbose then .error .invalid else readLeadingShort true more
  | _, 'h' :: _ => .error .help
  | _, 'V' :: _ => .error .version
  | _, _ => .error .invalid

/-- Reads a word in front of which no command stands. -/
def readWord (verbose : Bool) (word : String) (args : List String) :
    Except ArgumentStop Invocation :=
  match CommandWord.ofText? word with
  | some w =>
    match readArguments w none Draft.empty args with
    | .error e => .error e
    | .ok d =>
      (d.command w).map fun command => ⟨command, verbose || d.switches.contains .verbose⟩
  | none =>
    if word = "help" ∧ (args.isEmpty ∨ (args.length = 1 ∧
        args.all fun arg => (CommandWord.ofText? arg).isSome || arg == "help")) then
      .error .help
    else .error .invalid

/-- Reads the options in front of the command, and then the command. -/
def readLeading : Bool → List String → Except ArgumentStop Invocation
  | _, [] => .error .invalid
  | verbose, arg :: args =>
    match arg.toList with
    | '-' :: '-' :: option =>
      if option = "verbose".toList ∧ ¬ verbose then readLeading true args
      else if option = "help".toList then .error .help
      else if option = "version".toList then .error .version
      else .error .invalid
    | '-' :: c :: options =>
      match readLeadingShort verbose (c :: options) with
      | .ok verbose => readLeading verbose args
      | .error e => .error e
    | _ => readWord verbose arg args

end Arguments

/-- What the arguments of the program ask for. -/
def Invocation.ofArguments (args : List String) : Except ArgumentStop Invocation :=
  Arguments.readLeading false args

end Sable
