import Sable.Context
import Sable.Loader
import Sable.Module.Traversal

/-!
# Collecting declarations

The first pass declares every name of a module in the scope it belongs to. It follows imports,
so that an imported module is collected before the statement behind its import. Only functions
and types open scopes; blocks and conditions do not. No name gets a type here.

A declaration that is refused is reported, and what stands inside it is not collected.
-/

namespace Sable

/-- A context together with the loader that new modules come from. -/
structure Compilation where
  /-- The shared state of all passes. -/
  context : Context
  /-- Where modules come from. -/
  loader : Loader

namespace Compilation

/-- Changes the shared state of all passes. -/
def update (c : Compilation) (f : Context → Context) : Compilation :=
  { c with context := f c.context }

/-- Reports a semantic error of the first pass in the file of a module. -/
def reportIn (c : Compilation) (m : Module) (span : Span) (message : String) : Compilation :=
  c.update fun ctx => ctx.reportIn m .collecting span message

/-! ### Declarations -/

/--
Declares a name in a scope and yields the scope of its members, if the kind has one and the
name is not refused. A refused name is reported.
-/
def declare (c : Compilation) (m : Module) (s : ScopeId) (kind : SymbolKind) (name : Ident) :
    Option ScopeId × Compilation :=
  if name.name.isEmpty then
    (none, c.reportIn m name.span (kind.text ++ " declaration is missing a name"))
  else
    match c.context.scopes.declare s name kind none with
    | .ok (members?, scopes) => (members?, c.update fun ctx => { ctx with scopes := scopes })
    | .error e => (none, c.reportIn m name.span e.message)

/-- Declares names of one kind in a scope; a refused name does not stop the others. -/
def declareAll (m : Module) (s : ScopeId) (kind : SymbolKind) (names : List Ident)
    (c : Compilation) : Compilation :=
  names.foldl (fun c name => (c.declare m s kind name).2) c

/-- Declares a type and, if it is written as a struct type, its fields. -/
def collectTypeDecl (m : Module) (s : ScopeId) (d : TypeDecl) (c : Compilation) : Compilation :=
  match c.declare m s .type d.name with
  | (none, c) => c
  | (some members, c) =>
    match d.ty with
    | .struct fields _ => c.declareAll m members .field (fields.map FieldDecl.name)
    | _ => c

/--
The scope of the members of the type that a receiver names, as far as it is declared by now,
or the place and the wording of what is wrong with the receiver.
-/
def receiverMembers (F : ScopeForest) (s : ScopeId) (receiver : Param) :
    Except (Span × String) ScopeId :=
  match receiver.ty with
  | .named name =>
    match F.visible? s name.name with
    | none =>
      .error (name.span, "receiver type '" ++ name.name ++ "' not found in symbol table")
    | some x =>
      if x.kind.isType then
        match x.members? with
        | some members => .ok members
        | none =>
          .error (name.span, "receiver '" ++ name.name ++ "' is not a type with members")
      else .error (name.span, "receiver '" ++ name.name ++ "' is not a type")
  | ty => .error (ty.span, "method receiver must be a user-defined type")

/-- Declares a method in the scope of its receiver's members, and its receiver in its own. -/
def declareMethod (m : Module) (s : ScopeId) (receiver : Param) (name : Ident)
    (c : Compilation) : Option ScopeId × Compilation :=
  match receiverMembers c.context.scopes s receiver with
  | .error (span, message) => (none, c.reportIn m span message)
  | .ok members =>
    match c.declare m members .method name with
    | (none, c) => (none, c)
    | (some body, c) => (some body, (c.declare m body .var receiver.name).2)

/-- The kind of name that a `let` or a `const` declares. -/
def varKind (isConst : Bool) : SymbolKind := if isConst then .const else .var

/-! ### Imports -/

/-- Forgets the edge of an import that failed, unless an earlier import had recorded it. -/
def forgetEdge (m : Module) (key : String) (fresh : Bool) (c : Compilation) : Compilation :=
  if fresh then c.update fun ctx => { ctx with graph := ctx.graph.erase m.key key }
  else c

/-- Registers the module of a file, unless its key is registered; says why it cannot be parsed. -/
def register (key : String) (file : Path) (c : Compilation) : Except LoadError Unit × Compilation :=
  if c.context.hasModule key then (.ok (), c)
  else
    match c.loader.load file with
    | (.ok program, loader) => (.ok (), ⟨(c.context.addModule key file program).2, loader⟩)
    | (.error e, loader) => (.error e, ⟨c.context, loader⟩)

/-- The report of an import whose module cannot be found. -/
def unresolvedReport (m : Module) (i : Import) (e : LookupError) : Diagnostic :=
  ⟨m.file.text, i.span, e.message, .criticalError, .collecting, none⟩

/-- The report of an import that closes a cycle. -/
def cycleReport (m : Module) (i : Import) (key : String) (cycle : List String) : Diagnostic :=
  ⟨m.file.text, i.span, "import cycle detected: " ++ " -> ".intercalate cycle, .criticalError,
    .collecting,
    some ("'" ++ m.key ++ "' cannot import '" ++ key ++ "' because it already depends on it")⟩

/-- The report of a file that is not a program. -/
def loadReport (file : Path) (e : LoadError) : Diagnostic :=
  ⟨file.text, e.span?.getD Span.nowhere, e.message, .syntaxError, .parsing, none⟩

/--
Binds an import whose edge is recorded: its module is registered and the alias is bound. The
key comes out if the module is still to be collected. If the module has errors or the alias is
refused, the edge is dropped.
-/
def bindImport (m : Module) (s : ScopeId) (i : Import) (key : String) (file : Path)
    (fresh : Bool) (c : Compilation) : Option String × Compilation :=
  match c.register key file with
  | (.error e, c) =>
    (none, ((c.update fun ctx => ctx.report (loadReport file e)).reportIn m i.span
      ("failed to parse imported module '" ++ i.path ++ "'")).forgetEdge m key fresh)
  | (.ok _, c) =>
    match c.context.module? key with
    | none => (none, c.forgetEdge m key fresh)
    | some target =>
      match c.context.scopes.addImport s ⟨i.localAlias, key, target.root⟩ with
      | .error e => (none, (c.reportIn m i.span e.message).forgetEdge m key fresh)
      | .ok scopes =>
        (if Phase.collected ≤ c.context.phase key then none else some key,
          c.update fun ctx => { ctx with scopes := scopes })

/--
Collects an import: its file is found, its edge is recorded unless it closes a cycle, and then
it is bound. The edge is recorded first, so that the modules on the way to an import always
form a path of recorded edges.
-/
def collectImport (m : Module) (s : ScopeId) (i : Import) (c : Compilation) :
    Option String × Compilation :=
  match c.loader.locate i.path m.file with
  | .error e => (none, c.update fun ctx => ctx.report (unresolvedReport m i e))
  | .ok file =>
    let key := c.loader.moduleKey file
    let fresh := !c.context.graph.hasEdge m.key key
    match c.context.graph.insert m.key key with
    | .error cycle => (none, c.update fun ctx => ctx.report (cycleReport m i key cycle))
    | .ok graph =>
      bindImport m s i key file fresh (c.update fun ctx => { ctx with graph := graph })

/-! ### The pass -/

/-- Declares a function, and its parameters in the scope of its body. -/
def collectFunction (m : Module) (s : ScopeId) (name : Ident) (params : List Param)
    (c : Compilation) : Option ScopeId × Compilation :=
  match c.declare m s .func name with
  | (none, c) => (none, c)
  | (some body, c) => (some body, c.declareAll m body .var (params.map Param.name))

/-- Declares a method: as a function, with its receiver in front of its parameters. -/
def collectMethod (m : Module) (s : ScopeId) (receiver : Param) (name : Ident)
    (params : List Param) (c : Compilation) : Option ScopeId × Compilation :=
  match c.declareMethod m s receiver name with
  | (none, c) => (none, c)
  | (some body, c) => (some body, c.declareAll m body .var (params.map Param.name))

/-- Collection declares what is written at a place; names that are only used mean nothing yet. -/
def collector (m : Module) : Visitor Compilation where
  importing := collectImport m
  function s name params _ := collectFunction m s name params
  method s receiver name params _ := collectMethod m s receiver name params
  typeDecl := collectTypeDecl m
  declaring s isConst targets _ _ :=
    declareAll m s (varKind isConst) (targets.map VarBinder.name)
  declared _ _ _ c := c
  assigning _ _ _ c := c
  name _ _ c := c
  qualified _ _ _ c := c

/-- Collection leads every module from parsed to collected. -/
def collection : Traversal Compilation where
  enter key c :=
    let (m?, ctx) := c.context.enter key .collected .collecting "symbol collection"
    (m?, { c with context := ctx })
  visitor := collector
  leave key c := c.update fun ctx => ctx.setPhase key .collected
  giveUp _ c := c

/--
Collects the module under a key and all modules that it imports. The modules on the way to one
that is imported are different, and each is registered already or comes from a file of its
own; so their number bounds the depth.
-/
def collect (key : String) (c : Compilation) : Compilation :=
  collection.runWithin (c.context.modules.length + c.loader.store.size + 1) key c

end Compilation

end Sable
