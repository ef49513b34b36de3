import Sable.Diagnostic
import Sable.ImportGraph
import Sable.Module
import Sable.Scope

/-!
# The context of a compilation

What all passes share: the scopes, the imports between modules, the problems reported, and
the modules by their keys. Only a phase of a registered module ever changes, and only
forward.
-/

namespace Sable

/-- The shared state of all passes. -/
structure Context where
  /-- All scopes; the first one holds the builtin types. -/
  scopes : ScopeForest
  /-- The imports between modules. -/
  graph : ImportGraph
  /-- The problems reported so far. -/
  diagnostics : Diagnostics
  /-- The key of the module that was asked for last. -/
  entry? : Option String
  /-- The modules, in the order of their registration. -/
  modules : List Module

namespace Context

/-- The scope of the builtin types, which is opened before all others. -/
def builtins : ScopeId := 0

/-- The context in which nothing but the builtin types is known. -/
def initial : Context where
  scopes := ((ScopeForest.empty.openScope none .global).2.declareBuiltins builtins).2
  graph := ImportGraph.empty
  diagnostics := Diagnostics.empty
  entry? := none
  modules := []

/-! ### Modules -/

/-- The module registered under a key. -/
def module? (ctx : Context) (key : String) : Option Module :=
  ctx.modules.find? fun m => m.key == key

/-- The module registered under a key, which has to exist. -/
def registered (ctx : Context) (key : String) : Except UnknownModule Module :=
  match ctx.module? key with
  | some m => .ok m
  | none => .error ⟨key⟩

/-- Whether a key is registered. -/
def hasModule (ctx : Context) (key : String) : Bool := (ctx.module? key).isSome

/--
Registers a parsed file under a key and opens its outermost scope. Nothing happens if the key
is registered already; the answer says whether it was free.
-/
def addModule (ctx : Context) (key : String) (file : Path) (program : Program) : Bool × Context :=
  if ctx.hasModule key then (false, ctx)
  else
    let (root, scopes) := ctx.scopes.openScope (some builtins) .global
    (true, { ctx with
      scopes := scopes
      modules := ctx.modules ++ [⟨key, file, program, root, .parsed⟩] })

/-- Forgets the module registered under a key; its scopes stay. -/
def eraseModule (ctx : Context) (key : String) : Context :=
  { ctx with modules := ctx.modules.filter fun m => m.key != key }

/-- The registered keys in ascending order. -/
def keys (ctx : Context) : List String :=
  (ctx.modules.map Module.key).mergeSort fun x y => decide (x ≤ y)

/-- The outermost scope of the module that was asked for last. -/
def entryRoot? (ctx : Context) : Option ScopeId :=
  (ctx.entry?.bind ctx.module?).map Module.root

/-! ### Phases -/

/-- How far the module under a key has come; an unknown one has not started. -/
def phase (ctx : Context) (key : String) : Phase :=
  ((ctx.module? key).map Module.phase).getD .notStarted

/-- Whether the module under a key has been parsed. -/
def isParsed (ctx : Context) (key : String) : Bool := decide (Phase.parsed ≤ ctx.phase key)

/-- Whether a phase change of the module under a key goes forward. -/
def canAdvance (ctx : Context) (key : String) (target : Phase) : Bool :=
  match ctx.module? key with
  | some m => decide (m.phase < target)
  | none => false

/-- Moves the module under a key forward to a phase; a move in another direction is ignored. -/
def setPhase (ctx : Context) (key : String) (target : Phase) : Context :=
  if ctx.canAdvance key target then
    { ctx with modules := ctx.modules.map fun m =>
        if m.key = key then { m with phase := target } else m }
  else ctx

/-- Whether the module under a key stands exactly one phase in front of a target. -/
def canProcess (ctx : Context) (key : String) (target : Phase) : Bool :=
  target.previous? == some (ctx.phase key)

/-! ### Reports -/

/-- Reports a problem. -/
def report (ctx : Context) (d : Diagnostic) : Context :=
  { ctx with diagnostics := ctx.diagnostics.add d }

/-- Reports a semantic error in the file of a module. -/
def reportIn (ctx : Context) (m : Module) (pass : Pass) (span : Span) (message : String) :
    Context :=
  ctx.report ⟨m.file.text, span, message, .semanticError, pass, none⟩

/-- The report of a module that a pass is asked to process before its time. -/
def notReady (ctx : Context) (key : String) (pass : Pass) (activity : String) : Diagnostic where
  file := ((ctx.module? key).map fun m => m.file.text).getD key
  span := Span.nowhere
  message := "module '" ++ key ++ "' is not ready for " ++ activity ++ " (phase: " ++
    (ctx.phase key).text ++ ")"
  severity := .criticalError
  pass := pass
  hint? := none

/--
The module that a pass is asked to process, if it stands just in front of the phase that the
pass leads to. A module that has not come so far is reported; one beyond is passed over.
-/
def enter (ctx : Context) (key : String) (target : Phase) (pass : Pass)
    (activity : String) : Option Module × Context :=
  if ctx.canProcess key target then (ctx.module? key, ctx)
  else if target ≤ ctx.phase key then (none, ctx)
  else (none, ctx.report (ctx.notReady key pass activity))

/-! ### Scopes -/

/-- Gives a type to the name that a declaration binds in a scope; a refused one binds none. -/
def setDeclaredType (ctx : Context) (s : ScopeId) (name : Ident) (ty : Ty) : Context :=
  if ctx.scopes.binds s name then
    { ctx with scopes := ctx.scopes.setType s name.name ty }
  else ctx

/-- Gives a type to a name in a scope. -/
def setType (ctx : Context) (s : ScopeId) (name : String) (ty : Ty) : Context :=
  { ctx with scopes := ctx.scopes.setType s name ty }

end Context

end Sable
