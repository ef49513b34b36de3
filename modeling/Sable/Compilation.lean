import Sable.Context.Collection
import Sable.Context.Resolution
import Sable.Context.Typing
import Sable.Scope.Outline

/-!
# Checking programs

An entry file is parsed and put through the three passes, together with all modules that
it imports. The problems of a program are reported in the context, and a syntax error or a
critical error keeps the next pass from being started; only an entry file that cannot be read
is an error of the check itself.
-/

namespace Sable.Compilation

/-- A compilation that knows nothing but where to look for modules. -/
def new (loader : Loader) : Compilation := ⟨Context.initial, loader⟩

/-- Runs the next pass, unless some problem keeps it from being started. -/
def andThen (c : Compilation) (pass : Context → Context) : Compilation :=
  if c.context.diagnostics.hasFatal then c else c.update pass

/-- Puts the module under a key through all passes. -/
def runPasses (key : String) (c : Compilation) : Compilation :=
  ((c.collect key).andThen (Context.resolve key)).andThen (Context.check key)

/-- Checks an entry file and yields the key of its module. -/
def check (entry : Path) (c : Compilation) : Except ReadError String × Compilation :=
  let key := c.loader.moduleKey entry
  let c := c.update fun ctx => { ctx with entry? := some key }
  match c.register key entry with
  | (.ok _, c) => (.ok key, c.runPasses key)
  | (.error (.read e), c) => (.error e, c)
  | (.error (.grammar e), c) =>
    (.ok key, c.update fun ctx => ctx.report (loadReport entry (.grammar e)))

/-- The names that the module under a key declares. -/
def outline (key : String) (c : Compilation) : Except UnknownModule (List Outline) :=
  (c.context.registered key).map fun m => c.context.scopes.outline m.root

end Sable.Compilation
