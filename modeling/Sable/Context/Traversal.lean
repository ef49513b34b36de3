import Sable.Context
import Sable.Module.Traversal

/-!
# Traversals of bound imports

Behind the first pass, every import is bound or has failed. The later passes follow an import
by its alias to the module that the alias is bound to, and lead every module one phase on.
-/

namespace Sable.Context

/-- The module that an alias stands for, if it is just in front of a phase. -/
def nextModule (target : Phase) (s : ScopeId) (i : Import) (ctx : Context) :
    Option String × Context :=
  ((ctx.scopes.importedKey? s i.localAlias).filter fun key => ctx.canProcess key target, ctx)

/-- The traversal that leads every module to a phase from the one in front of it. -/
def traversal (target : Phase) (pass : Pass) (activity : String)
    (visitor : Module → Visitor Context) : Traversal Context where
  enter key ctx := ctx.enter key target pass activity
  visitor := visitor
  leave key ctx := ctx.setPhase key target
  giveUp _ ctx := ctx

/--
Runs a traversal on the module under a key. Bound imports form no cycle, so the number of
modules bounds the depth.
-/
def traverse (t : Traversal Context) (key : String) (ctx : Context) : Context :=
  t.runWithin (ctx.modules.length + 1) key ctx

end Sable.Context
