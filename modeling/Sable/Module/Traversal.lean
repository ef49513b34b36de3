import Sable.Module
import Sable.Module.Visitor

/-!
# Traversals

A traversal processes a module by walking its statements, and the modules that it imports on
the way: an import on the walk may turn to another module, which is processed to its end
before the walk goes on.
-/

namespace Sable

/-- How modules are processed by walks over their statements. -/
structure Traversal (σ : Type) where
  /-- Looks up the module under a key; none if it must not be processed now. -/
  enter : String → σ → Option Module × σ
  /-- What is done at the places of a module. -/
  visitor : Module → Visitor σ
  /-- Notes that the module under a key is processed. -/
  leave : String → σ → σ
  /-- Notes that the module under a key lies too deep to be processed. -/
  giveUp : String → σ → σ

/-- Processes the module under a key, turning from import to import at most `n` modules deep. -/
def Traversal.runWithin {σ : Type} (t : Traversal σ) : Nat → String → σ → σ
  | 0, key, c => t.giveUp key c
  | n + 1, key, c =>
    match t.enter key c with
    | (none, c) => c
    | (some m, c) =>
      t.leave key ((t.visitor m).walkStmts (t.runWithin n) m.root m.program.stmts c)

end Sable
