import Sable.Path
import Sable.Symbol

/-!
# Modules

A module is a parsed file under its key. It goes through the passes one after the other and
never back; the phase says how far it has come.
-/

namespace Sable

/-- How far a module has come, in ascending order. -/
inductive Phase
  | notStarted
  | parsed
  | collected
  | resolved
  | typechecked
  deriving DecidableEq, Repr

namespace Phase

/-- Every phase once, in ascending order. -/
def all : List Phase := [notStarted, parsed, collected, resolved, typechecked]

/-- The number of phases before a phase. -/
def rank : Phase → Nat
  | notStarted => 0
  | parsed => 1
  | collected => 2
  | resolved => 3
  | typechecked => 4

instance : LE Phase := ⟨fun p q => p.rank ≤ q.rank⟩

instance : LT Phase := ⟨fun p q => p.rank < q.rank⟩

instance (p q : Phase) : Decidable (p ≤ q) := inferInstanceAs (Decidable (p.rank ≤ q.rank))

instance (p q : Phase) : Decidable (p < q) := inferInstanceAs (Decidable (p.rank < q.rank))

/-- The phase in front of a phase. -/
def previous? : Phase → Option Phase
  | notStarted => none
  | parsed => some notStarted
  | collected => some parsed
  | resolved => some collected
  | typechecked => some resolved

/-- The phase behind a phase. -/
def next? : Phase → Option Phase
  | notStarted => some parsed
  | parsed => some collected
  | collected => some resolved
  | resolved => some typechecked
  | typechecked => none

/-- The phase in machine-readable output. -/
def key : Phase → String
  | notStarted => "not_started"
  | parsed => "parsed"
  | collected => "collected"
  | resolved => "resolved"
  | typechecked => "typechecked"

/-- The phase in messages. -/
def text : Phase → String
  | notStarted => "Not Started"
  | parsed => "Parsed"
  | collected => "Collected"
  | resolved => "Resolved"
  | typechecked => "Type Checked"

end Phase

/-- A parsed file that is known to the compiler. -/
structure Module where
  /-- The name that the module goes by. -/
  key : String
  /-- The file that the module was read from. -/
  file : Path
  /-- The parsed text. -/
  program : Program
  /-- The outermost scope of the module. -/
  root : ScopeId
  /-- How far the module has come. -/
  phase : Phase

end Sable
