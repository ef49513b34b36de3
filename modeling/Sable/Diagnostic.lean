import Sable.Span

/-!
# Diagnostics

What the passes report about a program. A pass goes on after it has reported something; a
syntax error or a critical error only keeps the next pass from being started.
-/

namespace Sable

/-- How serious a reported problem is, in ascending order. -/
inductive Severity
  | info
  | warning
  | error
  | semanticError
  | syntaxError
  | criticalError
  deriving DecidableEq, Repr

namespace Severity

/-- Every severity once, in ascending order. -/
def all : List Severity := [info, warning, error, semanticError, syntaxError, criticalError]

/-- The severity in machine-readable output. -/
def key : Severity → String
  | info => "info"
  | warning => "warning"
  | error => "error"
  | semanticError => "semantic_error"
  | syntaxError => "syntax_error"
  | criticalError => "critical_error"

/-- The severity in messages. -/
def text : Severity → String
  | info => "info"
  | warning => "warning"
  | error => "error"
  | semanticError => "semantic error"
  | syntaxError => "syntax error"
  | criticalError => "critical error"

/-- Whether a problem of the severity makes a program wrong. -/
def isError : Severity → Bool
  | info | warning => false
  | _ => true

/-- Whether a problem of the severity keeps the next pass from being started. -/
def isFatal : Severity → Bool
  | syntaxError | criticalError => true
  | _ => false

theorem isError_of_isFatal {s : Severity} (h : s.isFatal = true) : s.isError = true := by
  cases s <;> simp_all [isFatal, isError]

end Severity

/-- The part of the compiler that a problem is found by. -/
inductive Pass
  | lexing
  | parsing
  | collecting
  | resolving
  | typechecking
  deriving DecidableEq, Repr

namespace Pass

/-- Every pass once, in the order in which they run. -/
def all : List Pass := [lexing, parsing, collecting, resolving, typechecking]

/-- The pass in machine-readable output. -/
def key : Pass → String
  | lexing => "lexing"
  | parsing => "parsing"
  | collecting => "collecting"
  | resolving => "resolving"
  | typechecking => "typechecking"

/-- The pass in messages. -/
def text : Pass → String
  | lexing => "lexing"
  | parsing => "parsing"
  | collecting => "collecting symbols"
  | resolving => "resolving"
  | typechecking => "type checking"

end Pass

/-- A reported problem. -/
structure Diagnostic where
  /-- The name of the file that the problem is in. -/
  file : String
  /-- Where the problem is. -/
  span : Span
  /-- What the problem is. -/
  message : String
  /-- How serious the problem is. -/
  severity : Severity
  /-- The pass that found the problem. -/
  pass : Pass
  /-- How the problem came about, if that needs saying. -/
  hint? : Option String
  deriving DecidableEq, Repr

/-- The text of a problem: what and where it is on lines of their own. -/
def Diagnostic.text (d : Diagnostic) : String :=
  "[" ++ d.severity.text ++ " while " ++ d.pass.text ++ "]: " ++ d.message ++
    "\n  --> " ++ d.file ++ ":" ++ toString d.span.start ++ ".." ++ toString d.span.stop ++
    match d.hint? with
    | some hint => "\n  hint: " ++ hint
    | none => ""

/-- The problems reported so far, in the order of the reports, and what they mean for the passes. -/
structure Diagnostics where
  /-- The problems, the earliest first. -/
  items : List Diagnostic
  /-- Whether some problem keeps the next pass from being started. -/
  hasFatal : Bool
  /-- Just a syntax error or a critical error does. -/
  hasFatal_eq : hasFatal = items.any fun d => d.severity.isFatal

namespace Diagnostics

/-- No problem. -/
def empty : Diagnostics := ⟨[], false, rfl⟩

/-- One more problem; a fatal one is remembered. -/
def add (ds : Diagnostics) (d : Diagnostic) : Diagnostics where
  items := ds.items ++ [d]
  hasFatal := if d.severity.isFatal then true else ds.hasFatal
  hasFatal_eq := by
    rw [List.any_append, ← ds.hasFatal_eq, List.any_cons, List.any_nil, Bool.or_false]
    cases d.severity.isFatal <;> simp

/-- The number of problems of one severity. -/
def count (ds : Diagnostics) (s : Severity) : Nat := ds.items.countP fun d => d.severity = s

/-- The number of problems that make the program wrong. -/
def errorCount (ds : Diagnostics) : Nat := ds.items.countP fun d => d.severity.isError

/-- The number of warnings. -/
def warningCount (ds : Diagnostics) : Nat := ds.count .warning

/-- Whether some problem makes the program wrong. -/
def hasErrors (ds : Diagnostics) : Bool := ds.items.any fun d => d.severity.isError

/-- Whether there is some warning. -/
def hasWarnings (ds : Diagnostics) : Bool := ds.items.any fun d => d.severity = .warning

/-- A number of things, with the plural of their name unless there is exactly one. -/
def counted (n : Nat) (noun : String) : String :=
  toString n ++ " " ++ noun ++ if n = 1 then "" else "s"

/-- The numbers of errors and warnings on one line. -/
def summary (ds : Diagnostics) : String :=
  counted ds.errorCount "error" ++ ", " ++ counted ds.warningCount "warning"

@[simp] theorem items_add (ds : Diagnostics) (d : Diagnostic) :
    (ds.add d).items = ds.items ++ [d] := rfl

@[simp] theorem hasFatal_add (ds : Diagnostics) (d : Diagnostic) :
    (ds.add d).hasFatal = (ds.hasFatal || d.severity.isFatal) := by
  cases h : d.severity.isFatal <;> simp [add, h]

end Diagnostics

end Sable
