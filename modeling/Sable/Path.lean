/-!
# Paths

A path is kept as it is written, since messages show it so. Its meaning is the list of its
components: slashes separate them, repeated slashes count once, and a dot counts only at the
start. Normalization folds dots and parent steps without looking at any directory.
-/

namespace Sable

/-- A path as it is written. -/
structure Path where
  /-- The text of the path. -/
  text : String
  deriving DecidableEq, Repr, Inhabited

/-- A step that a path takes. -/
inductive PathComponent
  /-- To the root of all directories. -/
  | root
  /-- Nowhere. -/
  | here
  /-- To the directory around. -/
  | up
  /-- To the entry of a given name. -/
  | name (s : List Char)
  deriving DecidableEq, Repr

namespace PathComponent

/-- The text of a step between two slashes. -/
def text : PathComponent → List Char
  | root => []
  | here => ['.']
  | up => ['.', '.']
  | name s => s

/-- The step that the text between two slashes stands for; none if it does not count. -/
def ofSegment? (segment : List Char) : Option PathComponent :=
  if segment = [] ∨ segment = ['.'] then none
  else if segment = ['.', '.'] then some up
  else some (name segment)

end PathComponent

namespace Path

/-- The texts between the slashes. -/
def segments : List Char → List (List Char)
  | [] => [[]]
  | c :: cs =>
    if c = '/' then [] :: segments cs
    else match segments cs with
      | segment :: rest => (c :: segment) :: rest
      | [] => [[c]]

/-- Whether a path starts at the root of all directories. -/
def isAbsolute (p : Path) : Bool := p.text.toList.head? == some '/'

/-- The steps of a path. -/
def components (p : Path) : List PathComponent :=
  let parts := segments p.text.toList
  let steps := parts.filterMap PathComponent.ofSegment?
  if p.isAbsolute then .root :: steps
  else if parts.head? = some ['.'] then .here :: steps
  else steps

/-- The texts of steps with slashes between them. -/
def joinText : List PathComponent → List Char
  | [] => []
  | [c] => c.text
  | c :: cs => c.text ++ '/' :: joinText cs

/-- The shortest path that takes the given steps. -/
def ofComponents : List PathComponent → Path
  | [.root] => ⟨"/"⟩
  | cs => ⟨String.ofList (joinText cs)⟩

/--
One more step behind the normalized steps so far, the last one first. A parent step cancels
the step before it, also one that is a parent step itself; it stays where there is no step
that it could cancel.
-/
def foldStep (done : List PathComponent) (c : PathComponent) : List PathComponent :=
  match c, done with
  | .here, _ => done
  | .up, .name _ :: rest => rest
  | .up, .up :: rest => rest
  | c, _ => c :: done

/-- The steps of a path without dots and cancelled parent steps. -/
def normalComponents (p : Path) : List PathComponent :=
  (p.components.foldl foldStep []).reverse

/-- The path without dots and cancelled parent steps. -/
def normalize (p : Path) : Path := ofComponents p.normalComponents

/-- The path of `q` as seen from the directory `p`; an absolute `q` is seen from nowhere. -/
def join (p q : Path) : Path :=
  if q.isAbsolute then q
  else if p.text.toList.getLast?.all (· == '/') then ⟨p.text ++ q.text⟩
  else ⟨p.text ++ "/" ++ q.text⟩

/-- The path without its last step, unless there is none or only the step to the root. -/
def parent? (p : Path) : Option Path :=
  match p.components.getLast? with
  | none => none
  | some .root => none
  | some _ => some (ofComponents p.components.dropLast)

/-- Whether two paths take the same steps. -/
def same (p q : Path) : Bool := p.components == q.components

/-- The steps of `cs` behind those of `start`, if it begins with them. -/
def stripStart : List PathComponent → List PathComponent → Option (List PathComponent)
  | [], cs => some cs
  | _ :: _, [] => none
  | s :: start, c :: cs => if s = c then stripStart start cs else none

end Path

end Sable
