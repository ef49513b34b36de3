import Sable.Scope

/-!
# Outlines

An outline shows the names of a scope with their types and, nested, the names of their
members, always in ascending order of the names.
-/

namespace Sable

/-- A declared name with its kind, the text of its type, and its members. -/
inductive Outline
  | mk (name : String) (kind : SymbolKind) (type? : Option String) (members : List Outline)

namespace ScopeForest

/-- The names of a scope with their members, at most `n` scopes deep. -/
def outlineWithin (F : ScopeForest) : Nat → ScopeId → List Outline
  | 0, _ => []
  | n + 1, s =>
    (F.sortedSymbols s).map fun x =>
      .mk x.name x.kind (x.ty?.map Ty.text)
        (match x.members? with
        | some t => F.outlineWithin n t
        | none => [])

/--
The names of a scope with their members. The scope of a member is opened after the scope that
declares it, so the number of scopes bounds the depth.
-/
def outline (F : ScopeForest) (s : ScopeId) : List Outline := F.outlineWithin F.size s

end ScopeForest

end Sable
