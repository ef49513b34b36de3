import Sable.Primitive

/-!
# Semantic types

The types that declarations are given. Named types and struct types are compared by their
name alone, whatever they are defined to be; arrays and functions are compared by their
parts. A value may be stored where its type equals the expected one, or where the two are
equal once the definitions of their aliases are followed.
-/

namespace Sable

/-- The type of a declared thing. -/
inductive Ty
  /-- A builtin type. -/
  | prim (p : Primitive)
  /-- A declared name for a type, without a definition where that is not known yet. -/
  | named (name : String) (definition : Option Ty)
  /-- Fields by name, in ascending order of their names. -/
  | struct (name : String) (fields : List (String × Ty))
  /-- An array of elements of one type. -/
  | array (elem : Ty)
  /-- A function from parameters to an optional result. -/
  | function (params : List Ty) (ret : Option Ty)
  deriving Repr, Inhabited

namespace Ty

/-- Binds a field name in an ascending list of fields, in place of an earlier binding. -/
def insertField (name : String) (ty : Ty) : List (String × Ty) → List (String × Ty)
  | [] => [(name, ty)]
  | (other, otherTy) :: rest =>
    if name = other then (name, ty) :: rest
    else if name < other then (name, ty) :: (other, otherTy) :: rest
    else (other, otherTy) :: insertField name ty rest

/-- A struct type from its fields in any order; the last field of a name counts. -/
def structOf (name : String) (fields : List (String × Ty)) : Ty :=
  .struct name (fields.foldl (fun acc (field, ty) => insertField field ty acc) [])

/-- The type behind all alias definitions; an alias without a definition stands for itself. -/
def unwrap : Ty → Ty
  | named _ (some definition) => definition.unwrap
  | t => t

/-- The name of a type that has one. -/
def name? : Ty → Option String
  | prim p => some p.name
  | named name _ => some name
  | struct name _ => some name
  | array _ => none
  | function _ _ => none

mutual

/-- Whether two types are the same: by name if they carry one, else part by part. -/
def same : Ty → Ty → Bool
  | prim p, prim q => p == q
  | named a _, named b _ => a == b
  | struct a _, struct b _ => a == b
  | array s, array t => s.same t
  | function ps r, function qs s => sameList ps qs && sameOption r s
  | _, _ => false

/-- Whether two lists of types have the same length and the same types in order. -/
def sameList : List Ty → List Ty → Bool
  | [], [] => true
  | t :: ts, u :: us => t.same u && sameList ts us
  | _, _ => false

/-- Whether two types are both absent, or both present and the same. -/
def sameOption : Option Ty → Option Ty → Bool
  | none, none => true
  | some t, some u => t.same u
  | _, _ => false

end

/-- Whether a value of type `value` may be stored where `expected` is wanted. -/
def accepts (expected value : Ty) : Bool :=
  expected.same value || expected.unwrap.same value.unwrap

mutual

/-- The text of a type in messages. -/
def text : Ty → String
  | prim p => p.name
  | named name _ => name
  | struct name [] => name ++ " \x7b\x7d"
  | struct name (field :: fields) =>
    name ++ " \x7b " ++ ", ".intercalate (fieldTexts (field :: fields)) ++ " \x7d"
  | array elem => "[]" ++ elem.text
  | function params ret => "fn(" ++ ", ".intercalate (texts params) ++ ")" ++ resultText ret

/-- The texts of a list of types. -/
def texts : List Ty → List String
  | [] => []
  | t :: ts => t.text :: texts ts

/-- The texts of a list of fields. -/
def fieldTexts : List (String × Ty) → List String
  | [] => []
  | (name, t) :: fields => (name ++ ": " ++ t.text) :: fieldTexts fields

/-- The text of a result type behind the parameters of a function. -/
def resultText : Option Ty → String
  | none => ""
  | some t => " -> " ++ t.text

end

end Ty

end Sable
