/-!
# Primitive types

The types that every program knows without declaring them, in the order in which they are
declared to it.
-/

namespace Sable

/-- The builtin types. -/
inductive Primitive
  | i8
  | i16
  | i32
  | i64
  | u8
  | u16
  | u32
  | u64
  | f32
  | f64
  | str
  | bool
  | byte
  deriving DecidableEq, Repr

namespace Primitive

/-- Every builtin type once, in the order of declaration. -/
def all : List Primitive :=
  [i8, i16, i32, i64, u8, u16, u32, u64, f32, f64, str, bool, byte]

/-- The name of a builtin type. -/
def name : Primitive → String
  | i8 => "i8"
  | i16 => "i16"
  | i32 => "i32"
  | i64 => "i64"
  | u8 => "u8"
  | u16 => "u16"
  | u32 => "u32"
  | u64 => "u64"
  | f32 => "f32"
  | f64 => "f64"
  | str => "str"
  | bool => "bool"
  | byte => "byte"

/-- The builtin type of a given name. -/
def ofName? (name : String) : Option Primitive := all.find? fun p => p.name == name

theorem mem_all (p : Primitive) : p ∈ all := by cases p <;> decide

/-- A name belongs to exactly one builtin type. -/
theorem ofName?_eq_some_iff {name : String} {p : Primitive} :
    ofName? name = some p ↔ p.name = name := by
  constructor
  · intro h
    simpa using List.find?_some h
  · rintro rfl
    cases p <;> decide

/-- The size of a value in bytes; a string is a pointer with a length. -/
def size : Primitive → Nat
  | i8 | u8 | bool | byte => 1
  | i16 | u16 => 2
  | i32 | u32 | f32 => 4
  | i64 | u64 | f64 => 8
  | str => 16

/-- Whether the type holds integers below zero. -/
def isSigned : Primitive → Bool
  | i8 | i16 | i32 | i64 => true
  | _ => false

/-- Whether the type holds integers; bytes are integers. -/
def isInteger : Primitive → Bool
  | i8 | i16 | i32 | i64 | u8 | u16 | u32 | u64 | byte => true
  | _ => false

/-- Whether the type holds floating-point numbers. -/
def isFloat : Primitive → Bool
  | f32 | f64 => true
  | _ => false

/-- Whether the type holds numbers. -/
def isNumeric (p : Primitive) : Bool := p.isInteger || p.isFloat

end Primitive

end Sable
