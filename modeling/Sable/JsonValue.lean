/-!
# JSON texts

The values that machine-readable output is made of, and their text: two spaces of indentation
for each level, one member a line, and nothing between the brackets of an empty value.
-/

namespace Sable

/-- A JSON value; objects keep the order of their members. -/
inductive JsonValue
  | number (value : Nat)
  | string (value : String)
  | array (elements : List JsonValue)
  | object (members : List (String × JsonValue))
  deriving Inhabited

namespace JsonValue

/-- The hexadecimal digit of a number below sixteen. -/
def hexDigit (n : Nat) : Char := Nat.digitChar n

/-- The text of a character inside a quoted string. -/
def escape (c : Char) : List Char :=
  if c = '"' then ['\\', '"']
  else if c = '\\' then ['\\', '\\']
  else if c = '\x08' then ['\\', 'b']
  else if c = '\x09' then ['\\', 't']
  else if c = '\x0a' then ['\\', 'n']
  else if c = '\x0c' then ['\\', 'f']
  else if c = '\x0d' then ['\\', 'r']
  else if c.toNat < 0x20 then
    ['\\', 'u', '0', '0', hexDigit (c.toNat / 16), hexDigit (c.toNat % 16)]
  else [c]

/-- The text of a string in quotes. -/
def quote (s : String) : String :=
  "\"" ++ String.ofList (s.toList.flatMap escape) ++ "\""

/-- The start of a line at some level. -/
def indent (level : Nat) : String := "\n" ++ String.ofList (List.replicate (2 * level) ' ')

/-- Parts on lines of their own at some level, between an opening and a closing bracket. -/
def bracket (opening closing : String) (level : Nat) (parts : List String) : String :=
  if parts.isEmpty then opening ++ closing
  else
    opening ++ indent (level + 1) ++ ("," ++ indent (level + 1)).intercalate parts ++
      indent level ++ closing

mutual

/-- The text of a value at some level. -/
def textAt (level : Nat) : JsonValue → String
  | number value => toString value
  | string value => quote value
  | array elements => bracket "[" "]" level (elementTexts (level + 1) elements)
  | object members => bracket "\x7b" "\x7d" level (memberTexts (level + 1) members)

/-- The texts of the elements of an array. -/
def elementTexts (level : Nat) : List JsonValue → List String
  | [] => []
  | v :: vs => v.textAt level :: elementTexts level vs

/-- The texts of the members of an object. -/
def memberTexts (level : Nat) : List (String × JsonValue) → List String
  | [] => []
  | (name, v) :: vs => (quote name ++ ": " ++ v.textAt level) :: memberTexts level vs

end

/-- The text of a value. -/
def text (v : JsonValue) : String := v.textAt 0

end JsonValue

end Sable
