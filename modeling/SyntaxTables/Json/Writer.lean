import SyntaxTables.Json

/-!
# Writing JSON

The compact form: no blanks, and in strings only what must be escaped is escaped, with the short
escapes where there are any.
-/

namespace SyntaxTables.Json

def hexDigit (n : Nat) : Char := (Nat.digitChar n)

def writeChar (c : Char) : List Char :=
  if c = '"' then ['\\', '"']
  else if c = '\\' then ['\\', '\\']
  else if c = '\x08' then ['\\', 'b']
  else if c = '\t' then ['\\', 't']
  else if c = '\n' then ['\\', 'n']
  else if c = '\x0c' then ['\\', 'f']
  else if c = '\r' then ['\\', 'r']
  else if c.toNat < 0x20 then
    ['\\', 'u', '0', '0', hexDigit (c.toNat / 16), hexDigit (c.toNat % 16)]
  else [c]

def writeString (s : String) : List Char := '"' :: s.toList.flatMap writeChar ++ ['"']

mutual

/-- The compact text of a value. A string without a value is written as an empty one. -/
def write : Json → List Char
  | .null => ['n', 'u', 'l', 'l']
  | .bool true => ['t', 'r', 'u', 'e']
  | .bool false => ['f', 'a', 'l', 's', 'e']
  | .natural n => Nat.toDigits 10 n
  | .decimal written => written
  | .text value => writeString (value.getD "")
  | .array items => '[' :: writeItems items
  | .object members => '{' :: writeMembers members

/-- The items of an array and its closing bracket. -/
def writeItems : List Json → List Char
  | [] => [']']
  | [v] => v.write ++ [']']
  | v :: w :: rest => v.write ++ ',' :: writeItems (w :: rest)

/-- The members of an object and its closing bracket. -/
def writeMembers : List (Option String × Json) → List Char
  | [] => ['}']
  | [(k, v)] => writeString (k.getD "") ++ ':' :: v.write ++ ['}']
  | (k, v) :: m :: rest =>
    writeString (k.getD "") ++ ':' :: v.write ++ ',' :: writeMembers (m :: rest)

end

def compact (j : Json) : String := String.ofList j.write

def toBytes (j : Json) : List UInt8 := j.write.flatMap String.utf8EncodeChar

end SyntaxTables.Json
