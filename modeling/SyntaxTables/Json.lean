/-!
# JSON values

A value keeps what its text says: an object keeps all its members in order, also those with equal
names, and only the reader of a record decides what they mean. A string is `none` when its text is
not Unicode; such a string can be skipped but not used.
-/

namespace SyntaxTables

inductive Json
  | null
  | bool (value : Bool)
  /-- A number written with digits alone. -/
  | natural (value : Nat)
  /-- A number with a sign, a fraction or an exponent, as it is written. -/
  | decimal (written : List Char)
  | text (value : Option String)
  | array (items : List Json)
  | object (members : List (Option String × Json))

namespace Json

instance : Inhabited Json := ⟨null⟩

def ofString (s : String) : Json := .text (some s)

def ofOption {α : Type} (f : α → Json) : Option α → Json
  | none => .null
  | some x => f x

def ofList {α : Type} (f : α → Json) (xs : List α) : Json := .array (xs.map f)

def record (members : List (String × Json)) : Json :=
  .object (members.map fun (name, value) => (some name, value))

/-- An object whose only member is named for the case that it holds. -/
def tagged (tag : String) (content : Json) : Json := record [(tag, content)]

end Json

end SyntaxTables
