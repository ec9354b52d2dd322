import SyntaxTables.Ascending
import SyntaxTables.Json

/-!
# Codecs and libraries

A type is declared by what its values consist of: the fields of a record, or the cases of a choice.
A library turns declarations into codecs and values into texts. Which library that is stays open;
the types of tables, lexicons and grammars are declared once, for all libraries.

A reader gets the number of levels of brackets that may still be opened, so that a value nested too
deeply is refused even where its shape is right.
-/

namespace SyntaxTables.Json

/-- Reads a value that may open at most the given number of levels of brackets. -/
abbrev Decoder (α : Type) := Nat → Json → Option α

/-- The levels of brackets that a text may open. -/
def depthLimit : Nat := 127

structure Codec (α : Type) where
  write : α → Json
  read : Decoder α

variable {α β : Type}

/-- A codec for values that stand for those of another type. -/
def Codec.via (c : Codec α) (pack : α → β) (unpack : β → α) : Codec β where
  write y := c.write (unpack y)
  read levels j := (c.read levels j).map pack

/-! ### Declarations -/

/-- What stands for a field that is not given. -/
structure Missing (α : Type) where
  /-- Where an object lacks it. -/
  omitted : Option α := none
  /-- Where an array ends before it. -/
  cutOff : Option α := none

/-- The fields of a record in order. The record is the tuple of their values. -/
inductive Fields : Type → Type 1
  | nil : Fields Unit
  | cons {α β : Type} (name : String) (codec : Codec α) (missing : Missing α) (rest : Fields β) :
    Fields (α × β)

namespace Fields

abbrev required (name : String) (c : Codec α) (rest : Fields β) : Fields (α × β) :=
  .cons name c {} rest

/-- A field that an object may lack; an array has to give it. -/
abbrev optional (name : String) (c : Codec (Option α)) (rest : Fields β) :
    Fields (Option α × β) :=
  .cons name c { omitted := some none } rest

abbrev withDefault (name : String) (c : Codec α) (default : α) (rest : Fields β) :
    Fields (α × β) :=
  .cons name c ⟨some default, some default⟩ rest

/-- The fields with the written forms of their values. -/
def members : {α : Type} → Fields α → α → List (String × Json)
  | _, .nil, _ => []
  | _, .cons name c _ rest, (x, y) => (name, c.write x) :: rest.members y

end Fields

/-- The cases of a choice: some are only names, others hold a value. -/
inductive Cases : Type → Type 1
  | nil : Cases Empty
  | bare {β : Type} (tag : String) (rest : Cases β) : Cases (Unit ⊕ β)
  | holding {α β : Type} (tag : String) (content : Codec α) (rest : Cases β) : Cases (α ⊕ β)

/-- The name of a case, or an object whose only member is named for the case that it holds. -/
def Cases.written : {α : Type} → Cases α → α → Json
  | _, .bare tag _, .inl _ => .ofString tag
  | _, .bare _ rest, .inr y => rest.written y
  | _, .holding tag c _, .inl x => .tagged tag (c.write x)
  | _, .holding _ _ rest, .inr y => rest.written y

/-! ### Libraries -/

/-- What values are written and read with. -/
structure Library where
  /-- The text of a value. -/
  print : Json → List UInt8
  /-- The value of a text. -/
  parse : List UInt8 → Option Json
  /-- Numbers of 32 bits. -/
  word : Codec Nat
  bool : Codec Bool
  string : Codec String
  /-- A value or `null`. -/
  nullable {α : Type} (c : Codec α) : Codec (Option α)
  list {α : Type} (c : Codec α) : Codec (List α)
  pair {α β : Type} (c : Codec α) (e : Codec β) : Codec (α × β)
  /-- A map as the list of its entries. -/
  map {α : Type} (c : Codec α) : Codec (NatMap α)
  record {α : Type} (fields : Fields α) : Codec α
  choice {α : Type} (cases : Cases α) : Codec α

namespace Library

variable (L : Library) (c : Codec α)

def toText (x : α) : List UInt8 := L.print (c.write x)

def ofText (text : List UInt8) : Option α := (L.parse text).bind (c.read depthLimit)

end Library

end SyntaxTables.Json
