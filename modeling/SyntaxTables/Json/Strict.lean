import SyntaxTables.Interval
import SyntaxTables.Json.Codec
import SyntaxTables.Json.Reader
import SyntaxTables.Json.Writer

/-!
# The strict library

A record is an object or an array of its fields in order. In an object the fields come in any order,
each at most once, and other members are skipped; in an array nothing may follow the last field.
Only levels that hold a value that is used are counted: skipped values may be nested as deeply as
they like.
-/

namespace SyntaxTables.Json

variable {α β : Type}

namespace Decoder

def word : Decoder Nat
  | _, .natural n => if n < wordLimit then some n else none
  | _, _ => none

def string : Decoder String
  | _, .text value => value
  | _, _ => none

def bool : Decoder Bool
  | _, .bool b => some b
  | _, _ => none

def unit : Decoder Unit
  | _, .null => some ()
  | _, _ => none

def nullable (d : Decoder α) : Decoder (Option α)
  | _, .null => some none
  | levels, j => (d levels j).map some

def list (d : Decoder α) : Decoder (List α)
  | levels + 1, .array items => items.mapM (d levels)
  | _, _ => none

/-- An array of exactly two values. -/
def pair (d : Decoder α) (e : Decoder β) : Decoder (α × β)
  | levels + 1, .array [x, y] => do return (← d levels x, ← e levels y)
  | _, _ => none

/-- An array of pairs; of equal keys the last counts. -/
def map (d : Decoder α) : Decoder (NatMap α) := fun levels j =>
  (list (pair word d) levels j).map NatMap.ofList

end Decoder

namespace Fields

/-- Reads the field of a name from the members of an object; it may not be given twice. -/
def ofMember? (levels : Nat) (members : List (Option String × Json)) (name : String) (c : Codec α)
    (missing : Missing α) : Option α :=
  match members.filter fun m => m.1 = some name with
  | [] => missing.omitted
  | [m] => c.read levels m.2
  | _ => none

def ofMembers? (levels : Nat) (members : List (Option String × Json)) :
    {α : Type} → Fields α → Option α
  | _, .nil => some ()
  | _, .cons name c missing rest => do
    return (← ofMember? levels members name c missing, ← rest.ofMembers? levels members)

/-- Reads the fields from the items of an array. -/
def ofItems? (levels : Nat) : {α : Type} → Fields α → List Json → Option α
  | _, .nil, [] => some ()
  | _, .nil, _ :: _ => none
  | _, .cons _ _ missing rest, [] => do return (← missing.cutOff, ← rest.ofItems? levels [])
  | _, .cons _ c _ rest, j :: js => do return (← c.read levels j, ← rest.ofItems? levels js)

def decode (fields : Fields α) : Decoder α
  | levels + 1, .object members =>
    if members.any fun m => m.1.isNone then none else fields.ofMembers? levels members
  | levels + 1, .array items => fields.ofItems? levels items
  | _, _ => none

end Fields

namespace Cases

/-- The case that is only the given name. -/
def ofName? : {α : Type} → Cases α → String → Option α
  | _, .nil, _ => none
  | _, .bare tag rest, name => if name = tag then some (.inl ()) else (rest.ofName? name).map .inr
  | _, .holding tag _ rest, name => if name = tag then none else (rest.ofName? name).map .inr

/-- The case of the given name with its content, which is `null` where the case has none. -/
def ofContent? (levels : Nat) (content : Json) : {α : Type} → Cases α → String → Option α
  | _, .nil, _ => none
  | _, .bare tag rest, name =>
    if name = tag then (Decoder.unit levels content).map .inl
    else (rest.ofContent? levels content name).map .inr
  | _, .holding tag c rest, name =>
    if name = tag then (c.read levels content).map .inl
    else (rest.ofContent? levels content name).map .inr

def decode (cases : Cases α) : Decoder α
  | _, .text (some name) => cases.ofName? name
  | levels + 1, .object [(some name, content)] => cases.ofContent? levels content name
  | _, _ => none

end Cases

/-- Compact texts are written, and all texts of the strict grammar are read. -/
def Library.strict : Library where
  print := toBytes
  parse := read?
  word := ⟨.natural, .word⟩
  bool := ⟨.bool, .bool⟩
  string := ⟨.ofString, .string⟩
  nullable c := ⟨.ofOption c.write, .nullable c.read⟩
  list c := ⟨.ofList c.write, .list c.read⟩
  pair c e := ⟨fun p => .array [c.write p.1, e.write p.2], .pair c.read e.read⟩
  map c := ⟨fun m => .ofList (fun e => .array [.natural e.1, c.write e.2]) m.entries, .map c.read⟩
  record fields := ⟨fun x => .record (fields.members x), fields.decode⟩
  choice cases := ⟨cases.written, cases.decode⟩

end SyntaxTables.Json
