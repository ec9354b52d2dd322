import SyntaxTables.Json

/-!
# Reading JSON

The strict grammar: blanks only between tokens, no comma before a closing bracket, no control
character in a string, no leading zero, and nothing but blanks behind the value. Each reader returns
what it read together with the rest of the text.

A text is a list of bytes, and each byte is read as the character with its number. All signs of the
grammar are below 128, and a string takes any bytes from 32 on, so only the value of a string
depends on what its bytes stand for.
-/

namespace SyntaxTables.Json

def isSpace (c : Char) : Bool := c = ' ' || c = '\t' || c = '\n' || c = '\r'

def skipSpace (cs : List Char) : List Char := cs.dropWhile isSpace

/-! ### Strings -/

def hexValue? (c : Char) : Option Nat :=
  if '0' ≤ c ∧ c ≤ '9' then some (c.toNat - '0'.toNat)
  else if 'a' ≤ c ∧ c ≤ 'f' then some (c.toNat - 'a'.toNat + 10)
  else if 'A' ≤ c ∧ c ≤ 'F' then some (c.toNat - 'A'.toNat + 10)
  else none

def hexUnit? (a b c d : Char) : Option Nat := do
  return (((← hexValue? a) * 16 + (← hexValue? b)) * 16 + (← hexValue? c)) * 16 + (← hexValue? d)

def shortEscape? (c : Char) : Option Char :=
  if c = '"' ∨ c = '\\' ∨ c = '/' then some c
  else if c = 'b' then some '\x08'
  else if c = 'f' then some '\x0c'
  else if c = 'n' then some '\n'
  else if c = 'r' then some '\r'
  else if c = 't' then some '\t'
  else none

/-- A piece of a string: a byte that stands for itself, or the number of an escape. -/
inductive Piece
  | byte (b : UInt8)
  | escape (unit : Nat)
deriving DecidableEq

/-- The pieces of a string behind its opening quote. -/
def pieces? : List Char → Option (List Piece × List Char)
  | [] => none
  | '"' :: rest => some ([], rest)
  | '\\' :: 'u' :: a :: b :: c :: d :: rest => do
    let unit ← hexUnit? a b c d
    let (pieces, rest) ← pieces? rest
    return (.escape unit :: pieces, rest)
  | '\\' :: c :: rest => do
    let c ← shortEscape? c
    let (pieces, rest) ← pieces? rest
    return (.byte c.toUInt8 :: pieces, rest)
  | c :: rest =>
    if c.toNat < 0x20 then none
    else do
      let (pieces, rest) ← pieces? rest
      return (.byte c.toUInt8 :: pieces, rest)

def isHighSurrogate (u : Nat) : Bool := 0xD800 ≤ u && u < 0xDC00

def isLowSurrogate (u : Nat) : Bool := 0xDC00 ≤ u && u < 0xE000

/-- The bytes of all pieces, where a high and a low surrogate make one character; none if one stands
alone. -/
def joinPieces? : List Piece → Option (List UInt8)
  | [] => some []
  | .byte b :: rest => (joinPieces? rest).map (b :: ·)
  | .escape u :: .escape v :: rest =>
    if isHighSurrogate u then
      if isLowSurrogate v then
        let c := Char.ofNat (0x10000 + (u - 0xD800) * 0x400 + (v - 0xDC00))
        (joinPieces? rest).map (String.utf8EncodeChar c ++ ·)
      else none
    else if isLowSurrogate u then none
    else (joinPieces? (.escape v :: rest)).map (String.utf8EncodeChar (Char.ofNat u) ++ ·)
  | .escape u :: rest =>
    if isHighSurrogate u || isLowSurrogate u then none
    else (joinPieces? rest).map (String.utf8EncodeChar (Char.ofNat u) ++ ·)

/-- The rest of a string behind its opening quote. It has no value if its bytes are not Unicode. -/
def string? (cs : List Char) : Option (Option String × List Char) := do
  let (pieces, rest) ← pieces? cs
  return ((joinPieces? pieces).bind fun bytes => String.fromUTF8? bytes.toByteArray, rest)

/-! ### Numbers -/

/-- One digit at least. -/
def digits? (cs : List Char) : Option (List Char × List Char) :=
  match cs.takeWhile Char.isDigit with
  | [] => none
  | ds => some (ds, cs.dropWhile Char.isDigit)

/-- Digits without a needless zero in front. -/
def integer? : List Char → Option (List Char × List Char)
  | '0' :: rest => if rest.head?.any Char.isDigit then none else some (['0'], rest)
  | cs => digits? cs

/-- A point and digits, if there is a point. -/
def fraction? : List Char → Option (List Char × List Char)
  | '.' :: rest => do
    let (ds, rest) ← digits? rest
    return ('.' :: ds, rest)
  | cs => some ([], cs)

/-- The mark of an exponent with its sign and digits, if there is a mark. -/
def exponent? : List Char → Option (List Char × List Char)
  | [] => some ([], [])
  | e :: rest =>
    if e = 'e' ∨ e = 'E' then
      match rest with
      | '+' :: rest => do
        let (ds, rest) ← digits? rest
        return (e :: '+' :: ds, rest)
      | '-' :: rest => do
        let (ds, rest) ← digits? rest
        return (e :: '-' :: ds, rest)
      | rest => do
        let (ds, rest) ← digits? rest
        return (e :: ds, rest)
    else some ([], e :: rest)

def ofDigits (ds : List Char) : Nat := ds.foldl (fun n d => 10 * n + (d.toNat - '0'.toNat)) 0

/-- A number without a sign. -/
def unsigned? (cs : List Char) : Option (Json × List Char) := do
  let (whole, rest) ← integer? cs
  let (fraction, rest) ← fraction? rest
  let (exponent, rest) ← exponent? rest
  if fraction.isEmpty && exponent.isEmpty then return (.natural (ofDigits whole), rest)
  else return (.decimal (whole ++ fraction ++ exponent), rest)

def number? : List Char → Option (Json × List Char)
  | '-' :: rest => do
    let (whole, rest) ← integer? rest
    let (fraction, rest) ← fraction? rest
    let (exponent, rest) ← exponent? rest
    return (.decimal ('-' :: whole ++ fraction ++ exponent), rest)
  | cs => unsigned? cs

/-! ### Values -/

mutual

/-- A value with the blanks before it. -/
def value? : Nat → List Char → Option (Json × List Char)
  | 0, _ => none
  | steps + 1, cs =>
    match skipSpace cs with
    | 'n' :: 'u' :: 'l' :: 'l' :: rest => some (.null, rest)
    | 't' :: 'r' :: 'u' :: 'e' :: rest => some (.bool true, rest)
    | 'f' :: 'a' :: 'l' :: 's' :: 'e' :: rest => some (.bool false, rest)
    | '"' :: rest => do
      let (s, rest) ← string? rest
      return (.text s, rest)
    | '[' :: rest =>
      match skipSpace rest with
      | ']' :: rest => some (.array [], rest)
      | rest => do
        let (items, rest) ← items? steps rest
        return (.array items, rest)
    | '{' :: rest =>
      match skipSpace rest with
      | '}' :: rest => some (.object [], rest)
      | rest => do
        let (members, rest) ← members? steps rest
        return (.object members, rest)
    | rest => number? rest

/-- The items of an array, of which there is one at least, and its closing bracket. -/
def items? : Nat → List Char → Option (List Json × List Char)
  | 0, _ => none
  | steps + 1, cs => do
    let (v, rest) ← value? steps cs
    match skipSpace rest with
    | ',' :: rest =>
      let (vs, rest) ← items? steps rest
      return (v :: vs, rest)
    | ']' :: rest => return ([v], rest)
    | _ => none

/-- The members of an object, of which there is one at least, and its closing bracket. -/
def members? : Nat → List Char → Option (List (Option String × Json) × List Char)
  | 0, _ => none
  | steps + 1, cs =>
    match skipSpace cs with
    | '"' :: rest => do
      let (k, rest) ← string? rest
      match skipSpace rest with
      | ':' :: rest =>
        let (v, rest) ← value? steps rest
        match skipSpace rest with
        | ',' :: rest =>
          let (ms, rest) ← members? steps rest
          return ((k, v) :: ms, rest)
        | '}' :: rest => return ([(k, v)], rest)
        | _ => none
      | _ => none
    | _ => none

end

/-- Reads a whole text as one value. A bracket takes two steps and an item two more, so twice the
length of the text is enough. -/
def read? (text : List UInt8) : Option Json := do
  let (v, rest) ← value? (2 * text.length + 2) (text.map Char.ofUInt8)
  if (skipSpace rest).isEmpty then return v else none

end SyntaxTables.Json
