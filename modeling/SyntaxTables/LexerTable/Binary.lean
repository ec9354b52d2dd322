import SyntaxTables.LexerTable

/-!
# The binary form of lexer tables

Eight bytes of signature, four words of sizes, the cells of the alphabet, the targets in 16 bits
each, and the accepting states with their tokens; all numbers little-endian. Token names are not
stored. A target is stored in its lower 16 bits with `0xFFFF` for a missing one, so the writer
refuses tables with too many states.

Reading checks the sizes in the header against the bytes that follow before it reads any of them.
-/

namespace SyntaxTables

namespace Bytes

/-- A 16-bit number, low byte first. -/
def ofHalf (n : Nat) : List UInt8 := [UInt8.ofNat n, UInt8.ofNat (n / 256)]

/-- A 32-bit number, low byte first. -/
def ofWord (n : Nat) : List UInt8 := ofHalf n ++ ofHalf (n / 65536)

/-- The bytes end inside a number of 16 or of 32 bits. -/
inductive CutOff
  | half
  | word
deriving DecidableEq, Repr

def CutOff.message : CutOff → String
  | half => "truncated u16"
  | word => "truncated u32"

/-- Reads a value at the beginning of a list of bytes and gives what follows it. -/
abbrev Reader (α : Type) := List UInt8 → Except CutOff (α × List UInt8)

def half : Reader Nat
  | a :: b :: rest => .ok (a.toNat + 256 * b.toNat, rest)
  | _ => .error .half

def word : Reader Nat
  | a :: b :: c :: d :: rest =>
    .ok (a.toNat + 256 * b.toNat + 65536 * (c.toNat + 256 * d.toNat), rest)
  | _ => .error .word

def both {α β : Type} (first : Reader α) (second : Reader β) : Reader (α × β) := fun bytes => do
  let (x, bytes) ← first bytes
  let (y, bytes) ← second bytes
  return ((x, y), bytes)

def pair : Reader (Nat × Nat) := both word word

def times {α : Type} (item : Reader α) : Nat → Reader (List α)
  | 0, bytes => .ok ([], bytes)
  | n + 1, bytes => do
    let (x, bytes) ← item bytes
    let (xs, bytes) ← times item n bytes
    return (x :: xs, bytes)

end Bytes

namespace LexerTable

/-- The bytes that open every file, `TGLEX001`. -/
def signature : List UInt8 := [0x54, 0x47, 0x4C, 0x45, 0x58, 0x30, 0x30, 0x31]

example : signature = "TGLEX001".toList.map fun c => UInt8.ofNat c.toNat := by decide

/-- The stored form of a missing target. -/
def noStateHalf : Nat := 0xFFFF

/-- Why a table has no binary form. -/
inductive PackError
  | tooManyStates (count : Nat)
  | targetTooLarge
deriving DecidableEq, Repr

def PackError.message : PackError → String
  | tooManyStates count => s!"n_states={count} does not fit the u16 packing"
  | targetTooLarge => "next state > u16::MAX"

def packTarget (target : Nat) : Except PackError Nat :=
  if target = noState then .ok noStateHalf
  else if target ≤ 0xFFFF then .ok target
  else .error .targetTooLarge

def unpackTarget (stored : Nat) : Nat := if stored = noStateHalf then noState else stored

def header (t : LexerTable) : List UInt8 :=
  [t.stateCount, t.symbolCount, t.start, t.accept.size].flatMap Bytes.ofWord

def toBytes (t : LexerTable) : Except PackError (List UInt8) := do
  if noStateHalf ≤ t.stateCount then throw (.tooManyStates t.stateCount)
  let targets ← t.next.toList.mapM packTarget
  return signature ++ t.header ++
    t.alphabet.cells.toList.flatMap (fun r => Bytes.ofWord r.min ++ Bytes.ofWord r.max) ++
    targets.flatMap Bytes.ofHalf ++
    t.accept.entries.flatMap fun e => Bytes.ofWord e.1 ++ Bytes.ofWord e.2

/-- Why bytes are not a table. -/
inductive UnpackError
  | tooShort
  | badSignature
  | sizesOverflow
  | truncated (needed found : Nat)
  | cutOff (site : Bytes.CutOff)
deriving DecidableEq, Repr

def UnpackError.message : UnpackError → String
  | tooShort => "lexer tables bin too short"
  | badSignature => "bad magic in lexer tables .bin"
  | sizesOverflow => "lexer tables header sizes overflow"
  | truncated needed found =>
    s!"lexer tables bin truncated: header needs {needed} payload bytes, found {found}"
  | cutOff site => site.message

def payloadSize (stateCount symbolCount acceptCount : Nat) : Nat :=
  8 * symbolCount + 2 * (stateCount * symbolCount) + 8 * acceptCount

/-- Reads the cells of the alphabet, the stored targets, and the accepting states with their
tokens. -/
def payload (stateCount symbolCount acceptCount : Nat) :
    Bytes.Reader (List (Nat × Nat) × List Nat × List (Nat × Nat)) :=
  Bytes.both (Bytes.times Bytes.pair symbolCount)
    (Bytes.both (Bytes.times Bytes.half (stateCount * symbolCount))
      (Bytes.times Bytes.pair acceptCount))

/-- The sizes behind the signature: the numbers of states and symbols, the start, and the number of
accepting states. -/
def sizes : Bytes.Reader ((Nat × Nat) × Nat × Nat) := Bytes.both Bytes.pair Bytes.pair

def headerSize : Nat := 24

/-- Reads the binary form. Bytes behind the table are ignored. -/
def ofBytes (bytes : List UInt8) : Except UnpackError LexerTable :=
  if bytes.length < headerSize then .error .tooShort
  else if bytes.take signature.length ≠ signature then .error .badSignature
  else
    match sizes (bytes.drop signature.length) with
    | .error site => .error (.cutOff site)
    | .ok (((stateCount, symbolCount), start, acceptCount), bytes) =>
      let needed := payloadSize stateCount symbolCount acceptCount
      if sizeLimit ≤ needed then .error .sizesOverflow
      else if bytes.length < needed then .error (.truncated needed bytes.length)
      else
        match payload stateCount symbolCount acceptCount bytes with
        | .error site => .error (.cutOff site)
        | .ok ((cells, targets, accept), _) =>
          .ok {
            alphabet := ⟨(cells.map fun (lo, hi) => ⟨lo, hi⟩).toArray⟩
            stateCount := stateCount
            symbolCount := symbolCount
            start := start
            next := (targets.map unpackTarget).toArray
            accept := .ofList accept
            tokenNames := [] }

end LexerTable

end SyntaxTables
