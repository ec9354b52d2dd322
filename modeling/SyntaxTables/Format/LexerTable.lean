import SyntaxTables.Format.Lexicon
import SyntaxTables.LexerTable

/-!
# Lexer tables as JSON

Accepting states are pairs of state and token. A table is only read if it has a target for each
state and symbol, and a cell of the alphabet for each symbol.
-/

namespace SyntaxTables.LexerTable

open Json (Codec Library)

variable (L : Library)

def codec : Codec LexerTable :=
  (L.record <|
    .required "alphabet" (L.list (Interval.codec L)) <|
    .required "n_states" L.word <|
    .required "n_symbols" L.word <|
    .required "start" L.word <|
    .required "next" (L.list L.word) <|
    .required "accept" (L.map L.word) <|
    .required "token_names" (L.list L.string) .nil).via
    (fun (cells, stateCount, symbolCount, start, next, accept, tokenNames, _) =>
      { alphabet := ⟨cells.toArray⟩, stateCount, symbolCount, start, next := next.toArray, accept,
        tokenNames })
    fun t => (t.alphabet.cells.toList, t.stateCount, t.symbolCount, t.start, t.next.toList,
      t.accept, t.tokenNames, ())

/-- Why a text is not a table. -/
inductive LoadError
  | malformed
  | wrongTargetCount (found expected : Nat)
  | wrongAlphabetSize
deriving DecidableEq, Repr

def LoadError.message : LoadError → String
  | malformed => "Failed to parse lexer tables JSON"
  | wrongTargetCount found expected => s!"next table has {found} entries, expected {expected}"
  | wrongAlphabetSize => "alphabet length does not match n_symbols"

def checkSizes (t : LexerTable) : Except LoadError LexerTable :=
  if t.next.size ≠ t.stateCount * t.symbolCount then
    .error (.wrongTargetCount t.next.size (t.stateCount * t.symbolCount))
  else if t.alphabet.size ≠ t.symbolCount then .error .wrongAlphabetSize
  else .ok t

def toText (t : LexerTable) : List UInt8 := L.toText (codec L) t

def ofText (text : List UInt8) : Except LoadError LexerTable :=
  match L.ofText (codec L) text with
  | none => .error .malformed
  | some t => t.checkSizes

end SyntaxTables.LexerTable
