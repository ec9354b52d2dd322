import SyntaxTables.Format.Grammar
import SyntaxTables.ParseTable

/-!
# Parse tables as JSON

An empty cell is `null`, and a row of targets is a list of pairs. A table is only read if every row
of actions has a cell for each terminal and both parts have the same number of rows.
-/

namespace SyntaxTables

open Json (Codec Library)

variable (L : Library)

namespace Action

def ofContent : Nat ⊕ Nat ⊕ Unit ⊕ Empty → Action
  | .inl state => shift state
  | .inr (.inl production) => reduce production
  | .inr (.inr _) => accept

def content : Action → Nat ⊕ Nat ⊕ Unit ⊕ Empty
  | shift state => .inl state
  | reduce production => .inr (.inl production)
  | accept => .inr (.inr (.inl ()))

def codec : Codec Action :=
  (L.choice (.holding "Shift" L.word (.holding "Reduce" L.word (.bare "Accept" .nil)))).via
    ofContent content

end Action

namespace ConflictKind

def ofContent : Unit ⊕ Unit ⊕ Unit ⊕ Empty → ConflictKind
  | .inl _ => shiftReduce
  | .inr (.inl _) => reduceReduce
  | .inr (.inr _) => reduceAccept

def content : ConflictKind → Unit ⊕ Unit ⊕ Unit ⊕ Empty
  | shiftReduce => .inl ()
  | reduceReduce => .inr (.inl ())
  | reduceAccept => .inr (.inr (.inl ()))

def codec : Codec ConflictKind :=
  (L.choice (.bare "ShiftReduce" (.bare "ReduceReduce" (.bare "ReduceAccept" .nil)))).via ofContent
    content

end ConflictKind

def Conflict.codec : Codec Conflict :=
  (L.record <|
    .required "state" L.word <|
    .required "terminal" L.word <|
    .required "kind" (ConflictKind.codec L) <|
    .required "kept" (Action.codec L) <|
    .required "dropped" (Action.codec L) .nil).via
    (fun (state, terminal, kind, kept, dropped, _) => ⟨state, terminal, kind, kept, dropped⟩)
    fun c => (c.state, c.terminal, c.kind, c.kept, c.dropped, ())

def ProductionInfo.codec : Codec ProductionInfo :=
  (L.record <|
    .required "lhs" L.word <|
    .required "len" L.word <|
    .required "kind" (ProductionKind.codec L) <|
    .optional "name" (L.nullable L.string) .nil).via
    (fun (lhs, length, kind, name, _) => ⟨lhs, length, kind, name⟩)
    fun p => (p.lhs, p.length, p.kind, p.name, ())

namespace ParseTable

def codec : Codec ParseTable :=
  (L.record <|
    .required "terminal_names" (L.list L.string) <|
    .required "nonterminal_names" (L.list L.string) <|
    .required "eof" L.word <|
    .required "action" (L.list (L.list (L.nullable (Action.codec L)))) <|
    .required "goto" (L.list (L.map L.word)) <|
    .required "productions" (L.list (ProductionInfo.codec L)) <|
    .withDefault "conflicts" (L.list (Conflict.codec L)) [] .nil).via
    (fun (terminalNames, nonterminalNames, eof, action, goto, productions, conflicts, _) =>
      ⟨terminalNames, nonterminalNames, eof, action, goto, productions, conflicts⟩)
    fun t => (t.terminalNames, t.nonterminalNames, t.eof, t.action, t.goto, t.productions,
      t.conflicts, ())

/-- Why a text is not a table. -/
inductive LoadError
  | malformed
  | wrongRowWidth (row expected : Nat)
  | rowCountMismatch
deriving DecidableEq, Repr

def LoadError.message : LoadError → String
  | malformed => "Failed to parse parse tables JSON"
  | wrongRowWidth row expected => s!"action row {row} has the wrong width (expected {expected})"
  | rowCountMismatch => "goto and action tables disagree on the state count"

def checkSizes (t : ParseTable) : Except LoadError ParseTable :=
  match t.action.findIdx? fun row => row.length ≠ t.eof + 1 with
  | some row => .error (.wrongRowWidth row (t.eof + 1))
  | none => if t.goto.length ≠ t.action.length then .error .rowCountMismatch else .ok t

def toText (t : ParseTable) : List UInt8 := L.toText (codec L) t

def ofText (text : List UInt8) : Except LoadError ParseTable :=
  match L.ofText (codec L) text with
  | none => .error .malformed
  | some t => t.checkSizes

end ParseTable

end SyntaxTables
