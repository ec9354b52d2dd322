import SyntaxTables.Ascending
import SyntaxTables.Grammar

/-!
# Parse tables

What a shift-reduce parser looks at: an action for each state and terminal, a target for each state
and non-terminal, and of each production its left-hand side and length. A table also records the
conflicts that were settled while it was filled.
-/

namespace SyntaxTables

inductive Action
  | shift (state : Nat)
  | reduce (production : Nat)
  | accept
deriving DecidableEq, Repr

inductive ConflictKind
  | shiftReduce
  | reduceReduce
  /-- A reduction against the end of the parse. -/
  | reduceAccept
deriving DecidableEq, Repr

def ConflictKind.label : ConflictKind → String
  | shiftReduce => "shift/reduce"
  | reduceReduce => "reduce/reduce"
  | reduceAccept => "reduce/accept"

/-- Two actions for one cell: the one that stays and one that had to go. -/
structure Conflict where
  state : Nat
  terminal : Nat
  kind : ConflictKind
  kept : Action
  dropped : Action
deriving DecidableEq, Repr

/-- What a parser needs to know about a production. -/
structure ProductionInfo where
  lhs : Nat
  length : Nat
  kind : ProductionKind
  name : Option String
deriving DecidableEq, Repr

structure ParseTable where
  terminalNames : List String
  nonterminalNames : List String
  /-- The end of input, as a terminal. -/
  eof : Nat
  /-- A row for each state, with a cell for each terminal up to `eof`. -/
  action : List (List (Option Action))
  /-- A row for each state, from non-terminals to states. -/
  goto : List (NatMap Nat)
  productions : List ProductionInfo
  conflicts : List Conflict
deriving DecidableEq, Repr

namespace ParseTable

def stateCount (t : ParseTable) : Nat := t.action.length

def action? (t : ParseTable) (state terminal : Nat) : Option Action :=
  (t.action[state]?.bind fun row => row[terminal]?).join

def goto? (t : ParseTable) (state nonterminal : Nat) : Option Nat :=
  t.goto[state]?.bind fun row => row.get? nonterminal

def terminalName (t : ParseTable) (id : Nat) : String :=
  if id = t.eof then "$" else t.terminalNames.getD id "?"

def conflictsOf (t : ParseTable) (kind : ConflictKind) : List Conflict :=
  t.conflicts.filter fun c => c.kind = kind

end ParseTable

end SyntaxTables
