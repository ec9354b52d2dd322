import SyntaxTables.Interval
import SyntaxTables.Pattern
import SyntaxTables.Scan

/-!
# Dense lexer tables

The form in which an automaton is written to a file: one row of targets per state, one column per
symbol. Numbers in a table are 32-bit words, and the largest word stands for a missing target.
-/

namespace SyntaxTables

/-- The entry for a missing target. -/
def noState : Nat := wordLimit - 1

/-- The entry for a state that completes no token. -/
def noToken : Nat := wordLimit - 1

structure LexerTable where
  alphabet : Alphabet
  stateCount : Nat
  symbolCount : Nat
  start : Nat
  /-- The rows of targets, one after another. -/
  next : Array Nat
  /-- The tokens of the states that complete one. -/
  accept : NatMap Nat
  tokenNames : List String
deriving DecidableEq, Repr

/-- The counts and the numbers of an automaton are words. -/
structure Dfa.InWords (d : Dfa) : Prop where
  size_lt : d.size < wordLimit
  symbols_lt : d.alphabet.size < wordLimit
  start_lt : d.start < wordLimit
  cell_lt : ∀ r ∈ d.alphabet.cells, r.min < wordLimit ∧ r.max < wordLimit
  target_lt : ∀ q ∈ d.states, ∀ e ∈ q.edges.entries, e.2 < wordLimit
  token_lt : ∀ q ∈ d.states, ∀ k ∈ q.token, k < wordLimit

namespace LexerTable

/-- The entries that an automaton's edges ask for, with their places. The symbol of an edge counts
from the beginning of its state's row. -/
def entries (d : Dfa) : List (Nat × Nat) :=
  d.states.toList.zipIdx.flatMap fun (q, s) =>
    q.edges.entries.map fun (x, t) => (s * d.alphabet.size + x, t)

/-- The rows of an automaton's targets. Of several entries for one place the last counts. -/
def rows (d : Dfa) : Array Nat :=
  (entries d).foldl (fun next (i, t) => next.setIfInBounds i t)
    (Array.replicate (d.size * d.alphabet.size) noState)

/-- The table of an automaton, with its counts and numbers as they are. Where they are not words,
the table is not the one that is stored. -/
def ofDfa (d : Dfa) (tokenNames : List String) : LexerTable where
  alphabet := d.alphabet
  stateCount := d.size
  symbolCount := d.alphabet.size
  start := d.start
  next := rows d
  accept := .ofList (d.states.toList.zipIdx.filterMap fun (q, s) => q.token.map fun t => (s, t))
  tokenNames := tokenNames

/-- Casts the counts and the numbers of the accepting states to words. -/
def castToWords (t : LexerTable) : LexerTable :=
  { t with
    stateCount := t.stateCount % wordLimit
    symbolCount := t.symbolCount % wordLimit
    accept := .ofList (t.accept.entries.map fun e => (e.1 % wordLimit, e.2)) }

/-- The table of an automaton whose edges may carry symbols that the alphabet does not have. It is a
fault if such an edge has no place even in the rows behind its own. -/
def ofDfaChecked (d : Dfa) (tokenNames : List String) : Except Fault LexerTable :=
  match (entries d).find? fun e => d.size * d.alphabet.size ≤ e.1 with
  | some e => .error (.noEntry e.1)
  | none => .ok (ofDfa d tokenNames)

/-- The place of a state's target on a symbol, computed in words. They wrap around as in a release
build; a build that checks for overflows stops instead. -/
def place (t : LexerTable) (s symbol : Nat) : Nat := (s * t.symbolCount + symbol) % wordLimit

/-- A character outside the alphabet has no step. Otherwise the entry of the state's row in the
symbol's column counts, and it is a fault if there is no such entry. -/
def automaton (t : LexerTable) : Automaton where
  start := t.start
  step s c :=
    match t.alphabet.symbolOf? c.toNat with
    | none => .ok none
    | some x =>
      match t.next[t.place s x]? with
      | none => .error (.noEntry (t.place s x))
      | some target => .ok (if target = noState then none else some target)
  token s := .ok (t.accept.get? s)

/-- The token of each state, with an entry for none. A token given to a number that is no state is a
fault. -/
def tokenOfStates (t : LexerTable) : Except Fault (List Nat) :=
  match t.accept.entries.find? fun e => t.stateCount ≤ e.1 with
  | some e => .error (.noState e.1)
  | none => .ok ((List.range t.stateCount).map fun s => (t.accept.get? s).getD noToken)

/-- The name of a token, or a question mark for a number without a name. -/
def tokenName (t : LexerTable) (token : Nat) : String := t.tokenNames.getD token "?"

end LexerTable

end SyntaxTables
