import SyntaxTables.Alphabet
import SyntaxTables.Ascending

/-!
# Deterministic automata

At most one edge per state and symbol; a missing edge rejects. A state that completes a token is
labelled with it. Automata may come from outside, so a state number need not name a state. An
operation that would have to look at what is not there stops with a fault, which is not the same as
a text that does not match.
-/

namespace SyntaxTables

inductive Fault
  /-- A number that should name a state does not. -/
  | noState (s : Nat)
  /-- A table has no entry at this place. -/
  | noEntry (place : Nat)
deriving DecidableEq, Repr

structure DfaState where
  edges : NatMap Nat := ∅
  token : Option Nat := none
deriving DecidableEq, Repr

instance : Inhabited DfaState := ⟨{}⟩

structure Dfa where
  alphabet : Alphabet
  states : Array DfaState
  start : Nat
deriving DecidableEq, Repr

namespace Dfa

def size (d : Dfa) : Nat := d.states.size

/-- The state with this number; a number outside the automaton stands for a state without edges. -/
def state (d : Dfa) (s : Nat) : DfaState := d.states.getD s {}

def target? (d : Dfa) (s symbol : Nat) : Option Nat := (d.state s).edges.get? symbol

def token? (d : Dfa) (s : Nat) : Option Nat := (d.state s).token

def run (d : Dfa) (s : Nat) : List Nat → Option Nat
  | [] => some s
  | symbol :: word => (d.target? s symbol).bind fun t => d.run t word

/-- The token of a word of symbols, read from the start. -/
def tokenOfWord (d : Dfa) (word : List Nat) : Option Nat := (d.run d.start word).bind d.token?

/-- There is a state, the start and all targets are states, and all edges carry symbols of the
alphabet. -/
structure WellFormed (d : Dfa) : Prop where
  start_lt : d.start < d.size
  edge_lt : ∀ q ∈ d.states, ∀ e ∈ q.edges.entries, e.1 < d.alphabet.size ∧ e.2 < d.size

end Dfa

end SyntaxTables
