import SyntaxTables.Dfa
import SyntaxTables.Nfa

/-!
# Subset construction

A state of the deterministic automaton is a silently closed set of places of the other one. The sets
are numbered in the order in which a breadth-first search finds them, where the symbols leaving a
set are taken in ascending order.
-/

namespace SyntaxTables

namespace Label

def preferred (a b : Label) : Bool :=
  a.priority < b.priority || (a.priority == b.priority && a.token < b.token)

def best? : List Label → Option Label
  | [] => none
  | a :: rest =>
    match best? rest with
    | none => some a
    | some b => if preferred b a then some b else some a

end Label

namespace Nfa

/-- The symbols on the edges that leave a set of places, ascending, each with the closed set that it
leads to. -/
def moves (a : Nfa) (places : List Nat) : List (Nat × List Nat) :=
  (Ascending.groups (places.flatMap fun s => (a.state s).edges)).map fun (x, targets) =>
    (x, a.closure targets)

/-- The closed sets reachable from that of the start, in order of discovery. There are no more than
sets of places. -/
def reachableSets (a : Nfa) : List (List Nat) :=
  Exploration.breadthFirst (fun places => (a.moves places).map Prod.snd) (Nat.pow 2 a.size)
    [a.closure [a.start]]

def subsetState (a : Nfa) (numbers : Std.TreeMap (List Nat) Nat) (places : List Nat) :
    DfaState where
  edges := .ofList ((a.moves places).map fun (x, set) => (x, numbers.getD set 0))
  token := (Label.best? (places.filterMap fun s => (a.state s).label)).map Label.token

/-- The deterministic automaton with the same runs. -/
def toDfa (a : Nfa) (alphabet : Alphabet) : Dfa :=
  let sets := a.reachableSets
  let numbers := Exploration.numbers sets
  { alphabet := alphabet
    states := (sets.map (a.subsetState numbers)).toArray
    start := 0 }

/-- The deterministic automaton of one in which the start may lie outside the arena, and edges may
lead out of it. It is a fault if such a place can be reached. -/
def toDfaChecked (a : Nfa) (alphabet : Alphabet) : Except Fault Dfa :=
  match (Exploration.breadthFirst a.successors a.size [a.start]).find? fun s => a.size ≤ s with
  | some s => .error (.noState s)
  | none => .ok (a.toDfa alphabet)

end Nfa

end SyntaxTables
