import SyntaxTables.Dfa.Partition
import SyntaxTables.Exploration

/-!
# The minimal automaton

The states of one block of the final partition become one, which is drawn like the first of them.
The result has one state per block that can be reached without going through the block of the dead
state, numbered breadth-first by ascending symbols. If all edges carry symbols of the alphabet, it
depends only on the alphabet and on which words have which token, not on how the given automaton was
drawn.
-/

namespace SyntaxTables.Dfa

/-- The block of a state. A number that names no state has the block of the dead one. -/
def blockOf (d : Dfa) (p : Partition) (s : Nat) : Nat :=
  p.blockOf.getD s (p.blockOf.getD d.dead 0)

/-- The first state of a block. The block of the dead state alone has none. -/
def representative? (d : Dfa) (p : Partition) (b : Nat) : Option Nat :=
  (p.members b).find? fun q => q ≠ d.dead

def drawnEdges (d : Dfa) (p : Partition) (b : Nat) : List (Nat × Nat) :=
  ((d.representative? p b).map fun q => (d.state q).edges.entries).getD []

/-- The edges between blocks, without those into the block of the dead state. -/
def blockEdges (d : Dfa) (p : Partition) (b : Nat) : List (Nat × Nat) :=
  ((d.drawnEdges p b).map fun (x, t) => (x, d.blockOf p t)).filter fun e =>
    e.2 ≠ d.blockOf p d.dead

def reachableBlocks (d : Dfa) (p : Partition) : List Nat :=
  Exploration.breadthFirst (fun b => (d.blockEdges p b).map Prod.snd) p.blocks.size
    [d.blockOf p d.start]

def blockState (d : Dfa) (p : Partition) (numbers : Std.TreeMap Nat Nat) (b : Nat) : DfaState where
  edges := .ofList ((d.blockEdges p b).map fun (x, c) => (x, numbers.getD c 0))
  token := (d.representative? p b).bind d.token?

def merge (d : Dfa) (p : Partition) : Dfa :=
  let found := d.reachableBlocks p
  let numbers := Exploration.numbers found
  { alphabet := d.alphabet
    states := (found.map (d.blockState p numbers)).toArray
    start := 0 }

/-- The smallest automaton that gives every word the same token. An automaton without states is left
as it is. -/
def minimize (d : Dfa) : Dfa := if d.size = 0 then d else d.merge d.partition

/-- A target for which there is no predecessor list. -/
def strayTarget? (d : Dfa) : Option Nat :=
  d.states.toList.findSome? fun q =>
    (q.edges.entries.find? fun (x, t) =>
      x < d.alphabet.size && d.slot d.alphabet.size 0 ≤ d.slot x t).map Prod.snd

/-- The smallest automaton of one in which the start need not be a state, and edges may lead out of
it. It is a fault if the start is larger than the number of the dead state, or if a target is and it
either has no predecessor list or belongs to an edge that is drawn. -/
def minimizeChecked (d : Dfa) : Except Fault Dfa :=
  if d.size = 0 then .ok d
  else if d.dead < d.start then .error (.noState d.start)
  else
    match d.strayTarget? with
    | some t => .error (.noState t)
    | none =>
      let p := d.partition
      match ((d.reachableBlocks p).flatMap (d.drawnEdges p)).find? fun e => d.dead < e.2 with
      | some e => .error (.noState e.2)
      | none => .ok (d.merge p)

end SyntaxTables.Dfa
