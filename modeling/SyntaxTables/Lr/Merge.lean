import SyntaxTables.Lr

/-!
# Merging states with the same core

States that differ in their lookaheads only become one, numbered by the first state of the core. It
gets the items of all of them, and their edges, which are led on to the merged states; an edge put
down later replaces an earlier one on the same symbol. Merging can bring two reductions of different
states into one.
-/

namespace SyntaxTables.LrAutomaton

/-- The different cores in the order of the states. -/
def cores (a : LrAutomaton) : List (List ItemCore) :=
  Exploration.distinct (a.states.map LrState.core)

/-- For each state the number of the merged state that it goes into. -/
def mergedStates (a : LrAutomaton) : Array Nat :=
  let numbers := Exploration.numbers a.cores
  (a.states.map fun q => numbers.getD q.core 0).toArray

/-- The merged state of several states of one core. Of their edges on one symbol the last one
stays. -/
def unite (place : Nat → Nat) (members : List LrState) : LrState where
  items := Ascending.ofList (members.flatMap LrState.items)
  edges := (Ascending.groups (members.flatMap LrState.edges)).filterMap fun (s, targets) =>
    targets.getLast?.map fun t => (s, place t)

/-- The automaton with one state per core. -/
def mergeCores (a : LrAutomaton) : LrAutomaton :=
  let places := a.mergedStates
  { a with
    states := (Ascending.groups (places.toList.zip a.states)).map fun (_, members) =>
      unite (fun t => places.getD t 0) members }

end SyntaxTables.LrAutomaton
