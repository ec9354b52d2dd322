import SyntaxTables.Ascending
import SyntaxTables.Exploration

/-!
# Nondeterministic automata

An automaton is an arena of states named by their places. Building only ever appends states and
edges, so a place stays valid while the arena grows. Edges carry one symbol each; silent edges carry
none.
-/

namespace SyntaxTables

/-- What a state accepts. Where several meet, the least priority wins, then the least token. -/
structure Label where
  token : Nat
  priority : Nat
deriving DecidableEq, Repr

/-- The edges of one state, in the order in which they were added. -/
structure NfaState where
  edges : List (Nat × Nat) := []
  silent : List Nat := []
  label : Option Label := none
deriving DecidableEq, Repr

instance : Inhabited NfaState := ⟨{}⟩

structure Nfa where
  states : Array NfaState := #[]
  start : Nat := 0

namespace Nfa

def size (a : Nfa) : Nat := a.states.size

/-- The state at a place; a place outside the arena has no edges. -/
def state (a : Nfa) (s : Nat) : NfaState := a.states.getD s {}

/-- Appends a state without edges. Its place is the old size. -/
def addState (a : Nfa) : Nfa := { a with states := a.states.push {} }

def addSilent (a : Nfa) (source target : Nat) : Nfa :=
  { a with states := a.states.modify source fun q => { q with silent := q.silent ++ [target] } }

def addEdge (a : Nfa) (source symbol target : Nat) : Nfa :=
  { a with
    states := a.states.modify source fun q => { q with edges := q.edges ++ [(symbol, target)] } }

def setLabel (a : Nfa) (s : Nat) (label : Label) : Nfa :=
  { a with states := a.states.modify s fun q => { q with label := some label } }

/-- The places that edges of any kind lead to from `s`. -/
def successors (a : Nfa) (s : Nat) : List Nat :=
  (a.state s).edges.map Prod.snd ++ (a.state s).silent

/-- The places reachable from the seeds along silent edges, ascending. -/
def closure (a : Nfa) (seeds : List Nat) : List Nat :=
  Ascending.ofList (Exploration.breadthFirst (fun s => (a.state s).silent) a.size seeds)

def silentlyReaches (a : Nfa) (source target : Nat) : Bool := target ∈ a.closure [source]

@[simp] theorem size_addState (a : Nfa) : a.addState.size = a.size + 1 := by
  simp [addState, size]

@[simp] theorem size_addSilent (a : Nfa) (s t : Nat) : (a.addSilent s t).size = a.size := by
  simp [addSilent, size]

@[simp] theorem size_addEdge (a : Nfa) (s x t : Nat) : (a.addEdge s x t).size = a.size := by
  simp [addEdge, size]

@[simp] theorem size_setLabel (a : Nfa) (s : Nat) (l : Label) : (a.setLabel s l).size = a.size := by
  simp [setLabel, size]

end Nfa

end SyntaxTables
