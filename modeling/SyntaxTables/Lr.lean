import SyntaxTables.Exploration
import SyntaxTables.Grammar.First

/-!
# LR automata

An item marks a place in the body of a production, together with a terminal that may follow the
production. A state is a closed set of items; its edges advance the mark over one symbol. The
grammar is augmented by a production with the start symbol as its body, numbered behind the declared
ones.

The canonical automaton has a state for each closed set reachable from the start, numbered in the
order in which a breadth-first search finds them, where terminals come before non-terminals.
-/

namespace SyntaxTables

/-- A production with a mark in its body and a terminal that may follow it. -/
structure Item where
  production : Nat
  dot : Nat
  lookahead : Nat
deriving DecidableEq, Repr

/-- An item without its lookahead. -/
structure ItemCore where
  production : Nat
  dot : Nat
deriving DecidableEq, Repr

namespace ItemCore

/-- By production, then mark. -/
instance : Ord ItemCore where
  compare := compareLex (compareOn production) (compareOn dot)

instance : Std.TransOrd ItemCore :=
  inferInstanceAs (Std.TransCmp (compareLex (compareOn production) (compareOn dot)))

instance : Std.LawfulEqOrd ItemCore where
  eq_of_compare {a b} h := by
    obtain ⟨p, d⟩ := a
    have h : (compare p b.production).then (compare d b.dot) = .eq := h
    simp only [Ordering.then_eq_eq, Std.compare_eq_iff_eq] at h
    obtain ⟨rfl, rfl⟩ := h
    rfl

end ItemCore

namespace Item

/-- By production, then mark, then lookahead. -/
instance : Ord Item where
  compare := compareLex (compareOn production) (compareLex (compareOn dot) (compareOn lookahead))

instance : Std.TransOrd Item :=
  inferInstanceAs (Std.TransCmp
    (compareLex (compareOn production) (compareLex (compareOn dot) (compareOn lookahead))))

instance : Std.LawfulEqOrd Item where
  eq_of_compare {a b} h := by
    obtain ⟨p, d, l⟩ := a
    have h : (compare p b.production).then
        ((compare d b.dot).then (compare l b.lookahead)) = .eq := h
    simp only [Ordering.then_eq_eq, Std.compare_eq_iff_eq] at h
    obtain ⟨rfl, rfl, rfl⟩ := h
    rfl

def advance (it : Item) : Item := { it with dot := it.dot + 1 }

def core (it : Item) : ItemCore := ⟨it.production, it.dot⟩

end Item

structure LrState where
  /-- The items, ascending. -/
  items : List Item
  /-- At most one edge per symbol, in the order of the symbols. -/
  edges : List (Symbol × Nat)
deriving DecidableEq, Repr

namespace LrState

def core (q : LrState) : List ItemCore := Exploration.distinct (q.items.map Item.core)

def target? (q : LrState) (s : Symbol) : Option Nat := q.edges.lookup s

end LrState

structure LrAutomaton where
  states : List LrState
  /-- The number of the added production. -/
  augmented : Nat
  /-- The non-terminal that is its body. -/
  start : Nat
deriving DecidableEq, Repr

namespace Grammar

/-- The number of the added production. -/
def augmented (g : Grammar) : Nat := g.productions.length

/-- The body of a production or of the added one. -/
def body (g : Grammar) (production : Nat) : List Symbol :=
  match g.productions[production]? with
  | some p => p.rhs
  | none => if production = g.augmented then [.nonterminal g.start] else []

def isComplete (g : Grammar) (it : Item) : Bool := (g.body it.production).length ≤ it.dot

/-- The numbers of the well-formed productions of a non-terminal. -/
def alternatives (g : Grammar) (n : Nat) : List Nat :=
  g.productions.zipIdx.filterMap fun (p, i) =>
    if p.lhs = n ∧ g.WellFormed p then some i else none

end Grammar

/-- What closing a set of items asks of a grammar again and again, looked up once. -/
structure ClosureTable where
  /-- The body of each production, the added one included. -/
  bodies : Array (List Symbol)
  /-- The well-formed productions of each non-terminal. -/
  alternatives : Array (List Nat)
  first : FirstSets
  /-- No more layers of items come in when a set is closed. -/
  layers : Nat

namespace ClosureTable

def body (t : ClosureTable) (production : Nat) : List Symbol := t.bodies.getD production []

def nextSymbol? (t : ClosureTable) (it : Item) : Option Symbol := (t.body it.production)[it.dot]?

/-- The items that an item brings into its set: where a non-terminal stands behind the mark, its
productions, followed by whatever can follow it there. -/
def predictions (t : ClosureTable) (it : Item) : List Item :=
  match (t.body it.production).drop it.dot with
  | .nonterminal n :: rest =>
    let follow := t.first.lookaheads rest it.lookahead
    (t.alternatives.getD n []).flatMap fun p => follow.map fun a => ⟨p, 0, a⟩
  | _ => []

/-- The least closed set that holds the given items. -/
def closure (t : ClosureTable) (kernel : List Item) : List Item :=
  Ascending.ofList (Exploration.breadthFirst t.predictions t.layers kernel)

/-- The symbols behind the marks of some items, in order, each with the items in which the mark has
moved over it. -/
def kernels (t : ClosureTable) (items : List Item) : List (Symbol × List Item) :=
  Ascending.groups (items.filterMap fun it => (t.nextSymbol? it).map fun s => (s, it.advance))

/-- The state of one kernel, where `numbers` gives the numbers of kernels. -/
def lrState (t : ClosureTable) (numbers : Std.TreeMap (List Item) Nat)
    (kernel : List Item) : LrState :=
  let items := t.closure kernel
  { items := items
    edges := (t.kernels items).map fun (s, kernel) => (s, numbers.getD kernel 0) }

end ClosureTable

namespace Grammar

/-- The table for the grammar. An item that comes in begins a production, which bounds the
layers. -/
def closureTable (g : Grammar) : ClosureTable where
  bodies := ((List.range (g.augmented + 1)).map g.body).toArray
  alternatives := ((List.range g.nonterminals.length).map g.alternatives).toArray
  first := g.firstSets
  layers := g.productions.length * g.width + 1

/-- The items from which the start state is closed. -/
def startKernel (g : Grammar) : List Item := [⟨g.augmented, 0, g.eof⟩]

/-- The number of items that can be written down for a grammar. -/
def itemCount (g : Grammar) : Nat :=
  (g.productions.foldl (fun n p => n + p.rhs.length + 1) 2) * g.width

/-- The kernels of all states, in order of discovery. A closed set is named by its kernel, because
the items that closing brings in begin a declared production, which those of a kernel do not. -/
def lrKernels (g : Grammar) (t : ClosureTable) : List (List Item) :=
  Exploration.breadthFirst (fun kernel => (t.kernels (t.closure kernel)).map Prod.snd)
    (Nat.pow 2 g.itemCount) [g.startKernel]

def canonicalLr (g : Grammar) : LrAutomaton :=
  let t := g.closureTable
  let kernels := g.lrKernels t
  let numbers := Exploration.numbers kernels
  { states := kernels.map (t.lrState numbers)
    augmented := g.augmented
    start := g.start }

end Grammar

end SyntaxTables
