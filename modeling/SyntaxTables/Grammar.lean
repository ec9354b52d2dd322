import SyntaxTables.Diagnostic
import SyntaxTables.Interval

/-!
# Context-free grammars

Terminals and non-terminals are numbered separately by their places in two lists of names. The end
of input is one more terminal, numbered behind the declared ones. A grammar may come from outside,
so its productions may use numbers that are not declared; such productions are ill-formed, are
reported, and take no part in the construction of tables.
-/

namespace SyntaxTables

inductive Symbol
  | terminal (id : Nat)
  | nonterminal (id : Nat)
deriving DecidableEq, Repr

namespace Symbol

def isTerminal : Symbol → Bool
  | terminal _ => true
  | nonterminal _ => false

/-- How a report names a symbol that has no name. -/
def debugText : Symbol → String
  | terminal id => s!"Terminal({id})"
  | nonterminal id => s!"NonTerminal({id})"

def id : Symbol → Nat
  | terminal id => id
  | nonterminal id => id

/-- Terminals come before non-terminals. -/
def rank : Symbol → Nat
  | terminal _ => 0
  | nonterminal _ => 1

instance : Ord Symbol where
  compare := compareLex (compareOn rank) (compareOn id)

instance : Std.TransOrd Symbol :=
  inferInstanceAs (Std.TransCmp (compareLex (compareOn rank) (compareOn id)))

instance : Std.LawfulEqOrd Symbol where
  eq_of_compare {a b} h := by
    have h : (compare a.rank b.rank).then (compare a.id b.id) = .eq := h
    simp only [Ordering.then_eq_eq, Std.compare_eq_iff_eq] at h
    cases a <;> cases b <;> simp_all [rank, id]

end Symbol

/-- What a production is for, apart from what it derives. -/
inductive ProductionKind
  | normal
  /-- Introduced for a repetition or an option. -/
  | auxiliary
  /-- Left-recursive accumulation of a list. -/
  | flatten
  /-- Empty, and its node is dropped from the tree. -/
  | removed
deriving DecidableEq, Repr

structure Production where
  kind : ProductionKind
  lhs : Nat
  rhs : List Symbol
  name : Option String := none
deriving DecidableEq, Repr

structure Grammar where
  terminals : List String
  nonterminals : List String
  start : Nat
  productions : List Production
deriving DecidableEq, Repr

/-- Why a production does not have the shape it should have. -/
inductive ProductionDefect
  | undeclaredLhs (lhs : Nat)
  | undeclaredSymbol (symbol : Symbol)
  | removedNotEmpty
  | flattenNotAccumulating
deriving DecidableEq, Repr

namespace Grammar

/-- The counts and the numbers of a grammar are words. -/
structure OfWords (g : Grammar) : Prop where
  terminals : g.terminals.length < wordLimit
  nonterminals : g.nonterminals.length ≤ wordLimit
  productions : g.productions.length ≤ wordLimit
  production : ∀ p ∈ g.productions, p.lhs < wordLimit ∧ p.rhs.length < wordLimit

/-- The end of input, as a terminal. Its number is a word in a grammar of words. -/
def eof (g : Grammar) : Nat := g.terminals.length

def width (g : Grammar) : Nat := g.terminals.length + 1

def symbolName (g : Grammar) : Symbol → String
  | .terminal id => if id = g.eof then "$" else g.terminals.getD id "?"
  | .nonterminal id => g.nonterminals.getD id "?"

def terminalName (g : Grammar) (id : Nat) : String := g.symbolName (.terminal id)

/-- Is this a declared symbol? The end of input is not. -/
def Declares (g : Grammar) : Symbol → Prop
  | .terminal id => id < g.terminals.length
  | .nonterminal id => id < g.nonterminals.length

instance (g : Grammar) (s : Symbol) : Decidable (g.Declares s) := by
  cases s <;> exact inferInstanceAs (Decidable (_ < _))

def WellFormed (g : Grammar) (p : Production) : Prop :=
  g.Declares (.nonterminal p.lhs) ∧ ∀ s ∈ p.rhs, g.Declares s

instance (g : Grammar) (p : Production) : Decidable (g.WellFormed p) :=
  inferInstanceAs (Decidable (_ ∧ _))

/-- The arrow form of a production. -/
def display (g : Grammar) (p : Production) : String :=
  let body := if p.rhs.isEmpty then " ε" else String.join (p.rhs.map fun s => " " ++ g.symbolName s)
  s!"{g.symbolName (.nonterminal p.lhs)} ->{body}"

/-- What is wrong with a production. Without a declared left-hand side nothing else is looked at. -/
def defects (g : Grammar) (p : Production) : List ProductionDefect :=
  if ¬ g.Declares (.nonterminal p.lhs) then [.undeclaredLhs p.lhs]
  else
    (p.rhs.filter fun s => ¬ g.Declares s).map .undeclaredSymbol ++
      match p.kind, p.rhs with
      | .removed, _ :: _ => [.removedNotEmpty]
      | .flatten, [s, _] => if s = .nonterminal p.lhs then [] else [.flattenNotAccumulating]
      | .flatten, _ => [.flattenNotAccumulating]
      | _, _ => []

def defectMessage (g : Grammar) (i : Nat) (p : Production) : ProductionDefect → String
  | .undeclaredLhs lhs => s!"production {i}: left-hand side {lhs} is not declared"
  | .undeclaredSymbol s => s!"production {i}: undefined symbol {s.debugText}"
  | .removedNotEmpty => s!"production {i} ({g.display p}) is REMOVED but not empty"
  | .flattenNotAccumulating =>
    s!"production {i} ({g.display p}) is FLATTEN but not of shape L -> L X"

/-- One report per defect, in the order of the productions. -/
def defectReports (g : Grammar) : List Diagnostic :=
  g.productions.zipIdx.flatMap fun (p, i) =>
    (g.defects p).map fun d => .error (g.defectMessage i p d) none

/-- What makes a grammar useless as a whole. -/
def fatal? (g : Grammar) : Option BuildError :=
  if g.productions.isEmpty then some .emptyGrammar
  else
    match g.nonterminals[g.start]? with
    | none => some (.missingStart g.start)
    | some name =>
      if g.productions.any fun p => p.lhs = g.start then none
      else some (.startWithoutProductions name)

/-- Checks a grammar before tables are built: the fault that forbids it, or reports on single
productions. -/
def validate (g : Grammar) : Except BuildError Unit × List Diagnostic :=
  match g.fatal? with
  | some e => (.error e, [])
  | none => (.ok (), g.defectReports)

end Grammar

end SyntaxTables
