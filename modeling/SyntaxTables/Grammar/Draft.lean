import SyntaxTables.Grammar
import SyntaxTables.Interval

/-!
# Drafting a grammar by names

A draft collects declarations and productions by name, in any order; numbers are given out when it
is finished, so a production may use a name that is declared later. Terminals and non-terminals
share one space of names. A repeated declaration is ignored and a production with an unknown name is
dropped; both are reported.
-/

namespace SyntaxTables

/-- A production by names. -/
structure ProductionRequest where
  kind : ProductionKind := .normal
  lhs : String
  rhs : List String
  name : Option String := none
  location : Option Location := none
deriving DecidableEq, Repr

/-- Why a draft is not followed in some point. -/
inductive DraftDefect
  | duplicateSymbol (name : String)
  | terminalLhs (name : String)
  | undefinedLhs (name : String)
  | undefinedSymbol (name lhs : String)
deriving DecidableEq, Repr

def DraftDefect.message : DraftDefect → String
  | duplicateSymbol name => s!"duplicate symbol `{name}`"
  | terminalLhs name => s!"terminal `{name}` used as a left-hand side"
  | undefinedLhs name => s!"undefined non-terminal `{name}`"
  | undefinedSymbol name lhs => s!"undefined symbol `{name}` in rule for `{lhs}`"

structure GrammarDraft where
  terminals : List String := []
  nonterminals : List String := []
  /-- The symbols of the declared names. -/
  symbols : List (String × Symbol) := []
  /-- The repeated declarations, in order. -/
  duplicates : List String := []
  start : Option String := none
  requests : List ProductionRequest := []
deriving DecidableEq, Repr

namespace GrammarDraft

def symbol? (d : GrammarDraft) (name : String) : Option Symbol := d.symbols.lookup name

/-- Declares a name as a terminal or as a non-terminal, unless it is taken. -/
def declare (d : GrammarDraft) (terminal : Bool) (name : String) : GrammarDraft :=
  if (d.symbol? name).isSome then { d with duplicates := d.duplicates ++ [name] }
  else if terminal then
    { d with
      terminals := d.terminals ++ [name]
      symbols := (name, .terminal d.terminals.length) :: d.symbols }
  else
    { d with
      nonterminals := d.nonterminals ++ [name]
      symbols := (name, .nonterminal d.nonterminals.length) :: d.symbols }

def terminal (d : GrammarDraft) (name : String) : GrammarDraft := d.declare true name

def nonterminal (d : GrammarDraft) (name : String) : GrammarDraft := d.declare false name

/-- Chooses the start symbol; the latest choice counts. -/
def startAt (d : GrammarDraft) (name : String) : GrammarDraft := { d with start := some name }

def production (d : GrammarDraft) (request : ProductionRequest) : GrammarDraft :=
  { d with requests := d.requests ++ [request] }

def lhs? (d : GrammarDraft) (name : String) : Except DraftDefect Nat :=
  match d.symbol? name with
  | some (.nonterminal id) => .ok id
  | some (.terminal _) => .error (.terminalLhs name)
  | none => .error (.undefinedLhs name)

/-- The body of a request for `lhs`, by numbers. The first unknown name is reported. -/
def rhs? (d : GrammarDraft) (lhs : String) : List String → Except DraftDefect (List Symbol)
  | [] => .ok []
  | name :: names =>
    match d.symbol? name with
    | none => .error (.undefinedSymbol name lhs)
    | some s => do return s :: (← d.rhs? lhs names)

def resolve (d : GrammarDraft) (r : ProductionRequest) : Except DraftDefect Production := do
  let lhs ← d.lhs? r.lhs
  let rhs ← d.rhs? r.lhs r.rhs
  return ⟨r.kind, lhs, rhs, r.name⟩

/-- The productions that could be resolved, in the order of the requests. -/
def productions (d : GrammarDraft) : List Production :=
  d.requests.filterMap fun r => (d.resolve r).toOption

/-- A report for each repeated declaration, then one for each dropped production. -/
def reports (d : GrammarDraft) : List Diagnostic :=
  d.duplicates.map (fun name => .error (DraftDefect.duplicateSymbol name).message none) ++
    d.requests.filterMap fun r =>
      match d.resolve r with
      | .ok _ => none
      | .error defect => some (.error defect.message r.location)

/-- Reported in place of the number of a start symbol that has none. -/
def noStart : Nat := wordLimit - 1

/-- The chosen start symbol, or the left-hand side of the first production. -/
def startSymbol (d : GrammarDraft) : Except BuildError Nat :=
  match d.start with
  | some name =>
    match d.symbol? name with
    | some (.nonterminal id) => .ok id
    | _ => .error (.missingStart noStart)
  | none =>
    match d.productions with
    | p :: _ => .ok p.lhs
    | [] => .error .emptyGrammar

/-- The finished grammar, with the reports on what was left out. -/
def build (d : GrammarDraft) : Except BuildError Grammar × List Diagnostic :=
  (d.startSymbol.map fun start => ⟨d.terminals, d.nonterminals, start, d.productions⟩, d.reports)

end GrammarDraft

end SyntaxTables
