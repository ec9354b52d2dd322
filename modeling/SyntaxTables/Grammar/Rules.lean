import SyntaxTables.Bnf
import SyntaxTables.Grammar

/-!
# Grammars from rules

Every alternative becomes a production. Terminals are numbered by first use; non-terminals by the
order of the rules that define them, followed by the undefined ones by first use, each of which is
reported once. The empty terminal stands for nothing. A terminal and a non-terminal of one spelling
are different symbols, so each sort of name has a table of its own.

The rules are read twice, first for the names that they define and then for the productions.
-/

namespace SyntaxTables

/-- Names in the order of their numbers, and the number of each name. -/
structure NameTable where
  names : List String := []
  numbers : List (String × Nat) := []
deriving DecidableEq, Repr

/-- The number of a name, which is the next free one if the name is new. -/
def NameTable.intern (t : NameTable) (name : String) : Nat × NameTable :=
  match t.numbers.lookup name with
  | some number => (number, t)
  | none => (t.names.length, ⟨t.names ++ [name], (name, t.names.length) :: t.numbers⟩)

/-- What is known while rules are read. -/
structure RuleTables where
  terminals : NameTable := {}
  nonterminals : NameTable := {}
  reports : List Diagnostic := []
deriving DecidableEq, Repr

namespace RuleTables

def terminal (text : String) : StateM RuleTables Nat := modifyGet fun t =>
  let (number, terminals) := t.terminals.intern text
  (number, { t with terminals })

def nonterminal (name : String) : StateM RuleTables Nat := modifyGet fun t =>
  let (number, nonterminals) := t.nonterminals.intern name
  (number, { t with nonterminals })

def require (name : String) : StateM RuleTables Unit := modify fun t =>
  if (t.nonterminals.numbers.lookup name).isSome then t
  else { t with reports := t.reports ++ [.error s!"undefined non-terminal <{name}>" none] }

end RuleTables

namespace Grammar

open Bnf

/-- The symbol of a term; the empty terminal has none. -/
def termSymbol? : Term → StateM RuleTables (Option Symbol)
  | .terminal text => do
    if text.isEmpty then return none
    return some (.terminal (← RuleTables.terminal text))
  | .nonterminal name => do
    RuleTables.require name
    return some (.nonterminal (← RuleTables.nonterminal name))

def ruleProduction (lhs : Nat) (terms : List Term) : StateM RuleTables Production := do
  return { kind := .normal, lhs, rhs := ← terms.filterMapM termSymbol? }

def ruleProductions (r : Rule) : StateM RuleTables (List Production) := do
  let lhs ← RuleTables.nonterminal r.head
  r.alternatives.mapM (ruleProduction lhs)

def ruleHeads (rules : List Rule) : NameTable :=
  rules.foldl (fun heads r => (heads.intern r.head).2) {}

/-- The grammar of some rules, which starts with the head of the first one. -/
def ofRules (rules : List Rule) : Except BuildError Grammar × List Diagnostic :=
  let (productions, t) := rules.mapM ruleProductions { nonterminals := ruleHeads rules }
  let productions := productions.flatten
  (if productions.isEmpty then .error .emptyGrammar
    else .ok ⟨t.terminals.names, t.nonterminals.names, 0, productions⟩, t.reports)

def ofBnf (read? : Reader) (text : List Char) : Except BuildError Grammar × List Diagnostic :=
  match read? text with
  | none => (.error .malformedBnf, [])
  | some rules => ofRules rules

end Grammar

end SyntaxTables
