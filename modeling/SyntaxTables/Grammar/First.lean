import SyntaxTables.Ascending
import SyntaxTables.Grammar

/-!
# First sets

Which terminals can begin what a non-terminal derives, and whether it derives the empty string. The
sets are the least ones closed under the well-formed productions, computed by passes over all
productions until a pass changes nothing.
-/

namespace SyntaxTables

/-- The terminals that can come first, ascending, and whether there may be none at all. -/
structure FirstSet where
  terminals : List Nat := []
  nullable : Bool := false
deriving DecidableEq, Repr

namespace FirstSet

def join (f h : FirstSet) : FirstSet :=
  ⟨Ascending.union f.terminals h.terminals, f.nullable || h.nullable⟩

/-- With `a` standing in for the empty string. -/
def withLookahead (f : FirstSet) (a : Nat) : List Nat :=
  if f.nullable then Ascending.union [a] f.terminals else f.terminals

end FirstSet

/-- The sets of all non-terminals, by number. -/
abbrev FirstSets := Array FirstSet

namespace FirstSets

/-- An undeclared non-terminal derives nothing. -/
def ofNonterminal (sets : FirstSets) (n : Nat) : FirstSet := sets.getD n {}

def ofSequence (sets : FirstSets) : List Symbol → FirstSet
  | [] => ⟨[], true⟩
  | .terminal t :: _ => ⟨[t], false⟩
  | .nonterminal n :: rest =>
    let f := sets.ofNonterminal n
    if f.nullable then
      let r := sets.ofSequence rest
      ⟨Ascending.union f.terminals r.terminals, r.nullable⟩
    else ⟨f.terminals, false⟩

/-- The terminals that can come first in a sequence followed by `a`. -/
def lookaheads (sets : FirstSets) (sequence : List Symbol) (a : Nat) : List Nat :=
  (sets.ofSequence sequence).withLookahead a

/-- Are all sets that decide the first set of a sequence known? -/
def Determines (sets : FirstSets) : List Symbol → Prop
  | [] => True
  | .terminal _ :: _ => True
  | .nonterminal n :: rest =>
    n < sets.size ∧ ((sets.ofNonterminal n).nullable = true → sets.Determines rest)

instance decidableDetermines (sets : FirstSets) : (s : List Symbol) → Decidable (sets.Determines s)
  | [] => isTrue trivial
  | .terminal _ :: _ => isTrue trivial
  | .nonterminal n :: rest =>
    have := decidableDetermines sets rest
    inferInstanceAs (Decidable (n < sets.size ∧ (_ → sets.Determines rest)))

end FirstSets

namespace Grammar

/-- Adds what one production contributes to the set of its left-hand side. -/
def addFirst (sets : FirstSets) (p : Production) : FirstSets :=
  let f := sets.ofSequence p.rhs
  sets.modify p.lhs fun known => known.join f

/-- Passes over some productions until one changes nothing. -/
def firstWithin (productions : List Production) : Nat → FirstSets → FirstSets
  | 0, sets => sets
  | passes + 1, sets =>
    let larger := productions.foldl addFirst sets
    if larger = sets then sets else firstWithin productions passes larger

/-- The first sets of all non-terminals. A pass that changes anything adds a terminal or the empty
string to some set, which bounds their number. -/
def firstSets (g : Grammar) : FirstSets :=
  firstWithin (g.productions.filter fun p => g.WellFormed p)
    (g.nonterminals.length * (g.terminals.length + 1) + 1)
    (Array.replicate g.nonterminals.length {})

end Grammar

end SyntaxTables
