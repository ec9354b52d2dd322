import SyntaxTables.Lr.Merge
import SyntaxTables.ParseTable
import SyntaxTables.Settings

/-!
# Filling a parse table

The actions of a state are placed on a row of empty cells in three passes: a shift for every edge on
a terminal, accepting for the completed start, and a reduction for every complete item on its
lookahead. A reduction that finds its cell taken gives way to a shift and to accepting, and of two
reductions the one declared first stays. Each action that has to go is recorded and reported; a
conflict never stops the construction.
-/

namespace SyntaxTables

/-- The kind of conflict in which an action keeps its cell against a reduction. -/
def Action.conflictKind : Action → ConflictKind
  | .shift _ => .shiftReduce
  | .reduce _ => .reduceReduce
  | .accept => .reduceAccept

namespace LrAutomaton

/-- The complete items of declared productions, in the order of the items. -/
def reductions (a : LrAutomaton) (g : Grammar) (q : LrState) : List Item :=
  q.items.filter fun it => it.production ≠ a.augmented && g.isComplete it

/-- The cells of a state, one for each terminal, and the conflicts settled so far. -/
structure Placement where
  row : List (Option Action)
  conflicts : List Conflict
deriving DecidableEq, Repr

def placeShifts (edges : List (Symbol × Nat)) (row : List (Option Action)) : List (Option Action) :=
  edges.foldl (fun row e =>
    match e.1 with
    | .terminal x => row.set x (some (.shift e.2))
    | .nonterminal _ => row) row

/-- Accepting on the end of input, if a state holds the completed start. -/
def placeAccept (a : LrAutomaton) (g : Grammar) (q : LrState) (row : List (Option Action)) :
    List (Option Action) :=
  if ⟨a.augmented, 1, g.eof⟩ ∈ q.items then row.set g.eof (some .accept) else row

/-- A reduction for a complete item, if it gets its cell. -/
def placeReduction (state : Nat) (f : Placement) (it : Item) : Placement :=
  match f.row[it.lookahead]?.join with
  | none => { f with row := f.row.set it.lookahead (some (.reduce it.production)) }
  | some (.reduce i) =>
    if i = it.production then f
    else
      let kept := Action.reduce (min i it.production)
      { row := f.row.set it.lookahead (some kept)
        conflicts := f.conflicts ++
          [⟨state, it.lookahead, .reduceReduce, kept, .reduce (max i it.production)⟩] }
  | some kept =>
    { f with
      conflicts := f.conflicts ++
        [⟨state, it.lookahead, kept.conflictKind, kept, .reduce it.production⟩] }

/-- The cells of a state after all passes, with the conflicts in the order of the items. -/
def fillState (a : LrAutomaton) (g : Grammar) (state : Nat) (q : LrState) : Placement :=
  let row := a.placeAccept g q (placeShifts q.edges (List.replicate g.width none))
  (a.reductions g q).foldl (placeReduction state) ⟨row, []⟩

def placements (a : LrAutomaton) (g : Grammar) : List Placement :=
  a.states.zipIdx.map fun (q, s) => a.fillState g s q

def gotoRow (q : LrState) : NatMap Nat :=
  .ofList (q.edges.filterMap fun (s, t) =>
    match s with
    | .nonterminal n => some (n, t)
    | .terminal _ => none)

end LrAutomaton

namespace Grammar

def productionInfo (p : Production) : ProductionInfo := ⟨p.lhs, p.rhs.length, p.kind, p.name⟩

/-- The parse table of an automaton for the grammar. -/
def parseTable (g : Grammar) (a : LrAutomaton) : ParseTable :=
  let placements := a.placements g
  { terminalNames := g.terminals
    nonterminalNames := g.nonterminals
    eof := g.eof
    action := placements.map LrAutomaton.Placement.row
    goto := a.states.map LrAutomaton.gotoRow
    productions := g.productions.map productionInfo
    conflicts := placements.flatMap LrAutomaton.Placement.conflicts }

def actionText (g : Grammar) : Action → String
  | .shift t => s!"shift to {t}"
  | .reduce i =>
    match g.productions[i]? with
    | some p => s!"reduce {g.display p}"
    | none => s!"reduce {i}"
  | .accept => "accept"

def conflictReport (g : Grammar) (c : Conflict) : Diagnostic :=
  .warning
    (s!"{c.kind.label} conflict in state {c.state} on `{g.terminalName c.terminal}`: " ++
      s!"keeping {g.actionText c.kept} over {g.actionText c.dropped}")
    none

def lrAutomaton (g : Grammar) (settings : ParserSettings) : LrAutomaton :=
  if settings.lalr then g.canonicalLr.mergeCores else g.canonicalLr

/-- The parse table of a grammar, with the reports on its productions and conflicts. -/
def buildParser (g : Grammar) (settings : ParserSettings) :
    Except BuildError ParseTable × List Diagnostic :=
  match g.validate with
  | (.error e, reports) => (.error e, reports)
  | (.ok (), reports) =>
    let table := g.parseTable (g.lrAutomaton settings)
    (.ok table, reports ++ table.conflicts.map g.conflictReport)

end Grammar

end SyntaxTables
