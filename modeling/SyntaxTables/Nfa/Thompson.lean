import SyntaxTables.Alphabet
import SyntaxTables.Nfa
import SyntaxTables.Pattern

/-!
# Patterns as parts of an automaton

A pattern becomes a block of states with one entry and one exit in a shared arena; the pattern
matches a text when its symbols spell a path from the entry to the exit. Building is a computation
on the arena that may fail at a reference; states added before the failure stay in the arena, where
no edge leads to them.

A definition is built once, as a template in an arena of its own, and for each reference what the
template's entry reaches is copied. So two occurrences of a name share no states, and what a
reference adds does not depend on anything built before. Templates are only made when they are
needed, and one that was made is kept even if the pattern that needed it cannot be built.
-/

namespace SyntaxTables

/-- Why a reference cannot be built. -/
inductive ReferenceError
  /-- No definition has this name. -/
  | undefined (name : String)
  /-- The definition of this name needs itself. -/
  | recursive (name : String)
deriving DecidableEq, Repr

def ReferenceError.message : ReferenceError → String
  | undefined name => s!"undefined reference `{name}`"
  | recursive name => s!"recursive reference to `{name}`"

/-- The first fragment of a name, or else the first token of that name. -/
def Lexicon.find? (lexicon : Lexicon) (name : String) : Option Pattern :=
  ((lexicon.fragments ++ lexicon.tokens).find? fun d => d.name = name).map Definition.pattern

/-- The two ends of a pattern's part of the arena. -/
structure Block where
  entry : Nat
  exit : Nat
deriving DecidableEq, Repr

/-- A definition in an arena of its own. -/
structure Template where
  arena : Nfa
  block : Block

/-- The arena under construction and the templates made so far, by their names. -/
structure Workshop where
  arena : Nfa := {}
  templates : Std.TreeMap String Template := ∅

def NfaState.moveTargets (place : Nat → Nat) (q : NfaState) : NfaState :=
  { q with
    edges := q.edges.map fun (symbol, target) => (symbol, place target)
    silent := q.silent.map place }

namespace Nfa

/-- A computation that extends an arena; a failure keeps what was added. -/
abbrev Build := EStateM ReferenceError Workshop

namespace Build

def changeArena (change : Nfa → Nfa) : Build Unit :=
  modify fun w => { w with arena := change w.arena }

def newState : Build Nat :=
  modifyGet fun w => (w.arena.size, { w with arena := w.arena.addState })

def addSilent (source target : Nat) : Build Unit := changeArena fun a => a.addSilent source target

def addEdge (source symbol target : Nat) : Build Unit :=
  changeArena fun a => a.addEdge source symbol target

def newBlock : Build Block := do
  let entry ← newState
  let exit ← newState
  return ⟨entry, exit⟩

def addEdges (source target : Nat) : List Nat → Build Unit
  | [] => return
  | symbol :: symbols => do
    addEdge source symbol target
    addEdges source target symbols

def ofClass (alphabet : Alphabet) (ranges : List Interval) : Build Block := do
  let b ← newBlock
  addEdges b.entry b.exit (Exploration.distinct (ranges.flatMap alphabet.expand))
  return b

/-- A chain of steps from a state along a text; its last state is returned. -/
def chain (alphabet : Alphabet) (last : Nat) : List Char → Build Nat
  | [] => return last
  | c :: cs => do
    let next ← newState
    addEdges last next (alphabet.expand (Interval.ofChar c))
    chain alphabet next cs

def ofText (alphabet : Alphabet) (text : List Char) : Build Block := do
  let entry ← newState
  if text.isEmpty then
    let exit ← newState
    addSilent entry exit
    return ⟨entry, exit⟩
  else
    return ⟨entry, ← chain alphabet entry text⟩

variable (alphabet : Alphabet) (resolve : String → Build Block)

mutual

/-- Builds a pattern, whose references are built by `resolve`. -/
def ofPattern : Pattern → Build Block
  | .oneOf ranges => ofClass alphabet ranges
  | .noneOf ranges => ofClass alphabet (complement ranges)
  | .literal text => ofText alphabet text
  | .concat parts => ofSequence none parts
  | .union parts => do
    let b ← newBlock
    ofAlternatives b parts
    return b
  | .optional inner => do
    let e ← ofPattern inner
    let b ← newBlock
    addSilent b.entry e.entry
    addSilent b.entry b.exit
    addSilent e.exit b.exit
    return b
  | .star inner => do
    let e ← ofPattern inner
    let b ← newBlock
    addSilent b.entry e.entry
    addSilent b.entry b.exit
    addSilent e.exit e.entry
    addSilent e.exit b.exit
    return b
  | .plus inner => do
    let e ← ofPattern inner
    let b ← newBlock
    addSilent b.entry e.entry
    addSilent e.exit e.entry
    addSilent e.exit b.exit
    return b
  | .reference name => resolve name

/-- Appends the parts to what was built of a concatenation so far, if anything was. -/
def ofSequence : Option Block → List Pattern → Build Block
  | some b, [] => return b
  | none, [] => do
    let b ← newBlock
    addSilent b.entry b.exit
    return b
  | none, p :: ps => do
    let b ← ofPattern p
    ofSequence (some b) ps
  | some a, p :: ps => do
    let b ← ofPattern p
    addSilent a.exit b.entry
    ofSequence (some ⟨a.entry, b.exit⟩) ps

/-- Adds each alternative as a way from the entry of `b` to its exit. -/
def ofAlternatives (b : Block) : List Pattern → Build Unit
  | [] => return
  | p :: ps => do
    let a ← ofPattern p
    addSilent b.entry a.entry
    addSilent a.exit b.exit
    ofAlternatives b ps

end

end Build

/-- What `entry` reaches, in the order in which it is copied. -/
def reachable (a : Nfa) (entry : Nat) : List Nat :=
  Exploration.latestFirst a.successors a.size entry

end Nfa

/-- What is added to an arena of the given size for a reference to a template: the states that its
entry reaches, and its exit in any case. -/
def Template.copied (t : Template) (size : Nat) : Array NfaState × Block :=
  let found := t.arena.reachable t.block.entry
  let numbers := Exploration.numbers found
  let behind := found.length
  let place := fun s => size + numbers.getD s behind
  let lone := if numbers.contains t.block.exit then [] else [default]
  ((found.map (fun s => (t.arena.state s).moveTargets place) ++ lone).toArray,
    ⟨place t.block.entry, place t.block.exit⟩)

namespace Nfa.Build

def copy (t : Template) : Build Block :=
  modifyGet fun w =>
    let (states, b) := t.copied w.arena.size
    (b, { w with arena := { w.arena with states := w.arena.states ++ states } })

/-- Builds in an empty arena, which becomes a template, and goes back to the arena of before. -/
def aside (build : Build Block) : Build Template := fun w =>
  match build { w with arena := {} } with
  | .ok b inner => .ok ⟨inner.arena, b⟩ { inner with arena := w.arena }
  | .error e inner => .error e { inner with arena := w.arena }

def keep (name : String) (t : Template) : Build Unit :=
  modify fun w => { w with templates := w.templates.insert name t }

/-- The template of a name, which is made if there is none yet. The names under construction are in
`visiting`; a reference to one of them is recursive. Each level of `depth` allows one more of
them. -/
def templateWithin (alphabet : Alphabet) (lexicon : Lexicon) :
    Nat → List String → String → Build Template
  | 0, _, name => throw (.recursive name)
  | depth + 1, visiting, name => do
    match lexicon.find? name with
    | none => throw (.undefined name)
    | some pattern =>
      match (← get).templates[name]? with
      | some t => return t
      | none =>
        if name ∈ visiting then throw (.recursive name)
        else
          let resolve := fun inner => do
            copy (← templateWithin alphabet lexicon depth (name :: visiting) inner)
          let t ← aside (ofPattern alphabet resolve pattern)
          keep name t
          return t

/-- Builds the definition of a name. There are no more names under construction than definitions. -/
def instantiate (alphabet : Alphabet) (lexicon : Lexicon) (name : String) : Build Block := do
  let depth := lexicon.fragments.length + lexicon.tokens.length + 1
  copy (← templateWithin alphabet lexicon depth [] name)

/-- Builds a pattern that may refer to the definitions of a lexicon. -/
def compile (alphabet : Alphabet) (lexicon : Lexicon) (pattern : Pattern) : Build Block :=
  ofPattern alphabet (instantiate alphabet lexicon) pattern

end Nfa.Build

end SyntaxTables
