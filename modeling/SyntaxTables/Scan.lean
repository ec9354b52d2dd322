import SyntaxTables.CharQuote
import SyntaxTables.Dfa

/-!
# Scanning with an automaton

A text is cut into tokens from left to right, at each place the longest piece that the automaton
labels. Scanning sees an automaton only through its start, its steps and its labels, so a graph and
a dense table are driven by the same code. Offsets and lengths count UTF-8 bytes.
-/

namespace SyntaxTables

/-- What a scanner needs to know about an automaton. -/
structure Automaton where
  start : Nat
  /-- The next state on a character, if there is one. -/
  step : Nat → Char → Except Fault (Option Nat)
  /-- The token that a state completes, if any. -/
  token : Nat → Except Fault (Option Nat)

def Dfa.existingState (d : Dfa) (s : Nat) : Except Fault DfaState :=
  match d.states[s]? with
  | some q => .ok q
  | none => .error (.noState s)

/-- A character outside the alphabet has no step from any state. -/
def Dfa.automaton (d : Dfa) : Automaton where
  start := d.start
  step s c :=
    match d.alphabet.symbolOf? c.toNat with
    | none => .ok none
    | some x => do return (← d.existingState s).edges.get? x
  token s := do return (← d.existingState s).token

namespace Automaton

def tokenFrom (a : Automaton) (s : Nat) : List Char → Except Fault (Option Nat)
  | [] => a.token s
  | c :: cs => do
    match ← a.step s c with
    | none => return none
    | some t => a.tokenFrom t cs

def wholeMatch (a : Automaton) (text : List Char) : Except Fault (Option Nat) :=
  a.tokenFrom a.start text

/-- The states passed on a text, with their tokens; `none` in the end if a step is missing. -/
def trace (a : Automaton) (s : Nat) : List Char → Except Fault (List (Option (Nat × Option Nat)))
  | [] => do return [some (s, ← a.token s)]
  | c :: cs => do
    let here := some (s, ← a.token s)
    match ← a.step s c with
    | none => return [here, none]
    | some t => return here :: (← a.trace t cs)

end Automaton

/-- A matched beginning of a text. -/
structure Match where
  token : Nat
  length : Nat
  /-- The text behind the match. -/
  rest : List Char
deriving DecidableEq, Repr

/-- A token found in a text. -/
structure Token where
  kind : Nat
  start : Nat
  length : Nat
deriving DecidableEq, Repr

/-- The place where no token matches, in its surroundings. -/
structure NoMatch where
  position : Nat
  character : Char
  contextStart : Nat
  context : List Char
deriving DecidableEq, Repr

/-- Why a text cannot be cut into tokens. -/
inductive ScanError
  | noMatch (site : NoMatch)
  | fault (cause : Fault)
deriving DecidableEq, Repr

namespace Automaton

/-- Runs on while there are steps; `best` is the longest match so far, `length` what was read. -/
def longestFrom (a : Automaton) (s length : Nat) (best : Option Match) :
    List Char → Except Fault (Option Match)
  | [] => .ok best
  | c :: cs => do
    match ← a.step s c with
    | none => return best
    | some t =>
      let length := length + c.utf8Size
      match ← a.token t with
      | none => a.longestFrom t length best cs
      | some token => a.longestFrom t length (some ⟨token, length, cs⟩) cs

/-- The longest non-empty beginning of a text that is a token. -/
def longestMatch (a : Automaton) (text : List Char) : Except Fault (Option Match) :=
  a.longestFrom a.start 0 none text

end Automaton

/-- How far a message looks around the place of an error, in bytes. -/
def contextReach : Nat := 16

/-- Stands for a character that is not visible ASCII. -/
def contextPlaceholder : Char := '·'

/-- The whole characters, with their offsets, that reach into the surroundings of a byte position.
The text begins at `offset`. -/
def surroundings (position offset : Nat) : List Char → List (Nat × Char)
  | [] => []
  | c :: cs =>
    let next := offset + c.utf8Size
    if next ≤ position - contextReach then surroundings position next cs
    else if offset < position + contextReach then (offset, c) :: surroundings position next cs
    else []

/-- The report that no token matches at the beginning of `c :: …`, which is at `position`. -/
def NoMatch.at (text : List Char) (position : Nat) (c : Char) : NoMatch :=
  let around := surroundings position 0 text
  { position := position
    character := c
    contextStart := (around.head?.map Prod.fst).getD position
    context := around.map fun (_, c) =>
      if ' '.toNat ≤ c.toNat && c.toNat ≤ '~'.toNat then c else contextPlaceholder }

def NoMatch.message (e : NoMatch) : String :=
  s!"no token matches at byte {e.position} (char {quoteChar e.character}); " ++
    s!"context [{e.contextStart}..):\n{String.ofList e.context}"

namespace Automaton

/-- Cuts the rest of a text, which begins at `position`, into at most `limit` tokens. -/
def tokensFrom (a : Automaton) (text : List Char) :
    Nat → Nat → List Char → Except ScanError (List Token)
  | _, _, [] => .ok []
  | 0, _, _ => .ok []
  | limit + 1, position, c :: cs =>
    match a.longestMatch (c :: cs) with
    | .error fault => .error (.fault fault)
    | .ok none => .error (.noMatch (.at text position c))
    | .ok (some m) => do
      let more ← a.tokensFrom text limit (position + m.length) m.rest
      return ⟨m.token, position, m.length⟩ :: more

/-- All tokens of a text. A match is never empty, so there are no more tokens than characters. -/
def tokens (a : Automaton) (text : List Char) : Except ScanError (List Token) :=
  a.tokensFrom text text.length 0 text

def scan (a : Automaton) (skip : Nat → Bool) (text : List Char) :
    Except ScanError (List Token) := do
  return (← a.tokens text).filter fun t => !skip t.kind

end Automaton

end SyntaxTables
