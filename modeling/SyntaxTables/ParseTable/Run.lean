import SyntaxTables.ParseTable

/-!
# Running a parse table

A configuration holds a stack of states, the input read so far and the productions reduced. One step
looks up the action of the top state on the next terminal and carries it out. A run need not end, as
reductions consume no input, so it is given a number of steps.
-/

namespace SyntaxTables

/-- Why a parse stops without accepting. The last three causes cannot arise from a table that was
filled from a grammar. -/
inductive ParseErrorCause
  /-- The terminal has no action here, or is the number of the end of input. -/
  | unexpectedTerminal
  | unknownProduction
  | stackTooShort
  | noGoto
deriving DecidableEq, Repr

structure ParseError where
  cause : ParseErrorCause
  /-- The place of the terminal in the input; the end of input has the place behind the last. -/
  position : Nat
  terminal : Nat
  state : Nat
deriving DecidableEq, Repr

def ParseError.message (e : ParseError) : String :=
  s!"unexpected terminal {e.terminal} at token {e.position} (state {e.state})"

namespace ParseTable

/-- A parse under way. -/
structure Configuration where
  /-- The state on top of the stack. -/
  top : Nat
  /-- The states below it. -/
  below : List Nat
  position : Nat
  /-- The terminals not yet shifted. -/
  rest : List Nat
  /-- The productions reduced, the latest first. -/
  reduced : List Nat
deriving DecidableEq, Repr

namespace Configuration

def initial (input : List Nat) : Configuration := ⟨0, [], 0, input, []⟩

/-- The next terminal; behind the input it is the end of input. -/
def lookahead (t : ParseTable) (c : Configuration) : Nat := c.rest.headD t.eof

def fail (t : ParseTable) (c : Configuration) (cause : ParseErrorCause) : ParseError :=
  ⟨cause, c.position, c.lookahead t, c.top⟩

end Configuration

/-- How one step ends. -/
inductive StepResult
  | running (c : Configuration)
  | accepted (reductions : List Nat)
  | failed (e : ParseError)
deriving DecidableEq, Repr

/-- Replaces the body of a production on the stack by its left-hand side. -/
def reduceStep (t : ParseTable) (c : Configuration) (production : Nat) : StepResult :=
  match t.productions[production]? with
  | none => .failed (c.fail t .unknownProduction)
  | some p =>
    match (c.top :: c.below).drop p.length with
    | [] => .failed (c.fail t .stackTooShort)
    | top :: below =>
      match t.goto? top p.lhs with
      | none => .failed (c.fail t .noGoto)
      | some next =>
        .running { c with top := next, below := top :: below, reduced := production :: c.reduced }

/-- One step. A terminal of the input with the number of the end of input, or beyond, is refused. -/
def step (t : ParseTable) (c : Configuration) : StepResult :=
  if c.rest.head?.any fun a => t.eof ≤ a then .failed (c.fail t .unexpectedTerminal)
  else
    match t.action? c.top (c.lookahead t) with
    | none => .failed (c.fail t .unexpectedTerminal)
    | some .accept => .accepted c.reduced.reverse
    | some (.shift s) =>
      .running { c with
        top := s, below := c.top :: c.below, position := c.position + 1, rest := c.rest.tail }
    | some (.reduce p) => t.reduceStep c p

/-- Runs for at most the given number of steps; `none` if they are not enough. -/
def run (t : ParseTable) : Nat → Configuration → Option (Except ParseError (List Nat))
  | 0, _ => none
  | steps + 1, c =>
    match t.step c with
    | .running c => t.run steps c
    | .accepted reductions => some (.ok reductions)
    | .failed e => some (.error e)

end ParseTable

end SyntaxTables
