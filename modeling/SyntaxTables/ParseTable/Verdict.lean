import Std.Data.TreeMap
import SyntaxTables.ParseTable.Run

/-!
# Verdicts

While a parser looks at one terminal, what it does above a state depends on that state alone, for
nothing below is looked at before the state is taken off the stack again. So the way from entering a
state to the reduction that takes it away has to be walked only once; after that it is known, and
entering the state again is one stride. This matters for tables that reduce empty bodies: their runs
can double in length with every state, while the number of strides is bounded by the number of
states.
-/

namespace SyntaxTables.ParseTable

/-- How far a run has come. -/
structure Distance where
  steps : Nat := 0
  shifts : Nat := 0
deriving DecidableEq, Repr

instance : Add Distance := ⟨fun a b => ⟨a.steps + b.steps, a.shifts + b.shifts⟩⟩

/-- How a state leaves the stack. After some distance, with the state `top` on top, a production of
the non-terminal `lhs` is reduced, which takes away the state and `depth` more below it. -/
structure Descent where
  distance : Distance
  top : Nat
  lhs : Nat
  depth : Nat
deriving DecidableEq, Repr

/-- The ways in which states leave, as far as they have been walked. -/
abbrev Descents := Std.TreeMap Nat Descent

/-- A state entered while the parser looks at one terminal, and the distance from there to entering
the state now above it. -/
structure Frame where
  state : Nat
  distance : Distance
deriving DecidableEq, Repr

/-- What a parser has done while it looks at one terminal. -/
structure Look where
  /-- The state just entered. -/
  top : Nat
  /-- The states below it that were entered in this look. -/
  frames : List Frame
  /-- The states entered before. -/
  older : List Nat
  /-- The distance to entering the lowest frame. -/
  distance : Distance
  known : Descents

/-- How a stride ends. -/
inductive Stride
  | looking (l : Look)
  | shifting (state : Nat)
  | accepting
  | failing (cause : ParseErrorCause) (state : Nat) (distance : Distance)

/-- How a run ends. -/
inductive Verdict
  /-- The step behind these accepts. -/
  | accepts (steps : Nat)
  | fails (e : ParseError)
deriving DecidableEq, Repr

/-- The distance over some frames, which begin at a distance. -/
def distanceOver (start : Distance) : List Frame → Distance
  | [] => start
  | f :: fs => distanceOver start fs + f.distance

/-- Takes away a state that leaves by `d`, and of the frames below it as many as leave with it. The
result holds the frames that stay, how the last of those that leave does so, and all ways known. -/
def unwind (d : Descent) (state : Nat) :
    List Frame → Descents → List Frame × Descent × Descents
  | [], known => ([], d, known.insert state d)
  | f :: fs, known =>
    match d.depth with
    | 0 => (f :: fs, d, known.insert state d)
    | depth + 1 =>
      unwind { d with distance := f.distance + d.distance, depth := depth } f.state fs
        (known.insert state d)

namespace Look

def enter (stack : Nat × List Nat) (distance : Distance) : Look :=
  ⟨stack.1, [], stack.2, distance, ∅⟩

def stack (l : Look) : List Nat := l.top :: l.frames.map Frame.state ++ l.older

/-- The distance to entering the state on top. -/
def reached (l : Look) : Distance := distanceOver l.distance l.frames

/-- Enters a state above the one on top, at some distance from it. -/
def push (l : Look) (distance : Distance) (state : Nat) : Look :=
  { l with top := state, frames := ⟨l.top, distance⟩ :: l.frames }

/-- The state on top leaves by `d`, and the reduction enters another one instead. -/
def leave (t : ParseTable) (l : Look) (d : Descent) : Stride :=
  match unwind d l.top l.frames l.known with
  | (f :: fs, d, known) =>
    match t.goto? f.state d.lhs with
    | none => .failing .noGoto d.top (distanceOver l.distance (f :: fs) + d.distance)
    | some next =>
      .looking { l with
        top := next, frames := ⟨f.state, f.distance + d.distance + { steps := 1 }⟩ :: fs
        known := known }
  | ([], d, known) =>
    match l.older.drop d.depth with
    | [] => .failing .stackTooShort d.top (l.distance + d.distance)
    | state :: states =>
      match t.goto? state d.lhs with
      | none => .failing .noGoto d.top (l.distance + d.distance)
      | some next =>
        .looking ⟨next, [], state :: states, l.distance + d.distance + { steps := 1 }, known⟩

def reduce (t : ParseTable) (l : Look) (production : Nat) : Stride :=
  match t.productions[production]? with
  | none => .failing .unknownProduction l.top l.reached
  | some p =>
    match p.length with
    | 0 =>
      match t.goto? l.top p.lhs with
      | none => .failing .noGoto l.top l.reached
      | some next => .looking (l.push { steps := 1 } next)
    | depth + 1 => l.leave t ⟨{}, l.top, p.lhs, depth⟩

def stride (t : ParseTable) (terminal : Nat) (l : Look) : Stride :=
  match l.known[l.top]? with
  | some d => l.leave t d
  | none =>
    match t.action? l.top terminal with
    | none => .failing .unexpectedTerminal l.top l.reached
    | some .accept => .accepting
    | some (.shift state) => .shifting state
    | some (.reduce production) => l.reduce t production

/-- Strides on over a terminal until it is shifted or decides the run. Behind the input the terminal
stays the end of input, however often it is shifted. -/
def verdict? (t : ParseTable) (input : List Nat)
    (shifted : Nat × List Nat → Distance → Option Verdict) : Nat → Look → Option Verdict
  | 0, _ => none
  | strides + 1, l =>
    match l.stride t (input.headD t.eof) with
    | .looking l => l.verdict? t input shifted strides
    | .accepting => some (.accepts l.reached.steps)
    | .failing cause state distance =>
      some (.fails ⟨cause, distance.shifts, input.headD t.eof, state⟩)
    | .shifting state =>
      if input.isEmpty then (l.push ⟨1, 1⟩ state).verdict? t input shifted strides
      else shifted (state, l.stack) (l.reached + ⟨1, 1⟩)

/-- More strides than a look takes that ends. A state that is entered twice before it leaves is
entered without end, and so is one that is entered twice above the same other one. -/
def strideLimit (t : ParseTable) (l : Look) : Nat :=
  (t.stateCount + 2) * (t.stateCount + l.older.length + 3)

end Look

/-- The verdict on an input from a stack on, which was reached at a distance. -/
def verdictFrom? (t : ParseTable) (stack : Nat × List Nat) (distance : Distance) :
    List Nat → Option Verdict
  | [] =>
    let l := Look.enter stack distance
    l.verdict? t [] (fun _ _ => none) (l.strideLimit t)
  | a :: input =>
    if t.eof ≤ a then some (.fails ⟨.unexpectedTerminal, distance.shifts, a, stack.1⟩)
    else
      let l := Look.enter stack distance
      l.verdict? t (a :: input) (fun stack distance => t.verdictFrom? stack distance input)
        (l.strideLimit t)

/-- The verdict on an input, or nothing if the run does not end. -/
def verdict? (t : ParseTable) (input : List Nat) : Option Verdict :=
  t.verdictFrom? (0, []) {} input

/-- Parses a list of terminals, and lists the productions reduced. There is nothing to tell if the
run does not end. -/
def parse? (t : ParseTable) (input : List Nat) : Option (Except ParseError (List Nat)) :=
  match t.verdict? input with
  | none => none
  | some (.fails e) => some (.error e)
  | some (.accepts steps) => t.run (steps + 1) (.initial input)

end SyntaxTables.ParseTable
