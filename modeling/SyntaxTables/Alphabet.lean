import SyntaxTables.Ascending
import SyntaxTables.Bisection
import SyntaxTables.Interval

/-!
# Interval alphabets

An automaton reads symbols, not code points. The symbols are the cells of the coarsest partition of
the covered code points that every given interval respects; symbol `i` is the `i`-th cell. The cells
are found by cutting at every end of an interval and keeping the pieces that some interval covers.
-/

namespace SyntaxTables

namespace Interval

/-- By the least point, then the greatest. -/
instance : Ord Interval where
  compare := compareLex (compareOn Interval.min) (compareOn Interval.max)

instance : Std.TransOrd Interval :=
  inferInstanceAs (Std.TransCmp (compareLex (compareOn Interval.min) (compareOn Interval.max)))

instance : Std.LawfulEqOrd Interval where
  eq_of_compare {r s} h := by
    obtain ⟨lo, hi⟩ := r
    have h : (compare lo s.min).then (compare hi s.max) = .eq := h
    simp only [Ordering.then_eq_eq, Std.compare_eq_iff_eq] at h
    obtain ⟨rfl, rfl⟩ := h
    rfl

end Interval

/-- The cells of the symbols in order. In a built alphabet they are ascending and disjoint; a loaded
one is taken as it is. -/
structure Alphabet where
  cells : Array Interval
deriving DecidableEq, Repr

namespace Alphabet

instance : Inhabited Alphabet := ⟨⟨#[]⟩⟩

/-- The points at which some interval begins, or just ends. -/
def cutPoints (ranges : List Interval) : List Nat :=
  Ascending.ofList ((ranges.filter fun r => ¬ r.Inverted).flatMap fun r => [r.min, r.max + 1])

/-- The pieces between neighbouring cut points. -/
def pieces : List Nat → List Interval
  | a :: b :: rest => ⟨a, b - 1⟩ :: pieces (b :: rest)
  | _ => []

/-- The alphabet of the points covered by the given intervals. -/
def ofRanges (ranges : List Interval) : Alphabet :=
  ⟨((pieces (cutPoints ranges)).filter fun s => ranges.any fun r => s.min ∈ r).toArray⟩

def size (a : Alphabet) : Nat := a.cells.size

def symbolOf? (a : Alphabet) (c : Nat) : Option Nat :=
  let i := Bisection.partitionPoint (fun r => r.max < c) a.cells
  match a.cells[i]? with
  | some r => if c ∈ r then some i else none
  | none => none

/-- The first symbol of the run that lies inside `r`, and the one behind its last. -/
def span (a : Alphabet) (r : Interval) : Nat × Nat :=
  if r.Inverted then (0, 0)
  else
    let first := Bisection.partitionPoint (fun s => s.min < r.min) a.cells
    (first, max (Bisection.partitionPoint (fun s => s.max ≤ r.max) a.cells) first)

def expand (a : Alphabet) (r : Interval) : List Nat :=
  let (first, last) := a.span r
  List.range' first (last - first)

/-- The intervals that were cut into more than one symbol, with their runs. -/
def splits (ranges : List Interval) : List (Interval × Nat × Nat) :=
  let a := ofRanges ranges
  ((Ascending.ofList (ranges.filter fun r => ¬ r.Inverted)).map fun r => (r, a.span r)).filter
    fun (_, first, last) => 1 < last - first

end Alphabet

end SyntaxTables
