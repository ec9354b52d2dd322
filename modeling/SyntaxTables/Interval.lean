/-!
# Closed intervals of code points

A character class is a list of closed intervals. A list may be unordered and overlapping, and an
interval with `max < min` holds no point. The complement is taken by cutting the given intervals out
of the whole code space one after another, so it does not depend on the order in which they are
given.
-/

namespace SyntaxTables

/-- The number of 32-bit words, as which code points and the numbers in tables are stored. -/
def wordLimit : Nat := 0x100000000

/-- The number of 64-bit sizes in memory. -/
def sizeLimit : Nat := 0x10000000000000000

def maxCodePoint : Nat := 0x10FFFF

/-- The points `min, …, max`; there are none when `max < min`. -/
structure Interval where
  min : Nat
  max : Nat
deriving DecidableEq, Repr

namespace Interval

def Mem (r : Interval) (c : Nat) : Prop := r.min ≤ c ∧ c ≤ r.max

instance : Membership Nat Interval := ⟨Mem⟩

theorem mem_iff {r : Interval} {c : Nat} : c ∈ r ↔ r.min ≤ c ∧ c ≤ r.max := Iff.rfl

instance (c : Nat) (r : Interval) : Decidable (c ∈ r) :=
  inferInstanceAs (Decidable (r.min ≤ c ∧ c ≤ r.max))

/-- An inverted interval has its bounds in the wrong order and holds no point. -/
def Inverted (r : Interval) : Prop := r.max < r.min

instance (r : Interval) : Decidable r.Inverted := inferInstanceAs (Decidable (r.max < r.min))

def ofChar (c : Char) : Interval := ⟨c.toNat, c.toNat⟩

theorem mem_ofChar {c d : Char} : d.toNat ∈ ofChar c ↔ d.toNat = c.toNat := by
  simp only [mem_iff, ofChar]
  omega

def ofChars (lo hi : Char) : Interval := ⟨lo.toNat, hi.toNat⟩

/-- The at most two intervals left of `s` when the points of `r` are cut out. -/
def cut (r s : Interval) : List Interval :=
  if r.max < r.min ∨ s.max < r.min ∨ r.max < s.min then [s]
  else
    (if s.min < r.min then [⟨s.min, r.min - 1⟩] else []) ++
      (if r.max < s.max then [⟨r.max + 1, s.max⟩] else [])

theorem exists_mem_cut_iff {r s : Interval} {c : Nat} :
    (∃ t ∈ cut r s, c ∈ t) ↔ c ∈ s ∧ c ∉ r := by
  unfold cut
  split
  · simp only [List.mem_singleton, exists_eq_left, mem_iff]
    omega
  · simp only [List.mem_append, or_and_right, exists_or, mem_iff]
    split <;> split <;> simp <;> omega

end Interval

/-- The maximal intervals of code points that lie in none of the given intervals, in order. -/
def complement (ranges : List Interval) : List Interval :=
  ranges.foldl (fun left r => left.flatMap r.cut) [⟨0, maxCodePoint⟩]

end SyntaxTables
