import SyntaxTables.Interval

/-!
# Drawing from a pool

How a place in a pool is drawn stays open; a text is drawn one place after another.

One way to draw turns random words of 32 bits into places, by taking the upper half of the product
with the size of the pool. Where the lower half shows that the result is too coarse, a second word
decides about the carry.
-/

namespace SyntaxTables.Sampling

/-- Draws a place in a pool of the given size. -/
abbrev Draw (σ : Type) := Nat → σ → Nat × σ

section

variable {σ : Type} (draw : Draw σ)

/-- Draws so many characters more; those drawn before come with the latest first. -/
def textOnto (pool : Array Char) : Nat → List Char → σ → List Char × σ
  | 0, drawn, s => (drawn.reverse, s)
  | length + 1, drawn, s =>
    let (i, s) := draw pool.size s
    textOnto pool length (pool.getD i ' ' :: drawn) s

def text (pool : Array Char) (length : Nat) (s : σ) : List Char × σ :=
  textOnto draw pool length [] s

end

/-! ### Places from words -/

/-- A source of random words. -/
structure Source (σ : Type) where
  next : σ → Nat × σ

/-- Replays words, and then zeros. -/
def replay : Source (List Nat) where
  next
    | [] => (0, [])
    | w :: ws => (w, ws)

/-- A linear congruential generator on 64 bits, which gives out the upper half of its state. -/
def congruential : Source UInt64 where
  next s :=
    let s := 6364136223846793005 * s + 1442695040888963407
    ((s >>> 32).toNat, s)

def Source.draw {σ : Type} (source : Source σ) : Draw σ := fun n s =>
  let (w, s) := source.next s
  let upper := w * n / wordLimit
  let lower := w * n % wordLimit
  if 1 < n ∧ wordLimit - n < lower then
    let (v, s) := source.next s
    (if wordLimit ≤ lower + v * n / wordLimit then upper + 1 else upper, s)
  else (upper, s)

end SyntaxTables.Sampling
