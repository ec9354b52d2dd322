/-!
# Bisection

The place where a predicate stops to hold along an array, found by halving. On an array where the
predicate holds on an initial part and nowhere else this is the length of that part. On any other
array the halving still decides the answer, and a loaded table may hold such an array.
-/

namespace SyntaxTables

namespace Bisection

variable {α : Type}

/-- Does the predicate hold at this place? Beyond the end it does not. -/
def holdsAt (p : α → Bool) (xs : Array α) (i : Nat) : Bool := xs[i]?.any p

/-- Halves the part of `size` places that begins at `base` until at most one is left. -/
def narrow (p : α → Bool) (xs : Array α) : Nat → Nat → Nat → Nat
  | 0, base, _ => base
  | steps + 1, base, size =>
    if size ≤ 1 then base
    else
      let half := size / 2
      narrow p xs steps (if holdsAt p xs (base + half) then base + half else base) (size - half)

/-- The number of leading places where the predicate holds, by halving. -/
def partitionPoint (p : α → Bool) (xs : Array α) : Nat :=
  let base := narrow p xs xs.size 0 xs.size
  if holdsAt p xs base then base + 1 else base

end Bisection

end SyntaxTables
