import SyntaxTables.Proofs.Nfa.Path

/-!
# Words of symbols along a path

What a path reads depends on the symbols of its edges only through the words that they spell: it
reads a string if the symbols of the letters, one by one, are such a word.
-/

namespace SyntaxTables.Nfa

variable {α : Type} {a : Nfa} {reads : α → Nat → Prop} {s t : Nat} {w : List α}

/-- A path whose edges carry the symbols of a word, with silent edges anywhere. -/
abbrev WordPath (a : Nfa) : Nat → List Nat → Nat → Prop := a.Path Eq

theorem Path.of_forall₂ {word : List Nat} (h : a.WordPath s word t)
    (hw : List.Forall₂ reads w word) : a.Path reads s w t := by
  induction h generalizing w with
  | nil s =>
    cases hw
    exact .nil s
  | silent hs _ ih => exact .silent hs (ih hw)
  | edge he hread _ ih =>
    cases hw with
    | cons hc hw => exact .edge he (hread ▸ hc) (ih hw)

/-- A string is read along a path if its letters are read on the symbols of a word on the path. -/
theorem path_iff_wordPath :
    a.Path reads s w t ↔ ∃ word, List.Forall₂ reads w word ∧ a.WordPath s word t := by
  constructor
  · intro h
    induction h with
    | nil s => exact ⟨[], .nil, .nil s⟩
    | silent hs _ ih =>
      obtain ⟨word, hw, hp⟩ := ih
      exact ⟨word, hw, .silent hs hp⟩
    | @edge _ _ _ x _ _ he hread _ ih =>
      obtain ⟨word, hw, hp⟩ := ih
      exact ⟨x :: word, .cons hread hw, .edge he rfl hp⟩
  · rintro ⟨word, hw, hp⟩
    exact hp.of_forall₂ hw

end SyntaxTables.Nfa
