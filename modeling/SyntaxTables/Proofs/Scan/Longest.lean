import Mathlib.Data.List.Forall2
import Mathlib.Tactic.Common
import SyntaxTables.Scan

/-!
# Longest matches and the places of errors

A scanner runs on while there are steps and remembers the last token that it came by. A missing step
loses nothing, for no longer beginning of the text is a token then. Lengths add up the bytes of the
characters read, so a match ends between two characters, and so does what a report shows of the
surroundings of an error.
-/

namespace SyntaxTables

def byteLength : List Char → Nat
  | [] => 0
  | c :: cs => c.utf8Size + byteLength cs

@[simp] theorem byteLength_nil : byteLength [] = 0 := rfl

@[simp] theorem byteLength_cons (c : Char) (text : List Char) :
    byteLength (c :: text) = c.utf8Size + byteLength text := rfl

@[simp] theorem byteLength_append (text text' : List Char) :
    byteLength (text ++ text') = byteLength text + byteLength text' := by
  induction text with
  | nil => simp
  | cons c cs ih => simp [ih, Nat.add_assoc]

theorem byteLength_pos {text : List Char} (h : text ≠ []) : 0 < byteLength text := by
  obtain ⟨c, cs, rfl⟩ := List.exists_cons_of_ne_nil h
  have hc := c.utf8Size_pos
  rw [byteLength_cons]
  omega

namespace Automaton

/-- No text makes the automaton fail from a state on. -/
def Answers (a : Automaton) (s : Nat) : Prop := ∀ text, ∃ k, a.tokenFrom s text = .ok k

/-- A piece is the longest non-empty beginning of a text that is a token from a state on. -/
structure Longest (a : Automaton) (s : Nat) (piece rest : List Char) (token : Nat) : Prop where
  nonempty : piece ≠ []
  token : a.tokenFrom s piece = .ok (some token)
  longest : ∀ p, p <+: piece ++ rest → p ≠ [] → a.tokenFrom s p ≠ .ok none → p <+: piece

/-- No non-empty beginning of a text is a token from a state on. -/
def Barren (a : Automaton) (s : Nat) (text : List Char) : Prop :=
  ∀ p, p <+: text → p ≠ [] → a.tokenFrom s p = .ok none

variable {a : Automaton} {s t : Nat} {c : Char}

theorem Answers.step (h : a.Answers s) (c : Char) :
    (a.step s c = .ok none ∧ ∀ p, a.tokenFrom s (c :: p) = .ok none) ∨
      ∃ t, a.step s c = .ok (some t) ∧ a.Answers t ∧
        ∀ p, a.tokenFrom s (c :: p) = a.tokenFrom t p := by
  cases hstep : a.step s c with
  | error f =>
    obtain ⟨k, hk⟩ := h [c]
    simp [tokenFrom, hstep, bind, Except.bind] at hk
  | ok o =>
    cases o with
    | none =>
      refine Or.inl ⟨rfl, fun p => ?_⟩
      simp [tokenFrom, hstep, bind, Except.bind, pure, Except.pure]
    | some t =>
      have heq : ∀ p, a.tokenFrom s (c :: p) = a.tokenFrom t p :=
        fun p => by simp [tokenFrom, hstep, bind, Except.bind]
      exact Or.inr ⟨t, rfl, fun p => heq p ▸ h (c :: p), heq⟩

section Step

variable (hread : ∀ p, a.tokenFrom s (c :: p) = a.tokenFrom t p)

include hread

theorem Longest.cons {piece rest : List Char} {token : Nat} (h : a.Longest t piece rest token) :
    a.Longest s (c :: piece) rest token where
  nonempty := List.cons_ne_nil c piece
  token := (hread piece).trans h.token
  longest := by
    intro p hp hne htoken
    obtain rfl | ⟨p, rfl, hrest⟩ := List.prefix_cons_iff.1 hp
    · exact absurd rfl hne
    · rw [hread] at htoken
      by_cases hempty : p = []
      · simp [hempty]
      · exact (List.prefix_cons_inj c).2 (h.longest p hrest hempty htoken)

theorem Barren.longest {rest : List Char} {token : Nat} (h : a.Barren t rest)
    (htoken : a.token t = .ok (some token)) : a.Longest s [c] rest token where
  nonempty := List.cons_ne_nil c []
  token := (hread []).trans htoken
  longest := by
    intro p hp hne htoken
    obtain rfl | ⟨p, rfl, hrest⟩ := List.prefix_cons_iff.1 hp
    · exact absurd rfl hne
    · rw [hread] at htoken
      obtain rfl : p = [] := by
        by_contra hempty
        exact htoken (h p hrest hempty)
      exact List.prefix_rfl

theorem Barren.cons {rest : List Char} (h : a.Barren t rest) (htoken : a.token t = .ok none) :
    a.Barren s (c :: rest) := by
  intro p hp hne
  obtain rfl | ⟨p, rfl, hrest⟩ := List.prefix_cons_iff.1 hp
  · exact absurd rfl hne
  · rw [hread]
    by_cases hempty : p = []
    · rw [hempty]
      exact htoken
    · exact h p hrest hempty

end Step

/-- Running on finds the longest token, or keeps the best one that there was. -/
theorem longestFrom_cases (h : a.Answers s) (length : Nat) (best : Option Match)
    (text : List Char) :
    (∃ piece rest token, text = piece ++ rest ∧ a.Longest s piece rest token ∧
      a.longestFrom s length best text = .ok (some ⟨token, length + byteLength piece, rest⟩)) ∨
    a.Barren s text ∧ a.longestFrom s length best text = .ok best := by
  induction text generalizing s length best with
  | nil => exact Or.inr ⟨fun p hp hne => absurd (List.prefix_nil.1 hp) hne, rfl⟩
  | cons c cs ih =>
    rcases h.step c with ⟨hstep, hnone⟩ | ⟨t, hstep, ht, hread⟩
    · refine Or.inr ⟨fun p hp hne => ?_, ?_⟩
      · obtain rfl | ⟨p, rfl, -⟩ := List.prefix_cons_iff.1 hp
        · exact absurd rfl hne
        · exact hnone p
      · simp [longestFrom, hstep, bind, Except.bind, pure, Except.pure]
    · obtain ⟨k, hk⟩ := ht []
      have htoken : a.token t = .ok k := hk
      have hfound : ∀ best', a.longestFrom s length best (c :: cs) =
          a.longestFrom t (length + c.utf8Size) best' cs →
          (∃ piece rest token, c :: cs = piece ++ rest ∧ a.Longest s piece rest token ∧
            a.longestFrom s length best (c :: cs) =
              .ok (some ⟨token, length + byteLength piece, rest⟩)) ∨
          a.Barren t cs ∧ a.longestFrom s length best (c :: cs) = .ok best' := by
        intro best' hrun
        rcases ih ht (length + c.utf8Size) best' with
          ⟨piece, rest, token, rfl, hlongest, heq⟩ | ⟨hbarren, heq⟩
        · refine Or.inl ⟨c :: piece, rest, token, rfl, hlongest.cons hread, ?_⟩
          rw [hrun, heq, byteLength_cons, Nat.add_assoc]
        · exact Or.inr ⟨hbarren, hrun.trans heq⟩
      cases k with
      | none =>
        rcases hfound best (by simp [longestFrom, hstep, htoken, bind, Except.bind]) with
          hlonger | ⟨hbarren, heq⟩
        · exact Or.inl hlonger
        · exact Or.inr ⟨hbarren.cons hread htoken, heq⟩
      | some token =>
        rcases hfound (some ⟨token, length + c.utf8Size, cs⟩)
          (by simp [longestFrom, hstep, htoken, bind, Except.bind]) with hlonger | ⟨hbarren, heq⟩
        · exact Or.inl hlonger
        · refine Or.inl ⟨[c], cs, token, rfl, hbarren.longest hread htoken, ?_⟩
          rw [heq, byteLength_cons, byteLength_nil, Nat.add_zero]

end Automaton

/-! ### Reports -/

section Surroundings

variable {position offset : Nat}

theorem surroundings_cons {c : Char} {cs : List Char}
    (h : position - contextReach < offset + c.utf8Size)
    (h' : offset < position + contextReach) : surroundings position offset (c :: cs) =
      (offset, c) :: surroundings position (offset + c.utf8Size) cs := by
  simp [surroundings, Nat.not_le.2 h, h']

/-- Once a character is shown, all are shown up to the end of the surroundings. -/
theorem surroundings_prefix {cs : List Char} (h : position - contextReach ≤ offset) :
    (surroundings position offset cs).map Prod.snd <+: cs := by
  induction cs generalizing offset with
  | nil => exact List.prefix_rfl
  | cons c cs ih =>
    have hc := c.utf8Size_pos
    by_cases h' : offset < position + contextReach
    · rw [surroundings_cons (by omega) h', List.map_cons]
      exact (List.prefix_cons_inj c).2 (ih (by omega))
    · have hshown : position - contextReach < offset + c.utf8Size := by omega
      simp [surroundings, Nat.not_le.2 hshown, h']

theorem surroundings_append (front : List Char) (c : Char) (cs : List Char)
    (h : position - contextReach ≤ offset) (hposition : position = offset + byteLength front) :
    ∃ back, (surroundings position offset (front ++ c :: cs)).map Prod.snd = front ++ c :: back ∧
      back <+: cs := by
  have hreach : 0 < contextReach := by decide
  induction front generalizing offset with
  | nil =>
    have hc := c.utf8Size_pos
    rw [List.nil_append, surroundings_cons (by omega) (by simp at hposition; omega)]
    exact ⟨_, rfl, surroundings_prefix (by omega)⟩
  | cons d front ih =>
    have hd := d.utf8Size_pos
    rw [byteLength_cons] at hposition
    obtain ⟨back, heq, hback⟩ := @ih (offset + d.utf8Size) (by omega) (by omega)
    rw [List.cons_append, surroundings_cons (by omega) (by omega), List.map_cons, heq]
    exact ⟨back, rfl, hback⟩

/-- The surroundings of a character are the character and some of those before it and behind. -/
theorem exists_surroundings (front : List Char) (c : Char) (cs : List Char)
    (hposition : position = offset + byteLength front) :
    ∃ l m back, front = l ++ m ∧ back <+: cs ∧
      (surroundings position offset (front ++ c :: cs)).map Prod.snd = m ++ c :: back ∧
      (surroundings position offset (front ++ c :: cs)).head?.map Prod.fst =
        some (offset + byteLength l) := by
  have hreach : 0 < contextReach := by decide
  induction front generalizing offset with
  | nil =>
    have hc := c.utf8Size_pos
    rw [List.nil_append, surroundings_cons (by simp at hposition; omega)
      (by simp at hposition; omega)]
    exact ⟨[], [], _, rfl, surroundings_prefix (by simp at hposition; omega), rfl, rfl⟩
  | cons d front ih =>
    rw [byteLength_cons] at hposition
    by_cases hshown : position - contextReach < offset + d.utf8Size
    · obtain ⟨back, heq, hback⟩ := surroundings_append front c cs (Nat.le_of_lt hshown)
        (by omega : position = offset + d.utf8Size + byteLength front)
      have hd := d.utf8Size_pos
      rw [List.cons_append, surroundings_cons hshown (by omega)]
      exact ⟨[], d :: front, back, rfl, hback, by simp [heq], by simp⟩
    · obtain ⟨l, m, back, rfl, hback, heq, hhead⟩ := @ih (offset + d.utf8Size) (by omega)
      refine ⟨d :: l, m, back, rfl, hback, ?_, ?_⟩
      · simpa [surroundings, Nat.not_lt.1 hshown] using heq
      · simpa [surroundings, Nat.not_lt.1 hshown, Nat.add_assoc] using hhead

end Surroundings

/-- A report tells of the place between two parts of a text, and of the character behind it. It
shows whole characters around this place, some of them replaced. -/
structure NoMatch.Locates (e : NoMatch) (front : List Char) (c : Char) (rest : List Char) :
    Prop where
  position : e.position = byteLength front
  character : e.character = c
  message : ∃ more, e.message =
    s!"no token matches at byte {byteLength front} (char {quoteChar c}); " ++ more
  context : ∃ l m back, front = l ++ m ∧ back <+: rest ∧ e.contextStart = byteLength l ∧
    List.Forall₂ (fun c c' => c' = c ∨ c' = contextPlaceholder) (m ++ c :: back) e.context

theorem NoMatch.locates_at (front : List Char) (c : Char) (rest : List Char) :
    (NoMatch.at (front ++ c :: rest) (byteLength front) c).Locates front c rest where
  position := rfl
  character := rfl
  message := ⟨_, rfl⟩
  context := by
    obtain ⟨l, m, back, hfront, hback, hshown, hhead⟩ :=
      exists_surroundings front c rest (Nat.zero_add (byteLength front)).symm
    refine ⟨l, m, back, hfront, hback, ?_, ?_⟩
    · simp [NoMatch.at, hhead]
    · rw [← hshown, NoMatch.at, List.forall₂_map_left_iff, List.forall₂_map_right_iff,
        List.forall₂_same]
      rintro ⟨-, d⟩ -
      dsimp only
      split_ifs
      · exact Or.inl rfl
      · exact Or.inr rfl

end SyntaxTables
