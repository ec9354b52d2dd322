import SyntaxTables.Nfa.Thompson
import SyntaxTables.Proofs.Alphabet
import SyntaxTables.Proofs.Nfa.Path

/-!
# Blocks of an arena

An arena only grows by states that have edges among themselves, so whatever a block spells it goes
on to spell. Each way to put blocks together is one statement about the arena before and after.
-/

namespace SyntaxTables

def Alphabet.Reads (alphabet : Alphabet) (c x : Nat) : Prop := alphabet.symbolOf? c = some x

namespace Nfa

variable {alphabet : Alphabet} {a b c : Nfa}

/-- The states from a place on, which were added to an arena of this size. -/
def Since (a : Nfa) (low s : Nat) : Prop := low ≤ s ∧ s < a.size

/-- The first arena with states added. Edges between old and new states there are none, and the new
ones have no labels. -/
structure Grown (alphabet : Alphabet) (a b : Nfa) : Prop where
  start : b.start = a.start
  size_le : a.size ≤ b.size
  old : ∀ s < a.size, b.state s = a.state s
  inside : b.Closed (b.Since a.size)
  symbols : ∀ s, a.size ≤ s → ∀ e ∈ (b.state s).edges, e.1 < alphabet.size
  unlabelled : ∀ s, a.size ≤ s → (b.state s).label = none

theorem Grown.refl (a : Nfa) : Grown alphabet a a where
  start := rfl
  size_le := Nat.le_refl _
  old := fun _ _ => rfl
  inside := fun s hs => absurd hs.2 (Nat.not_lt.2 hs.1)
  symbols := by
    intro s hs e he
    rw [state_of_size_le hs] at he
    simp at he
  unlabelled := by
    intro s hs
    rw [state_of_size_le hs]

theorem Grown.trans (h : Grown alphabet a b) (h' : Grown alphabet b c) : Grown alphabet a c where
  start := h'.start.trans h.start
  size_le := Nat.le_trans h.size_le h'.size_le
  old := fun s hs => (h'.old s (Nat.lt_of_lt_of_le hs h.size_le)).trans (h.old s hs)
  inside := by
    rintro s ⟨hlow, hlt⟩ t ht
    by_cases hs : s < b.size
    · rw [successors, h'.old s hs] at ht
      obtain ⟨hlow, hlt⟩ := h.inside s ⟨hlow, hs⟩ t ht
      exact ⟨hlow, Nat.lt_of_lt_of_le hlt h'.size_le⟩
    · obtain ⟨hlow, hlt⟩ := h'.inside s ⟨Nat.not_lt.1 hs, hlt⟩ t ht
      exact ⟨Nat.le_trans h.size_le hlow, hlt⟩
  symbols := by
    intro s hs
    by_cases hb : s < b.size
    · rw [h'.old s hb]
      exact h.symbols s hs
    · exact h'.symbols s (Nat.not_lt.1 hb)
  unlabelled := by
    intro s hs
    by_cases hb : s < b.size
    · rw [h'.old s hb]
      exact h.unlabelled s hs
    · exact h'.unlabelled s (Nat.not_lt.1 hb)

theorem Grown.addState (h : Grown alphabet a b) : Grown alphabet a b.addState where
  start := h.start
  size_le := by
    have := h.size_le
    rw [size_addState]
    omega
  old := fun s hs => (state_addState b s).trans (h.old s hs)
  inside := by
    rintro s ⟨hlow, -⟩ t ht
    rw [successors, state_addState] at ht
    by_cases hs : s < b.size
    · obtain ⟨hlow, hlt⟩ := h.inside s ⟨hlow, hs⟩ t ht
      exact ⟨hlow, by rw [size_addState]; omega⟩
    · simp [state_of_size_le (Nat.not_lt.1 hs)] at ht
  symbols := by
    intro s hs
    rw [state_addState]
    exact h.symbols s hs
  unlabelled := by
    intro s hs
    rw [state_addState]
    exact h.unlabelled s hs

/-- One of the new states may be changed, as long as it leads to new states and has no label. -/
theorem Grown.change (h : Grown alphabet a b) {u : Nat} (hu : a.size ≤ u)
    (hstart : c.start = b.start) (hsize : c.size = b.size)
    (hsame : ∀ s, s ≠ u → c.state s = b.state s)
    (htargets : ∀ t ∈ c.successors u, b.Since a.size t)
    (hsymbols : ∀ e ∈ (c.state u).edges, e.1 < alphabet.size)
    (hlabel : (c.state u).label = none) : Grown alphabet a c where
  start := hstart.trans h.start
  size_le := hsize ▸ h.size_le
  old := by
    intro s hs
    rw [hsame s (Nat.ne_of_lt (Nat.lt_of_lt_of_le hs hu)), h.old s hs]
  inside := by
    intro s hs t ht
    rw [Since, hsize] at hs ⊢
    by_cases he : s = u
    · subst he
      exact htargets t ht
    · rw [successors, hsame s he] at ht
      exact h.inside s hs t ht
  symbols := by
    intro s hs
    by_cases he : s = u
    · rwa [he]
    · rw [hsame s he]
      exact h.symbols s hs
  unlabelled := by
    intro s hs
    by_cases he : s = u
    · rwa [he]
    · rw [hsame s he]
      exact h.unlabelled s hs

theorem Grown.addSilent (h : Grown alphabet a b) {u v : Nat} (hu : b.Since a.size u)
    (hv : b.Since a.size v) : Grown alphabet a (b.addSilent u v) := by
  have hstate := state_addSilent hu.2 v
  refine h.change hu.1 rfl (size_addSilent b u v) ?_ ?_ ?_ ?_
  · intro s hs
    rw [hstate, if_neg hs]
  · intro t ht
    rw [mem_successors, hstate, if_pos rfl, List.mem_append, ← or_assoc, ← mem_successors] at ht
    rcases ht with ht | ht
    · exact h.inside u hu t ht
    · rwa [List.mem_singleton.1 ht]
  · rw [hstate, if_pos rfl]
    exact h.symbols u hu.1
  · rw [hstate, if_pos rfl]
    exact h.unlabelled u hu.1

theorem Grown.addEdge (h : Grown alphabet a b) {u x v : Nat} (hu : b.Since a.size u)
    (hx : x < alphabet.size) (hv : b.Since a.size v) : Grown alphabet a (b.addEdge u x v) := by
  have hstate := state_addEdge hu.2 x v
  refine h.change hu.1 rfl (size_addEdge b u x v) ?_ ?_ ?_ ?_
  · intro s hs
    rw [hstate, if_neg hs]
  · intro t ht
    have hmem : t ∈ b.successors u ∨ t = v := by
      rw [successors, hstate, if_pos rfl] at ht
      simp only [List.map_append, List.mem_append, List.map_cons, List.map_nil,
        List.mem_singleton] at ht
      rw [successors, List.mem_append]
      tauto
    rcases hmem with hmem | rfl
    · exact h.inside u hu t hmem
    · exact hv
  · rw [hstate, if_pos rfl]
    intro e he
    rcases List.mem_append.1 he with he | he
    · exact h.symbols u hu.1 e he
    · rwa [List.mem_singleton.1 he]
  · rw [hstate, if_pos rfl]
    exact h.unlabelled u hu.1

/-! ### Several silent edges -/

def addSilents (a : Nfa) (es : List (Nat × Nat)) : Nfa :=
  es.foldl (fun a e => a.addSilent e.1 e.2) a

@[simp] theorem size_addSilents (a : Nfa) (es : List (Nat × Nat)) :
    (a.addSilents es).size = a.size := by
  induction es generalizing a with
  | nil => rfl
  | cons e es ih =>
    rw [addSilents, List.foldl_cons]
    exact (ih _).trans (size_addSilent a e.1 e.2)

theorem state_addSilents {es : List (Nat × Nat)} (h : ∀ e ∈ es, e.1 < a.size) (s : Nat) :
    (a.addSilents es).state s =
      { a.state s with
        silent := (a.state s).silent ++ (es.filter fun e => e.1 = s).map Prod.snd } := by
  induction es generalizing a with
  | nil => simp [addSilents]
  | cons e es ih =>
    obtain ⟨he, hes⟩ := List.forall_mem_cons.1 h
    have hrest : ∀ e' ∈ es, e'.1 < (a.addSilent e.1 e.2).size := by simpa using hes
    rw [addSilents, List.foldl_cons]
    apply (ih hrest).trans
    rw [state_addSilent he]
    by_cases hs : s = e.1
    · subst hs
      simp
    · simp [hs, Ne.symm hs]

theorem Grown.addSilents (h : Grown alphabet a b) {es : List (Nat × Nat)}
    (hes : ∀ e ∈ es, b.Since a.size e.1 ∧ b.Since a.size e.2) :
    Grown alphabet a (b.addSilents es) := by
  induction es generalizing b with
  | nil => exact h
  | cons e es ih =>
    obtain ⟨he, hes⟩ := List.forall_mem_cons.1 hes
    apply ih (h.addSilent he.1 he.2)
    intro e' he'
    simpa [Since] using hes e' he'

/-! ### Blocks -/

/-- A block in the part of the arena from a place on, and what is read on paths through it. -/
structure Spells (alphabet : Alphabet) (a : Nfa) (low : Nat) (x : Block)
    (language : List Nat → Prop) : Prop where
  entry : a.Since low x.entry
  exit : a.Since low x.exit
  path : ∀ w, a.Path alphabet.Reads x.entry w x.exit ↔ language w

theorem Spells.congr {low : Nat} {x : Block} {L M : List Nat → Prop}
    (h : Spells alphabet a low x L) (hLM : ∀ w, L w ↔ M w) : Spells alphabet a low x M :=
  ⟨h.entry, h.exit, fun w => (h.path w).trans (hLM w)⟩

theorem Spells.lower {low low' : Nat} {x : Block} {L : List Nat → Prop}
    (h : Spells alphabet b low x L) (hle : low' ≤ low) : Spells alphabet b low' x L :=
  ⟨⟨Nat.le_trans hle h.entry.1, h.entry.2⟩, ⟨Nat.le_trans hle h.exit.1, h.exit.2⟩, h.path⟩

end Nfa

end SyntaxTables
