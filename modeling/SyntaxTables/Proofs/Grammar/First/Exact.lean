import SyntaxTables.Proofs.Grammar.First

/-!
# First sets are exact

A sequence of symbols is rewritten by well-formed productions, at any place and in any order. Each
terminal that a first set tells of begins some form that can be derived, because a pass only tells
of what the first symbols of a body were known to derive. In the other direction one goes back along
a derivation: the sets are closed under the productions, so a form begins as the next one does.
-/

namespace SyntaxTables.Grammar

open FirstSets

variable {g : Grammar} {sets : FirstSets} {γ δ ε : List Symbol} {o : Option Nat}

/-- A well-formed production replaces one non-terminal. -/
inductive RewriteStep (g : Grammar) : List Symbol → List Symbol → Prop
  | mk {i : Nat} {p : Production} (hp : g.Usable i p) (front back : List Symbol) :
    RewriteStep g (front ++ .nonterminal p.lhs :: back) (front ++ (p.rhs ++ back))

/-- A form derived from another one, in steps at any places. -/
def Rewrites (g : Grammar) : List Symbol → List Symbol → Prop :=
  Relation.ReflTransGen g.RewriteStep

theorem Rewrites.append (h : g.Rewrites γ δ) (ε : List Symbol) :
    g.Rewrites (γ ++ ε) (δ ++ ε) := by
  induction h with
  | refl => exact .refl
  | tail _ hstep ih =>
    obtain ⟨hp, front, back⟩ := hstep
    have hnext := RewriteStep.mk hp front (back ++ ε)
    refine ih.tail ?_
    simpa only [List.append_assoc, List.cons_append] using hnext

theorem rewrites_body {i : Nat} {p : Production} (hp : g.Usable i p) :
    g.Rewrites [.nonterminal p.lhs] p.rhs := by
  have hstep := RewriteStep.mk hp [] []
  simp only [List.nil_append, List.append_nil] at hstep
  exact .single hstep

/-! ### What is told of is derived -/

/-- Some form derived from a sequence begins with the terminal; where there is none, the empty form
is derived. -/
def ComesFirst (g : Grammar) (γ : List Symbol) : Option Nat → Prop
  | some t => ∃ β, g.Rewrites γ (.terminal t :: β)
  | none => g.Rewrites γ []

theorem ComesFirst.of_rewrites (h : g.Rewrites γ δ) (hδ : g.ComesFirst δ o) :
    g.ComesFirst γ o := by
  cases o with
  | none => exact h.trans hδ
  | some t =>
    obtain ⟨β, hβ⟩ := hδ
    exact ⟨β, h.trans hβ⟩

theorem ComesFirst.append (h : g.ComesFirst γ o) (ho : o ≠ none) (δ : List Symbol) :
    g.ComesFirst (γ ++ δ) o := by
  obtain ⟨t, rfl⟩ := Option.ne_none_iff_exists'.1 ho
  obtain ⟨β, hβ⟩ := h
  exact ⟨β ++ δ, hβ.append δ⟩

/-- Whatever the sets tell of comes first. -/
def Derivable (g : Grammar) (sets : FirstSets) : Prop :=
  ∀ n o, (sets.ofNonterminal n).Has o → g.ComesFirst [.nonterminal n] o

theorem Derivable.ofSequence (h : g.Derivable sets) (ho : (sets.ofSequence γ).Has o) :
    g.ComesFirst γ o := by
  induction γ with
  | nil =>
    obtain rfl : o = none := by simpa using ho
    exact .refl
  | cons s γ ih =>
    cases s with
    | terminal a =>
      obtain rfl : o = some a := by simpa using ho
      exact ⟨γ, .refl⟩
    | nonterminal n =>
      rcases has_ofSequence_nonterminal.1 ho with ⟨hfirst, hne⟩ | ⟨hnull, hrest⟩
      · exact (h n o hfirst).append hne γ
      · have hvanishes : g.Rewrites [.nonterminal n] [] := h n none hnull
        exact .of_rewrites (hvanishes.append γ) (ih hrest)

theorem Derivable.addFirst (h : g.Derivable sets) {i : Nat} {p : Production} (hp : g.Usable i p) :
    g.Derivable (addFirst sets p) := by
  intro n o ho
  rcases has_addFirst.1 ho with ho | ⟨rfl, -, ho⟩
  · exact h n o ho
  · exact .of_rewrites (rewrites_body hp) (h.ofSequence ho)

theorem derivable_firstSets (g : Grammar) : g.Derivable g.firstSets := by
  apply firstSets_induction
  · intro n o ho
    rw [ofNonterminal_replicate] at ho
    cases o <;> simp [FirstSet.Has] at ho
  · exact fun hp h => h.addFirst hp

/-! ### What is derived is told of -/

theorem RewriteStep.has_first (h : g.RewriteStep γ δ) (ho : (g.firstSets.ofSequence δ).Has o) :
    (g.firstSets.ofSequence γ).Has o := by
  obtain ⟨hp, front, back⟩ := h
  simp only [has_ofSequence_append, has_ofSequence_nonterminal] at ho ⊢
  rcases ho with hfront | ⟨hfront, ⟨hbody, hne⟩ | ⟨hbody, hback⟩⟩
  · exact Or.inl hfront
  · exact Or.inr ⟨hfront, Or.inl ⟨has_firstSets hp hbody, hne⟩⟩
  · exact Or.inr ⟨hfront, Or.inr ⟨has_firstSets hp hbody, hback⟩⟩

theorem Rewrites.has_first (h : g.Rewrites γ δ) (ho : (g.firstSets.ofSequence δ).Has o) :
    (g.firstSets.ofSequence γ).Has o := by
  induction h using Relation.ReflTransGen.head_induction_on with
  | refl => exact ho
  | head hstep _ ih => exact hstep.has_first ih

/-- A first set tells of what comes first, and of nothing else. -/
theorem has_ofSequence_firstSets :
    (g.firstSets.ofSequence γ).Has o ↔ g.ComesFirst γ o := by
  constructor
  · exact (derivable_firstSets g).ofSequence
  · intro h
    cases o with
    | none => exact h.has_first (by simp)
    | some t =>
      obtain ⟨β, hβ⟩ := h
      exact hβ.has_first (by simp)

theorem has_ofNonterminal_firstSets {n : Nat} :
    (g.firstSets.ofNonterminal n).Has o ↔ g.ComesFirst [.nonterminal n] o := by
  rw [← has_ofSequence_firstSets, has_ofSequence_nonterminal, has_ofSequence_nil]
  cases o <;> simp

/-! ### The sets that are computed -/

def firstPass (g : Grammar) (sets : FirstSets) : FirstSets :=
  (g.productions.filter fun p => g.WellFormed p).foldl addFirst sets

/-- With a set for each non-terminal, those that decide the first set of declared symbols are all
there. -/
theorem determines_of_size {sets : FirstSets} (hsize : sets.size = g.nonterminals.length)
    (hγ : ∀ s ∈ γ, g.Declares s) : sets.Determines γ := by
  induction γ with
  | nil => trivial
  | cons s γ ih =>
    obtain ⟨hs, hrest⟩ := List.forall_mem_cons.1 hγ
    cases s with
    | terminal a => trivial
    | nonterminal n =>
      rw [Determines, hsize]
      exact ⟨hs, fun _ => ih hrest⟩

theorem determines_firstSets (hγ : ∀ s ∈ γ, g.Declares s) : g.firstSets.Determines γ :=
  determines_of_size g.firstSets_spec.1.size hγ

/-- The passes end, with a set for each declared non-terminal that holds exactly the terminals that
come first in what it derives, and whether it derives the empty string. What can come first in a
sequence with a terminal behind it is told just as exactly. -/
theorem firstSets_exact (g : Grammar) :
    (∃ passes, g.firstPass^[passes] (Array.replicate g.nonterminals.length {}) = g.firstSets ∧
      g.firstPass g.firstSets = g.firstSets) ∧
    (∀ n, g.Declares (.nonterminal n) → n < g.firstSets.size ∧
      (∀ t, t ∈ (g.firstSets.ofNonterminal n).terminals ↔
        ∃ β, g.Rewrites [.nonterminal n] (.terminal t :: β)) ∧
      ((g.firstSets.ofNonterminal n).nullable = true ↔ g.Rewrites [.nonterminal n] [])) ∧
    ∀ γ, (∀ s ∈ γ, g.Declares s) → g.firstSets.Determines γ ∧
      ∀ a b, b ∈ g.firstSets.lookaheads γ a ↔
        (∃ β, g.Rewrites γ (.terminal b :: β)) ∨ b = a ∧ g.Rewrites γ [] := by
  obtain ⟨hproper, hfixed⟩ := g.firstSets_spec
  refine ⟨?_, ?_, ?_⟩
  · obtain ⟨passes, -, hpasses⟩ := exists_iterate_firstWithin
      (g.productions.filter fun p => g.WellFormed p)
      (g.nonterminals.length * (g.terminals.length + 1) + 1)
      (Array.replicate g.nonterminals.length {})
    exact ⟨passes, hpasses.symm, hfixed⟩
  · intro n hn
    refine ⟨hproper.size ▸ hn, fun t => ?_, ?_⟩
    · exact has_ofNonterminal_firstSets (o := some t)
    · exact has_ofNonterminal_firstSets (o := none)
  · intro γ hγ
    refine ⟨determines_firstSets hγ, fun a b => ?_⟩
    rw [mem_lookaheads, has_ofSequence_firstSets, has_ofSequence_firstSets, and_comm (a := b = a)]
    rfl

/-- Two optional parts before an end, a non-terminal that derives no string, and a production with
an undeclared symbol, which does not count. -/
def optionalParts : Grammar where
  terminals := ["a", "b", "c"]
  nonterminals := ["S", "A", "B", "U"]
  start := 0
  productions := [⟨.normal, 0, [.nonterminal 1, .nonterminal 2, .terminal 2], none⟩,
    ⟨.normal, 1, [.terminal 0, .nonterminal 3], none⟩, ⟨.normal, 1, [], none⟩,
    ⟨.normal, 2, [.nonterminal 1, .terminal 1], none⟩, ⟨.normal, 2, [.nonterminal 1], none⟩,
    ⟨.normal, 3, [.nonterminal 3, .terminal 1], none⟩, ⟨.normal, 0, [.terminal 3], none⟩]

/-- Through both parts the end comes first, and through the empty parts what is behind them. -/
theorem firstSets_exact_optionalParts :
    (∀ n < 4, optionalParts.Declares (.nonterminal n)) ∧
      (∃ β, optionalParts.Rewrites [.nonterminal 0] (.terminal 2 :: β)) ∧
      ¬ (∃ β, optionalParts.Rewrites [.nonterminal 0] (.terminal 3 :: β)) ∧
      ¬ optionalParts.Rewrites [.nonterminal 0] [] ∧
      optionalParts.firstSets.lookaheads [.nonterminal 1, .nonterminal 2] 7 = [0, 1, 7] ∧
      optionalParts.Rewrites [.nonterminal 1, .nonterminal 2] [] := by
  have hdeclared : ∀ n < 4, optionalParts.Declares (.nonterminal n) := fun _ hn => hn
  obtain ⟨-, hnonterminals, hsequences⟩ := firstSets_exact optionalParts
  obtain ⟨-, hfirst, hnull⟩ := hnonterminals 0 (by decide)
  obtain ⟨-, hlookaheads⟩ := hsequences [.nonterminal 1, .nonterminal 2] (by decide)
  have hseven : ¬ ∃ β, optionalParts.Rewrites [.nonterminal 1, .nonterminal 2] (.terminal 7 :: β) :=
    fun h => absurd ((hlookaheads 8 7).2 (Or.inl h)) (by decide +kernel)
  refine ⟨hdeclared, (hfirst 2).1 (by decide +kernel), fun h => ?_, fun h => ?_, by decide +kernel,
    ?_⟩
  · exact absurd ((hfirst 3).2 h) (by decide +kernel)
  · exact absurd (hnull.2 h) (by decide +kernel)
  · exact (((hlookaheads 7 7).1 (by decide +kernel)).resolve_left hseven).2

end SyntaxTables.Grammar
