import SyntaxTables.Proofs.Grammar.First.Exact
import SyntaxTables.Proofs.Lr.Closure

/-!
# Productions under other numbers

Ill-formed productions take part in nothing, and the number of a production is nothing but its place
in the list. So what grammars with the same symbols and the same well-formed productions have to do
with each other is said by a relation of numbers. They rewrite in the same way, and so agree on
which terminals come first.
-/

namespace SyntaxTables.Grammar

variable {g h : Grammar} {r : Nat → Nat → Prop} {i j : Nat} {p : Production}

/-- Two grammars have the same symbols and, under numbers that are related, the same well-formed
productions. -/
structure Renumbered (g h : Grammar) (r : Nat → Nat → Prop) : Prop where
  terminals : h.terminals = g.terminals
  nonterminals : h.nonterminals = g.nonterminals
  start : h.start = g.start
  unique : Relator.BiUnique r
  same : ∀ {i j}, r i j → ∃ p, g.Usable i p ∧ h.Usable j p
  left : ∀ {i p}, g.Usable i p → ∃ j, r i j
  right : ∀ {j p}, h.Usable j p → ∃ i, r i j

/-- The numbers of productions are related, or both are those of the added ones. -/
def Matching (g h : Grammar) (r : Nat → Nat → Prop) (i j : Nat) : Prop :=
  r i j ∨ i = g.augmented ∧ j = h.augmented

namespace Renumbered

theorem symm (hr : g.Renumbered h r) : h.Renumbered g (flip r) where
  terminals := hr.terminals.symm
  nonterminals := hr.nonterminals.symm
  start := hr.start.symm
  unique := ⟨fun _ _ _ hij hkj => hr.unique.2 hij hkj, fun _ _ _ hij hik => hr.unique.1 hij hik⟩
  same hij := by
    obtain ⟨p, hp, hp'⟩ := hr.same hij
    exact ⟨p, hp', hp⟩
  left := hr.right
  right := hr.left

theorem exists_usable (hr : g.Renumbered h r) (hp : g.Usable i p) : ∃ j, r i j ∧ h.Usable j p := by
  obtain ⟨j, hij⟩ := hr.left hp
  obtain ⟨q, hq, hq'⟩ := hr.same hij
  obtain rfl := Option.some.inj (hp.1.symm.trans hq.1)
  exact ⟨j, hij, hq'⟩

theorem lt_length (hr : g.Renumbered h r) (hij : r i j) :
    i < g.productions.length ∧ j < h.productions.length := by
  obtain ⟨p, hp, hp'⟩ := hr.same hij
  exact ⟨lt_length_of_usable hp, lt_length_of_usable hp'⟩

theorem eof_eq (hr : g.Renumbered h r) : h.eof = g.eof := by
  rw [eof, hr.terminals, eof]

theorem width_eq (hr : g.Renumbered h r) : h.width = g.width := by
  rw [width, hr.terminals, width]

theorem declares_iff (hr : g.Renumbered h r) {s : Symbol} : h.Declares s ↔ g.Declares s := by
  cases s with
  | terminal a => rw [Declares, hr.terminals, Declares]
  | nonterminal n => rw [Declares, hr.nonterminals, Declares]

theorem declares_start (hr : g.Renumbered h r) (hstart : g.Declares (.nonterminal g.start)) :
    h.Declares (.nonterminal h.start) := by
  rwa [hr.declares_iff, hr.start]

/-! ### Related numbers -/

/-- The number of an added production is that of no other one. -/
theorem biUnique_matching (hr : g.Renumbered h r) : Relator.BiUnique (g.Matching h r) := by
  constructor
  · rintro i k j (hij | ⟨rfl, rfl⟩) (hkj | ⟨rfl, hj⟩)
    · exact hr.unique.1 hij hkj
    · exact absurd hj (Nat.ne_of_lt (hr.lt_length hij).2)
    · exact absurd (hr.lt_length hkj).2 (Nat.lt_irrefl _)
    · rfl
  · rintro i j k (hij | ⟨rfl, rfl⟩) (hik | ⟨hi, rfl⟩)
    · exact hr.unique.2 hij hik
    · exact absurd hi (Nat.ne_of_lt (hr.lt_length hij).1)
    · exact absurd (hr.lt_length hik).1 (Nat.lt_irrefl _)
    · rfl

theorem matching_augmented_iff (hr : g.Renumbered h r) (hij : g.Matching h r i j) :
    i = g.augmented ↔ j = h.augmented := by
  rcases hij with hij | ⟨rfl, rfl⟩
  · obtain ⟨hi, hj⟩ := hr.lt_length hij
    exact iff_of_false (Nat.ne_of_lt hi) (Nat.ne_of_lt hj)
  · exact iff_of_true rfl rfl

theorem body_eq (hr : g.Renumbered h r) (hij : g.Matching h r i j) : h.body j = g.body i := by
  rcases hij with hij | ⟨rfl, rfl⟩
  · obtain ⟨p, hp, hp'⟩ := hr.same hij
    rw [body_of_usable hp, body_of_usable hp']
  · rw [body_augmented, body_augmented, hr.start]

/-! ### What comes first -/

theorem rewriteStep (hr : g.Renumbered h r) {γ δ : List Symbol} (hstep : g.RewriteStep γ δ) :
    h.RewriteStep γ δ := by
  obtain ⟨hp, front, back⟩ := hstep
  obtain ⟨j, -, hp'⟩ := hr.exists_usable hp
  exact .mk hp' front back

theorem rewrites (hr : g.Renumbered h r) {γ δ : List Symbol} (hγ : g.Rewrites γ δ) :
    h.Rewrites γ δ := by
  induction hγ with
  | refl => exact .refl
  | tail _ hstep ih => exact ih.tail (hr.rewriteStep hstep)

theorem rewrites_iff (hr : g.Renumbered h r) {γ δ : List Symbol} :
    h.Rewrites γ δ ↔ g.Rewrites γ δ :=
  ⟨hr.symm.rewrites, hr.rewrites⟩

theorem comesFirst_iff (hr : g.Renumbered h r) {γ : List Symbol} {o : Option Nat} :
    h.ComesFirst γ o ↔ g.ComesFirst γ o := by
  cases o with
  | none => exact hr.rewrites_iff
  | some t => exact exists_congr fun _ => hr.rewrites_iff

theorem mem_lookaheads_iff (hr : g.Renumbered h r) {γ : List Symbol} {a b : Nat} :
    b ∈ h.firstSets.lookaheads γ a ↔ b ∈ g.firstSets.lookaheads γ a := by
  simp only [FirstSets.mem_lookaheads, has_ofSequence_firstSets, hr.comesFirst_iff]

end Renumbered

/-! ### Numbers by a function -/

/-- The well-formed production `j` of a grammar has another number by a function. -/
def Moved (h : Grammar) (ρ : Nat → Nat) (i j : Nat) : Prop :=
  ρ j = i ∧ ∃ p, h.Usable j p

/-- A function gives each well-formed production of `g` as that of one number in `h`. -/
theorem renumbered_of_injective {ρ : Nat → Nat} (hterminals : h.terminals = g.terminals)
    (hnonterminals : h.nonterminals = g.nonterminals) (hstart : h.start = g.start)
    (hinj : ρ.Injective) (husable : ∀ {j p}, h.Usable j p ↔ g.Usable (ρ j) p)
    (hsurj : ∀ {i p}, g.Usable i p → ∃ j, ρ j = i) : g.Renumbered h (h.Moved ρ) where
  terminals := hterminals
  nonterminals := hnonterminals
  start := hstart
  unique := by
    constructor
    · rintro i k j ⟨rfl, -⟩ ⟨rfl, -⟩
      rfl
    · rintro i j k ⟨rfl, -⟩ ⟨hk, -⟩
      exact (hinj hk).symm
  same := by
    rintro _ j ⟨rfl, p, hp⟩
    exact ⟨p, husable.1 hp, hp⟩
  left := by
    intro i p hp
    obtain ⟨j, rfl⟩ := hsurj hp
    exact ⟨j, rfl, p, husable.2 hp⟩
  right := by
    intro j p hp
    exact ⟨ρ j, rfl, p, hp⟩

end SyntaxTables.Grammar
