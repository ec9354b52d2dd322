import SyntaxTables.Grammar.First
import SyntaxTables.Proofs.Ascending
import SyntaxTables.Proofs.Exploration
import SyntaxTables.Proofs.Grammar.Derivation

/-!
# First sets are closed under the productions

Each pass that changes something adds a terminal or the empty string to some set, and there are not
more of these than passes. So the sets computed are a fixed point, and whatever a sequence derives
begins as its first set tells.
-/

namespace SyntaxTables

/-- A set tells of a first terminal, or of the empty string. -/
def FirstSet.Has (f : FirstSet) : Option Nat → Prop
  | some t => t ∈ f.terminals
  | none => f.nullable = true

instance (f : FirstSet) : (o : Option Nat) → Decidable (f.Has o)
  | some t => inferInstanceAs (Decidable (t ∈ f.terminals))
  | none => inferInstanceAs (Decidable (f.nullable = true))

namespace FirstSet

theorem has_join {f h : FirstSet} {o : Option Nat} : (f.join h).Has o ↔ f.Has o ∨ h.Has o := by
  cases o <;> simp [Has, join, Ascending.mem_union]

theorem mem_withLookahead {f : FirstSet} {a b : Nat} :
    b ∈ f.withLookahead a ↔ f.Has (some b) ∨ f.Has none ∧ b = a := by
  unfold withLookahead
  split_ifs with h
  · simp [Has, Ascending.mem_union, h, or_comm]
  · simp [Has, h]

end FirstSet

namespace FirstSets

variable {sets larger : FirstSets}

@[simp] theorem has_ofSequence_nil {o : Option Nat} : (sets.ofSequence []).Has o ↔ o = none := by
  cases o <;> simp [FirstSet.Has, ofSequence]

@[simp] theorem has_ofSequence_terminal {a : Nat} {rest : List Symbol} {o : Option Nat} :
    (sets.ofSequence (.terminal a :: rest)).Has o ↔ o = some a := by
  cases o <;> simp [FirstSet.Has, ofSequence]

theorem has_ofSequence_nonterminal {n : Nat} {rest : List Symbol} {o : Option Nat} :
    (sets.ofSequence (.nonterminal n :: rest)).Has o ↔
      (sets.ofNonterminal n).Has o ∧ o ≠ none ∨
        (sets.ofNonterminal n).Has none ∧ (sets.ofSequence rest).Has o := by
  rw [ofSequence]
  by_cases h : (sets.ofNonterminal n).nullable = true
  · cases o <;> simp [FirstSet.Has, h, Ascending.mem_union]
  · cases o <;> simp [FirstSet.Has, h]

theorem has_ofSequence_append {γ δ : List Symbol} {o : Option Nat} :
    (sets.ofSequence (γ ++ δ)).Has o ↔
      (sets.ofSequence γ).Has o ∧ o ≠ none ∨
        (sets.ofSequence γ).Has none ∧ (sets.ofSequence δ).Has o := by
  induction γ with
  | nil => simp
  | cons s γ ih =>
    cases s with
    | terminal a =>
      simp only [List.cons_append, has_ofSequence_terminal]
      cases o <;> simp
    | nonterminal n =>
      simp only [List.cons_append, has_ofSequence_nonterminal, ih]
      grind

theorem mem_lookaheads {γ : List Symbol} {a b : Nat} :
    b ∈ sets.lookaheads γ a ↔
      (sets.ofSequence γ).Has (some b) ∨ (sets.ofSequence γ).Has none ∧ b = a :=
  FirstSet.mem_withLookahead

theorem mem_lookaheads_nil {a b : Nat} : b ∈ sets.lookaheads [] a ↔ b = a := by
  simp [mem_lookaheads]

/-- The one family tells of nothing that the other does not tell of. -/
def Le (sets larger : FirstSets) : Prop :=
  ∀ n o, (sets.ofNonterminal n).Has o → (larger.ofNonterminal n).Has o

theorem Le.ofSequence (h : sets.Le larger) {γ : List Symbol} {o : Option Nat}
    (ho : (sets.ofSequence γ).Has o) : (larger.ofSequence γ).Has o := by
  induction γ with
  | nil => simpa using ho
  | cons s γ ih =>
    cases s with
    | terminal a => simpa using ho
    | nonterminal n =>
      rw [has_ofSequence_nonterminal] at ho ⊢
      rcases ho with ⟨ho, hne⟩ | ⟨hnull, ho⟩
      · exact Or.inl ⟨h n o ho, hne⟩
      · exact Or.inr ⟨h n none hnull, ih ho⟩

end FirstSets

namespace Grammar

open FirstSets

variable {g : Grammar} {sets : FirstSets}

theorem ofNonterminal_addFirst (sets : FirstSets) (p : Production) (n : Nat) :
    (addFirst sets p).ofNonterminal n =
      if n = p.lhs ∧ n < sets.size then (sets.ofNonterminal n).join (sets.ofSequence p.rhs)
      else sets.ofNonterminal n := by
  unfold addFirst ofNonterminal
  simp only [Array.getD_eq_getD_getElem?, Array.getElem?_modify]
  by_cases hn : n < sets.size
  · by_cases hp : p.lhs = n
    · subst hp
      simp [hn]
    · simp [hp, Ne.symm hp]
  · simp [hn]

theorem has_addFirst {p : Production} {n : Nat} {o : Option Nat} :
    ((addFirst sets p).ofNonterminal n).Has o ↔
      (sets.ofNonterminal n).Has o ∨
        (n = p.lhs ∧ n < sets.size ∧ (sets.ofSequence p.rhs).Has o) := by
  rw [ofNonterminal_addFirst]
  split_ifs with hn
  · rw [FirstSet.has_join]
    grind
  · grind

@[simp] theorem size_addFirst (sets : FirstSets) (p : Production) :
    (addFirst sets p).size = sets.size := by
  simp [addFirst]

theorem le_addFirst (sets : FirstSets) (p : Production) : sets.Le (addFirst sets p) :=
  fun _ _ h => has_addFirst.2 (Or.inl h)

theorem le_foldl_addFirst (ps : List Production) (sets : FirstSets) :
    sets.Le (ps.foldl addFirst sets) := by
  induction ps generalizing sets with
  | nil => exact fun _ _ => id
  | cons p ps ih => exact fun n o h => ih _ n o (le_addFirst sets p n o h)

/-- One pass adds at least what each production contributes at its beginning. -/
theorem has_foldl_addFirst {ps : List Production} {p : Production} (hp : p ∈ ps)
    (hn : p.lhs < sets.size) {o : Option Nat} (ho : (sets.ofSequence p.rhs).Has o) :
    ((ps.foldl addFirst sets).ofNonterminal p.lhs).Has o := by
  induction ps generalizing sets with
  | nil => simp at hp
  | cons q ps ih =>
    rcases List.mem_cons.1 hp with rfl | hp
    · exact le_foldl_addFirst ps _ _ _ (has_addFirst.2 (Or.inr ⟨rfl, hn, ho⟩))
    · apply ih hp (by simpa using hn)
      exact (le_addFirst sets q).ofSequence ho

/-- A set for each non-terminal, ascending and with declared terminals only. -/
structure FirstProper (g : Grammar) (sets : FirstSets) : Prop where
  size : sets.size = g.nonterminals.length
  ascending : ∀ n, (sets.ofNonterminal n).terminals.Pairwise fun a b => compare a b = .lt
  declared : ∀ n, ∀ t ∈ (sets.ofNonterminal n).terminals, t < g.terminals.length

theorem FirstProper.lt_of_ofSequence (h : g.FirstProper sets) {γ : List Symbol}
    (hγ : ∀ s ∈ γ, g.Declares s) {t : Nat} (ht : (sets.ofSequence γ).Has (some t)) :
    t < g.terminals.length := by
  induction γ with
  | nil => simp at ht
  | cons s γ ih =>
    have htail : ∀ s ∈ γ, g.Declares s := fun s hs => hγ s (List.mem_cons_of_mem _ hs)
    cases s with
    | terminal a =>
      obtain rfl : t = a := by simpa using ht
      exact hγ _ List.mem_cons_self
    | nonterminal n =>
      rcases has_ofSequence_nonterminal.1 ht with ⟨ht, -⟩ | ⟨-, ht⟩
      · exact h.declared n t ht
      · exact ih htail ht

theorem FirstProper.addFirst (h : g.FirstProper sets) {p : Production} (hp : g.WellFormed p) :
    g.FirstProper (addFirst sets p) := by
  constructor
  · rw [size_addFirst, h.size]
  · intro n
    rw [ofNonterminal_addFirst]
    split_ifs
    · exact Ascending.pairwise_ofList _
    · exact h.ascending n
  · intro n t ht
    rcases has_addFirst.1 (show FirstSet.Has _ (some t) from ht) with ht | ⟨-, -, ht⟩
    · exact h.declared n t ht
    · exact h.lt_of_ofSequence hp.2 ht

theorem FirstProper.foldl (h : g.FirstProper sets) {ps : List Production}
    (hps : ∀ p ∈ ps, g.WellFormed p) : g.FirstProper (ps.foldl Grammar.addFirst sets) := by
  induction ps generalizing sets with
  | nil => exact h
  | cons p ps ih =>
    exact ih (h.addFirst (hps p List.mem_cons_self)) fun q hq => hps q (List.mem_cons_of_mem _ hq)

theorem ofNonterminal_replicate (size n : Nat) :
    ofNonterminal (Array.replicate size {}) n = {} := by
  simp only [ofNonterminal, Array.getD_eq_getD_getElem?, Array.getElem?_replicate]
  split_ifs <;> rfl

theorem firstProper_replicate (g : Grammar) :
    g.FirstProper (Array.replicate g.nonterminals.length {}) := by
  constructor
  · simp
  · intro n
    rw [ofNonterminal_replicate]
    exact List.Pairwise.nil
  · intro n t ht
    rw [ofNonterminal_replicate] at ht
    simp at ht

/-! ### The number of passes -/

def firstUniverse (g : Grammar) : List (Nat × Option Nat) :=
  List.range g.nonterminals.length ×ˢ (none :: (List.range g.terminals.length).map some)

theorem mem_firstUniverse {n : Nat} {o : Option Nat} :
    (n, o) ∈ g.firstUniverse ↔
      n < g.nonterminals.length ∧ ∀ t, o = some t → t < g.terminals.length := by
  unfold firstUniverse
  cases o <;> simp

theorem length_firstUniverse (g : Grammar) :
    g.firstUniverse.length = g.nonterminals.length * (g.terminals.length + 1) := by
  simp [firstUniverse, List.length_product]

def firstMissing (g : Grammar) (sets : FirstSets) : Nat :=
  g.firstUniverse.countP fun x => !decide ((sets.ofNonterminal x.1).Has x.2)

theorem FirstProper.eq_of_le {larger : FirstSets} (h : g.FirstProper sets)
    (h' : g.FirstProper larger) (hle : sets.Le larger)
    (hge : ∀ x ∈ g.firstUniverse, (larger.ofNonterminal x.1).Has x.2 →
      (sets.ofNonterminal x.1).Has x.2) : larger = sets := by
  have hiff : ∀ n < g.nonterminals.length, ∀ o,
      (larger.ofNonterminal n).Has o ↔ (sets.ofNonterminal n).Has o := by
    intro n hn o
    refine ⟨fun ho => hge (n, o) ?_ ho, hle n o⟩
    refine mem_firstUniverse.2 ⟨hn, ?_⟩
    rintro t rfl
    exact h'.declared n t ho
  apply Array.ext (by rw [h.size, h'.size])
  intro n hn hn'
  have hset : larger.ofNonterminal n = sets.ofNonterminal n := by
    have hlt : n < g.nonterminals.length := h.size ▸ hn'
    have hterminals : (larger.ofNonterminal n).terminals = (sets.ofNonterminal n).terminals :=
      Ascending.eq_of_pairwise (h'.ascending n) (h.ascending n) fun t => hiff n hlt (some t)
    have hnullable : (larger.ofNonterminal n).nullable = (sets.ofNonterminal n).nullable :=
      Bool.eq_iff_iff.2 (hiff n hlt none)
    cases hl : larger.ofNonterminal n
    cases hs : sets.ofNonterminal n
    rw [hl, hs] at hterminals hnullable
    exact congrArg₂ FirstSet.mk hterminals hnullable
  simpa [ofNonterminal, Array.getD, hn, hn'] using hset

theorem firstMissing_lt {larger : FirstSets} (h : g.FirstProper sets) (h' : g.FirstProper larger)
    (hle : sets.Le larger) (hne : larger ≠ sets) : g.firstMissing larger < g.firstMissing sets := by
  have hex : ∃ x ∈ g.firstUniverse, (larger.ofNonterminal x.1).Has x.2 ∧
      ¬ (sets.ofNonterminal x.1).Has x.2 := by
    by_contra hnone
    push Not at hnone
    exact hne (h.eq_of_le h' hle hnone)
  obtain ⟨x, hx, hnew, hold⟩ := hex
  apply Exploration.countP_lt_countP hx
  · simpa using hnew
  · simpa using hold
  · intro y hy
    simp only [Bool.not_eq_true', decide_eq_false_iff_not] at hy ⊢
    exact fun ho => hy (hle _ _ ho)

/-- With more passes than the sets can grow, the last pass changes nothing. -/
theorem firstWithin_fixed {ps : List Production} (hps : ∀ p ∈ ps, g.WellFormed p) {passes : Nat}
    (h : g.FirstProper sets) (hlt : g.firstMissing sets < passes) :
    g.FirstProper (firstWithin ps passes sets) ∧
      ps.foldl addFirst (firstWithin ps passes sets) = firstWithin ps passes sets := by
  induction passes generalizing sets with
  | zero => omega
  | succ passes ih =>
    rw [firstWithin]
    by_cases hfixed : ps.foldl addFirst sets = sets
    · simp only [hfixed, if_true]
      exact ⟨h, trivial⟩
    · simp only [hfixed, if_false]
      have hproper := h.foldl hps
      have hless := firstMissing_lt h hproper (le_foldl_addFirst ps sets) hfixed
      exact ih hproper (by omega)

/-- The passes made are those of the loop without a bound, as far as they go. -/
theorem exists_iterate_firstWithin (ps : List Production) (passes : Nat) (sets : FirstSets) :
    ∃ k ≤ passes, firstWithin ps passes sets = (fun sets => ps.foldl addFirst sets)^[k] sets := by
  induction passes generalizing sets with
  | zero => exact ⟨0, Nat.le_refl 0, rfl⟩
  | succ passes ih =>
    rw [firstWithin]
    by_cases hfixed : ps.foldl addFirst sets = sets
    · exact ⟨0, Nat.zero_le _, by simp [hfixed]⟩
    · obtain ⟨k, hk, hpasses⟩ := ih (ps.foldl addFirst sets)
      refine ⟨k + 1, Nat.succ_le_succ hk, ?_⟩
      simp only [hfixed, if_false]
      exact hpasses

theorem firstSets_spec (g : Grammar) :
    g.FirstProper g.firstSets ∧
      (g.productions.filter fun p => g.WellFormed p).foldl addFirst g.firstSets = g.firstSets := by
  apply firstWithin_fixed
  · intro p hp
    simpa using (List.mem_filter.1 hp).2
  · exact firstProper_replicate g
  · have hle : g.firstMissing (Array.replicate g.nonterminals.length {}) ≤ g.firstUniverse.length :=
      List.countP_le_length
    rw [length_firstUniverse] at hle
    omega

/-- What each usable production keeps of the sets holds of those that the passes end with. -/
theorem firstSets_induction {holds : FirstSets → Prop}
    (hempty : holds (Array.replicate g.nonterminals.length {}))
    (hadd : ∀ {sets i p}, g.Usable i p → holds sets → holds (addFirst sets p)) :
    holds g.firstSets := by
  have hpass : ∀ (ps : List Production) (sets : FirstSets), (∀ p ∈ ps, ∃ i, g.Usable i p) →
      holds sets → holds (ps.foldl addFirst sets) := by
    intro ps
    induction ps with
    | nil => exact fun _ _ h => h
    | cons p ps ih =>
      intro sets hps h
      obtain ⟨⟨i, hp⟩, hps⟩ := List.forall_mem_cons.1 hps
      exact ih _ hps (hadd hp h)
  have husable : ∀ p ∈ g.productions.filter fun p => g.WellFormed p, ∃ i, g.Usable i p := by
    intro p hp
    obtain ⟨hmem, hw⟩ := List.mem_filter.1 hp
    obtain ⟨i, hi⟩ := List.mem_iff_getElem?.1 hmem
    exact ⟨i, hi, of_decide_eq_true hw⟩
  obtain ⟨passes, -, hpasses⟩ := exists_iterate_firstWithin
    (g.productions.filter fun p => g.WellFormed p)
    (g.nonterminals.length * (g.terminals.length + 1) + 1)
    (Array.replicate g.nonterminals.length {})
  rw [firstSets, hpasses]
  clear hpasses
  induction passes with
  | zero => exact hempty
  | succ passes ih =>
    rw [Function.iterate_succ_apply']
    exact hpass _ _ husable ih

theorem has_firstSets {i : Nat} {p : Production} (hp : g.Usable i p) {o : Option Nat}
    (ho : (g.firstSets.ofSequence p.rhs).Has o) : (g.firstSets.ofNonterminal p.lhs).Has o := by
  obtain ⟨hproper, hfixed⟩ := g.firstSets_spec
  rw [← hfixed]
  apply has_foldl_addFirst _ _ ho
  · exact List.mem_filter.2 ⟨List.mem_of_getElem? hp.1, by simpa using hp.2⟩
  · rw [hproper.size]
    exact hp.2.1

/-- What a sequence derives begins as its first set tells. -/
theorem Forest.has_first {γ : List Symbol} {w is : List Nat} (h : g.Forest γ w is) :
    (g.firstSets.ofSequence γ).Has w.head? := by
  induction h with
  | nil => simp
  | terminal a _ _ => simp
  | @nonterminal i p γ v w is js hp _ _ ihbody ih =>
    have hfirst := has_firstSets hp ihbody
    rw [has_ofSequence_nonterminal]
    cases v with
    | nil => exact Or.inr ⟨hfirst, ih⟩
    | cons a v => exact Or.inl ⟨hfirst, by simp⟩

/-- If what comes behind some symbols can follow the rest, then what they derive, with it behind,
can follow all of them. -/
theorem Forest.head_mem_lookaheads {γ δ : List Symbol} {w is : List Nat} (h : g.Forest γ w is)
    {a b : Nat} {z : List Nat} (hz : z.headD b ∈ g.firstSets.lookaheads δ a) :
    (w ++ z).headD b ∈ g.firstSets.lookaheads (γ ++ δ) a := by
  have hfirst := h.has_first
  rw [mem_lookaheads, has_ofSequence_append, has_ofSequence_append]
  cases w with
  | nil =>
    rcases mem_lookaheads.1 hz with hz | ⟨hnull, hz⟩
    · exact Or.inl (Or.inr ⟨hfirst, hz⟩)
    · exact Or.inr ⟨Or.inr ⟨hfirst, hnull⟩, hz⟩
  | cons c w => exact Or.inl (Or.inl ⟨hfirst, by simp⟩)

end Grammar

end SyntaxTables
