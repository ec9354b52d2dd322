import Mathlib.Tactic
import SyntaxTables.Nfa.Tokens
import SyntaxTables.Proofs.Exploration

/-!
# What a pattern stands for

A pattern stands for a set of strings of code points; a reference stands for what its definition
stands for, so the meaning depends on the lexicon. A reference can be built if all names behind it
are defined and none of them needs itself. A token that can be used is called live.
-/

namespace SyntaxTables

/-- A string of code points that a pattern stands for. -/
inductive Pattern.Matches (lexicon : Lexicon) : Pattern → List Nat → Prop
  | oneOf {ranges : List Interval} {r : Interval} {c : Nat} :
    r ∈ ranges → c ∈ r → Matches lexicon (.oneOf ranges) [c]
  | noneOf {ranges : List Interval} {c : Nat} :
    c ≤ maxCodePoint → (∀ r ∈ ranges, c ∉ r) → Matches lexicon (.noneOf ranges) [c]
  | literal (text : List Char) : Matches lexicon (.literal text) (text.map Char.toNat)
  | concatNil : Matches lexicon (.concat []) []
  | concatCons {p : Pattern} {ps : List Pattern} {v w : List Nat} :
    Matches lexicon p v → Matches lexicon (.concat ps) w →
      Matches lexicon (.concat (p :: ps)) (v ++ w)
  | union {p : Pattern} {ps : List Pattern} {w : List Nat} :
    p ∈ ps → Matches lexicon p w → Matches lexicon (.union ps) w
  | optionalNone {p : Pattern} : Matches lexicon (.optional p) []
  | optionalSome {p : Pattern} {w : List Nat} :
    Matches lexicon p w → Matches lexicon (.optional p) w
  | starNil {p : Pattern} : Matches lexicon (.star p) []
  | starCons {p : Pattern} {v w : List Nat} :
    Matches lexicon p v → Matches lexicon (.star p) w → Matches lexicon (.star p) (v ++ w)
  | plus {p : Pattern} {v w : List Nat} :
    Matches lexicon p v → Matches lexicon (.star p) w → Matches lexicon (.plus p) (v ++ w)
  | reference {name : String} {p : Pattern} {w : List Nat} :
    lexicon.find? name = some p → Matches lexicon p w → Matches lexicon (.reference name) w

mutual

/-- The names that a pattern refers to itself. -/
def Pattern.references : Pattern → List String
  | .oneOf _ => []
  | .noneOf _ => []
  | .literal _ => []
  | .concat parts => Pattern.referencesOfParts parts
  | .union parts => Pattern.referencesOfParts parts
  | .optional inner => inner.references
  | .star inner => inner.references
  | .plus inner => inner.references
  | .reference name => [name]

def Pattern.referencesOfParts : List Pattern → List String
  | [] => []
  | p :: ps => p.references ++ Pattern.referencesOfParts ps

end

namespace Lexicon

/-- The definition of the first name refers to the second one. -/
def Refers (lexicon : Lexicon) (n m : String) : Prop :=
  ∃ p, lexicon.find? n = some p ∧ m ∈ p.references

/-- A pattern refers to a name itself or through other definitions. -/
def Needs (lexicon : Lexicon) (p : Pattern) (n : String) : Prop :=
  ∃ m ∈ p.references, Relation.ReflTransGen lexicon.Refers m n

/-- Token `i` can be used. Its name is taken by no fragment and no earlier token, all names that it
needs are defined, none of them leads back to itself, and it does not match the empty string. -/
structure Live (lexicon : Lexicon) (i : Nat) (d : Definition) : Prop where
  token : lexicon.tokens[i]? = some d
  fragments : ∀ f ∈ lexicon.fragments, f.name ≠ d.name
  earlier : ∀ j < i, ∀ e, lexicon.tokens[j]? = some e → e.name ≠ d.name
  defined : ∀ n, lexicon.Needs d.pattern n → ∃ p, lexicon.find? n = some p
  acyclic : ∀ n, lexicon.Needs d.pattern n → ¬ Relation.TransGen lexicon.Refers n n
  nonempty : ¬ d.pattern.Matches lexicon []

end Lexicon

/-! ### Meanings of the single patterns -/

namespace Pattern

variable {lexicon : Lexicon} {p : Pattern} {ps : List Pattern} {w : List Nat}

theorem matches_oneOf {ranges : List Interval} :
    Matches lexicon (.oneOf ranges) w ↔ ∃ c, w = [c] ∧ ∃ r ∈ ranges, c ∈ r := by
  constructor
  · rintro (@⟨_, r, c, hr, hc⟩)
    exact ⟨c, rfl, r, hr, hc⟩
  · rintro ⟨c, rfl, r, hr, hc⟩
    exact .oneOf hr hc

theorem matches_noneOf {ranges : List Interval} :
    Matches lexicon (.noneOf ranges) w ↔
      ∃ c, w = [c] ∧ c ≤ maxCodePoint ∧ ∀ r ∈ ranges, c ∉ r := by
  constructor
  · intro h
    cases h with
    | @noneOf _ c hc hr => exact ⟨c, rfl, hc, hr⟩
  · rintro ⟨c, rfl, hc, hr⟩
    exact .noneOf hc hr

theorem matches_literal {text : List Char} :
    Matches lexicon (.literal text) w ↔ w = text.map Char.toNat := by
  constructor
  · intro h
    cases h
    rfl
  · rintro rfl
    exact .literal text

theorem matches_concat_nil : Matches lexicon (.concat []) w ↔ w = [] := by
  constructor
  · intro h
    cases h
    rfl
  · rintro rfl
    exact .concatNil

theorem matches_concat_cons :
    Matches lexicon (.concat (p :: ps)) w ↔
      ∃ u v, w = u ++ v ∧ Matches lexicon p u ∧ Matches lexicon (.concat ps) v := by
  constructor
  · intro h
    cases h with
    | concatCons hu hv => exact ⟨_, _, rfl, hu, hv⟩
  · rintro ⟨u, v, rfl, hu, hv⟩
    exact .concatCons hu hv

theorem matches_union :
    Matches lexicon (.union ps) w ↔ ∃ p ∈ ps, Matches lexicon p w := by
  constructor
  · intro h
    cases h with
    | union hp hw => exact ⟨_, hp, hw⟩
  · rintro ⟨p, hp, hw⟩
    exact .union hp hw

theorem matches_optional :
    Matches lexicon (.optional p) w ↔ w = [] ∨ Matches lexicon p w := by
  constructor
  · intro h
    cases h with
    | optionalNone => exact Or.inl rfl
    | optionalSome hw => exact Or.inr hw
  · rintro (rfl | hw)
    · exact .optionalNone
    · exact .optionalSome hw

theorem matches_star :
    Matches lexicon (.star p) w ↔
      ∃ parts : List (List Nat), w = parts.flatten ∧ ∀ u ∈ parts, Matches lexicon p u := by
  constructor
  · generalize hq : Pattern.star p = q
    intro h
    induction h with
    | starNil => exact ⟨[], rfl, by simp⟩
    | @starCons p' v w hv _ _ ih =>
      obtain rfl : p = p' := by simpa using hq
      obtain ⟨parts, rfl, hparts⟩ := ih hq
      exact ⟨v :: parts, rfl, List.forall_mem_cons.2 ⟨hv, hparts⟩⟩
    | _ => simp at hq
  · rintro ⟨parts, rfl, hparts⟩
    induction parts with
    | nil => exact .starNil
    | cons u parts ih =>
      obtain ⟨hu, hparts⟩ := List.forall_mem_cons.1 hparts
      exact .starCons hu (ih hparts)

theorem matches_plus :
    Matches lexicon (.plus p) w ↔
      ∃ u v, w = u ++ v ∧ Matches lexicon p u ∧ Matches lexicon (.star p) v := by
  constructor
  · intro h
    cases h with
    | plus hu hv => exact ⟨_, _, rfl, hu, hv⟩
  · rintro ⟨u, v, rfl, hu, hv⟩
    exact .plus hu hv

theorem matches_reference {name : String} (h : lexicon.find? name = some p) :
    Matches lexicon (.reference name) w ↔ Matches lexicon p w := by
  constructor
  · intro hw
    cases hw with
    | reference h' hw =>
      obtain rfl := Option.some.inj (h.symm.trans h')
      exact hw
  · exact .reference h

end Pattern

/-! ### References that can be built -/

namespace Lexicon

variable {lexicon : Lexicon}

/-- The definitions behind a name form a finite tree. -/
inductive Resolves (lexicon : Lexicon) : String → Prop
  | mk {n : String} {p : Pattern} :
    lexicon.find? n = some p → (∀ m ∈ p.references, Resolves lexicon m) → Resolves lexicon n

theorem Resolves.of_refers {n m : String} (h : lexicon.Resolves n) (hr : lexicon.Refers n m) :
    lexicon.Resolves m := by
  obtain ⟨p, hp, hm⟩ := hr
  cases h with
  | mk hp' hrefs =>
    obtain rfl := Option.some.inj (hp.symm.trans hp')
    exact hrefs m hm

theorem Resolves.defined {n : String} (h : lexicon.Resolves n) : ∃ p, lexicon.find? n = some p := by
  cases h with
  | mk hp _ => exact ⟨_, hp⟩

/-- A name behind which there is a finite tree does not lead back to itself. -/
theorem Resolves.acyclic {n : String} (h : lexicon.Resolves n) :
    ¬ Relation.TransGen lexicon.Refers n n := by
  induction h with
  | @mk n p hp _ ih =>
    intro hcycle
    obtain ⟨m, ⟨q, hq, hm⟩, hback⟩ := Relation.TransGen.head'_iff.1 hcycle
    obtain rfl := Option.some.inj (hp.symm.trans hq)
    exact ih m hm (Relation.TransGen.tail' hback ⟨p, hp, hm⟩)

theorem mem_names_of_find? {n : String} {p : Pattern} (h : lexicon.find? n = some p) :
    n ∈ (lexicon.fragments ++ lexicon.tokens).map Definition.name := by
  obtain ⟨d, hd, -⟩ := Option.map_eq_some_iff.1 h
  have hname : d.name = n := by simpa using List.find?_some hd
  exact List.mem_map.2 ⟨d, List.mem_of_find?_eq_some hd, hname⟩

theorem mem_intervals_of_find? {n : String} {p : Pattern} (h : lexicon.find? n = some p)
    {r : Interval} (hr : r ∈ p.intervals) : r ∈ lexicon.intervals := by
  obtain ⟨d, hd, rfl⟩ := Option.map_eq_some_iff.1 h
  exact List.mem_flatMap.2 ⟨d, List.mem_of_find?_eq_some hd, hr⟩

/-- There are finitely many names, so without a cycle the tree behind each is finite. -/
theorem resolves_of_acyclic {n : String}
    (h : ∀ m, Relation.ReflTransGen lexicon.Refers n m →
      (∃ p, lexicon.find? m = some p) ∧ ¬ Relation.TransGen lexicon.Refers m m) :
    lexicon.Resolves n := by
  classical
  generalize hk : ((lexicon.fragments ++ lexicon.tokens).map Definition.name).countP
    (fun m => decide (Relation.TransGen lexicon.Refers n m)) = k
  induction k using Nat.strong_induction_on generalizing n with
  | _ k ih =>
    obtain ⟨p, hp⟩ := (h n .refl).1
    refine .mk hp fun m hm => ?_
    have hnm : lexicon.Refers n m := ⟨p, hp, hm⟩
    have hbehind : ∀ x, Relation.ReflTransGen lexicon.Refers m x →
        (∃ p, lexicon.find? x = some p) ∧ ¬ Relation.TransGen lexicon.Refers x x :=
      fun x hx => h x (.head hnm hx)
    refine ih _ ?_ hbehind rfl
    rw [← hk]
    obtain ⟨⟨q, hq⟩, hcycle⟩ := hbehind m .refl
    apply Exploration.countP_lt_countP (mem_names_of_find? hq)
    · simpa using hcycle
    · simpa using Relation.TransGen.single hnm
    · intro x hx
      simp only [decide_eq_true_eq] at hx ⊢
      exact .head hnm hx

theorem Resolves.of_reflTransGen {n m : String} (h : lexicon.Resolves n)
    (hr : Relation.ReflTransGen lexicon.Refers n m) : lexicon.Resolves m := by
  induction hr with
  | refl => exact h
  | tail _ hstep ih => exact ih.of_refers hstep

theorem resolves_references_iff {p : Pattern} :
    (∀ n ∈ p.references, lexicon.Resolves n) ↔
      ∀ n, lexicon.Needs p n →
        (∃ q, lexicon.find? n = some q) ∧ ¬ Relation.TransGen lexicon.Refers n n := by
  constructor
  · rintro h n ⟨m, hm, hmn⟩
    have hn := (h m hm).of_reflTransGen hmn
    exact ⟨hn.defined, hn.acyclic⟩
  · intro h n hn
    exact resolves_of_acyclic fun m hnm => h m ⟨n, hn, hnm⟩

theorem isDuplicateToken_eq_false_iff {i : Nat} {d : Definition}
    (hd : lexicon.tokens[i]? = some d) :
    lexicon.isDuplicateToken i = false ↔
      (∀ f ∈ lexicon.fragments, f.name ≠ d.name) ∧
        ∀ j < i, ∀ e, lexicon.tokens[j]? = some e → e.name ≠ d.name := by
  have htake : ∀ e, e ∈ lexicon.tokens.take i ↔ ∃ j < i, lexicon.tokens[j]? = some e := by
    intro e
    rw [List.mem_iff_getElem?]
    apply exists_congr
    intro j
    rw [List.getElem?_take]
    split_ifs with hj <;> simp [hj]
  simp only [isDuplicateToken, hd, List.any_eq_false, List.mem_append, decide_eq_true_eq, htake]
  constructor
  · intro h
    exact ⟨fun f hf => h f (Or.inl hf), fun j hj e he => h e (Or.inr ⟨j, hj, he⟩)⟩
  · rintro ⟨hfragments, hearlier⟩ e (he | ⟨j, hj, he⟩)
    · exact hfragments e he
    · exact hearlier j hj e he

theorem live_iff {i : Nat} {d : Definition} (hd : lexicon.tokens[i]? = some d) :
    lexicon.Live i d ↔ lexicon.isDuplicateToken i = false ∧
      (∀ n ∈ d.pattern.references, lexicon.Resolves n) ∧ ¬ d.pattern.Matches lexicon [] := by
  rw [isDuplicateToken_eq_false_iff hd, resolves_references_iff]
  constructor
  · rintro ⟨-, hfragments, hearlier, hdefined, hacyclic, hempty⟩
    exact ⟨⟨hfragments, hearlier⟩, fun n hn => ⟨hdefined n hn, hacyclic n hn⟩, hempty⟩
  · rintro ⟨⟨hfragments, hearlier⟩, hrefs, hempty⟩
    exact ⟨hd, hfragments, hearlier, fun n hn => (hrefs n hn).1, fun n hn => (hrefs n hn).2, hempty⟩

theorem Live.isDuplicateToken_eq_false {i : Nat} {d : Definition} (h : lexicon.Live i d) :
    lexicon.isDuplicateToken i = false :=
  ((live_iff h.token).1 h).1

theorem Live.unique {i : Nat} {d e : Definition} (h : lexicon.Live i d) (h' : lexicon.Live i e) :
    d = e :=
  Option.some.inj (h.token.symm.trans h'.token)

end Lexicon

end SyntaxTables
