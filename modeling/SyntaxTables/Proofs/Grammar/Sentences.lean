import SyntaxTables.Proofs.Ascending
import SyntaxTables.Proofs.Exploration.Exhaust
import SyntaxTables.Proofs.Grammar.Yields.Shortest

/-!
# Short sentences and the length of forms

The search for short sentences follows leftmost derivations. Dropping a form for its yield loses
nothing, as no string derived from the form is shorter. Dropping a form for its length does lose
sentences: symbols that derive the empty string can make a form long although what it derives is
short. What is found are the short strings with a leftmost derivation in which no form is longer
than the limit. As long as no form holds many such symbols, these are all short sentences.
-/

namespace SyntaxTables.Grammar

open Exploration (Drains Reaches)

variable {g : Grammar} {γ δ : List Symbol} {w is : List Nat}

/-! ### Leftmost derivations -/

/-- A production replaces the first non-terminal. -/
inductive LeftmostStep (g : Grammar) : List Symbol → List Symbol → Prop
  | mk {i : Nat} {p : Production} (hp : g.Usable i p) (front : List Nat) (back : List Symbol) :
    LeftmostStep g (front.map .terminal ++ .nonterminal p.lhs :: back)
      (front.map .terminal ++ (p.rhs ++ back))

def Leftmost (g : Grammar) : List Symbol → List Symbol → Prop :=
  Relation.ReflTransGen g.LeftmostStep

/-- A leftmost derivation in which no form behind the first one is longer than the limit. -/
def LeftmostWithin (g : Grammar) (limit : Nat) : List Symbol → List Symbol → Prop :=
  Relation.ReflTransGen fun γ δ => g.LeftmostStep γ δ ∧ δ.length ≤ limit

theorem Forest.exists_leftmostStep (h : g.Forest γ w is) :
    γ = w.map .terminal ∨
      ∃ δ js, g.LeftmostStep γ δ ∧ g.Forest δ w js ∧ js.length < is.length := by
  induction h with
  | nil => exact Or.inl rfl
  | terminal a _ ih =>
    rcases ih with rfl | ⟨δ, js, ⟨hp, front, back⟩, hδ, hlt⟩
    · exact Or.inl rfl
    · exact Or.inr ⟨_, js, .mk hp (a :: front) back, .terminal a hδ, hlt⟩
  | @nonterminal i p γ v w is js hp hbody hrest _ _ =>
    refine Or.inr ⟨p.rhs ++ γ, is ++ js, .mk hp [] γ, hbody.append hrest, ?_⟩
    simp

theorem LeftmostStep.exists_body {n : Nat} (h : g.LeftmostStep [.nonterminal n] δ) :
    ∃ p ∈ g.productions, p.lhs = n ∧ δ = p.rhs := by
  generalize hγ : [Symbol.nonterminal n] = γ at h
  obtain ⟨hp, front, back⟩ := h
  cases front with
  | nil =>
    obtain ⟨hlhs, rfl⟩ := List.cons.inj hγ
    exact ⟨_, List.mem_of_getElem? hp.1, (Symbol.nonterminal.inj hlhs).symm, by simp⟩
  | cons a front => simp at hγ

theorem LeftmostStep.rewriteStep (h : g.LeftmostStep γ δ) : g.RewriteStep γ δ := by
  obtain ⟨hp, front, back⟩ := h
  exact .mk hp _ back

theorem Leftmost.exists_forest (h : g.Leftmost γ (w.map .terminal)) : ∃ is, g.Forest γ w is :=
  rewrites_iff_exists_forest.1
    (Relation.ReflTransGen.mono (fun _ _ hstep => hstep.rewriteStep) _ _ h)

theorem LeftmostWithin.leftmost {limit : Nat} (h : g.LeftmostWithin limit γ δ) : g.Leftmost γ δ :=
  Relation.ReflTransGen.mono (fun _ _ hstep => hstep.1) _ _ h

/-- What a forest spells is derived within a limit that all forms on the way keep. -/
theorem Forest.leftmostWithin {limit : Nat} (h : g.Forest γ w is)
    (hlimit : ∀ δ js, g.Leftmost γ δ → g.Forest δ w js → δ.length ≤ limit) :
    g.LeftmostWithin limit γ (w.map .terminal) := by
  generalize hn : is.length = n
  induction n using Nat.strong_induction_on generalizing γ is with
  | _ n ih =>
    rcases h.exists_leftmostStep with rfl | ⟨δ, js, hstep, hδ, hlt⟩
    · exact .refl
    · have hrest := ih js.length (hn ▸ hlt) hδ
        (fun ε ks hε hks => hlimit ε ks (.head hstep hε) hks) rfl
      exact .head ⟨hstep, hlimit δ js (.single hstep) hδ⟩ hrest

/-! ### Expanding forms -/

theorem takeWhile_isTerminal (γ : List Symbol) :
    ∃ front : List Nat, γ.takeWhile Symbol.isTerminal = front.map .terminal := by
  induction γ with
  | nil => exact ⟨[], rfl⟩
  | cons s γ ih =>
    cases s with
    | terminal t =>
      obtain ⟨front, hfront⟩ := ih
      exact ⟨t :: front, by rw [List.takeWhile_cons_of_pos rfl, hfront, List.map_cons]⟩
    | nonterminal n => exact ⟨[], rfl⟩

theorem takeWhile_append_nonterminal (front : List Nat) (n : Nat) (back : List Symbol) :
    (front.map Symbol.terminal ++ .nonterminal n :: back).takeWhile Symbol.isTerminal =
        front.map .terminal ∧
      (front.map Symbol.terminal ++ .nonterminal n :: back).dropWhile Symbol.isTerminal =
        .nonterminal n :: back := by
  have hall : ∀ s ∈ front.map Symbol.terminal, s.isTerminal = true := by
    intro s hs
    obtain ⟨t, -, rfl⟩ := List.mem_map.1 hs
    rfl
  constructor
  · rw [List.takeWhile_append_of_pos hall, List.takeWhile_cons_of_neg (by simp [Symbol.isTerminal]),
      List.append_nil]
  · rw [List.dropWhile_append_of_pos hall, List.dropWhile_cons_of_neg (by simp [Symbol.isTerminal])]

theorem sentence?_terminal (t : Nat) (γ : List Symbol) :
    sentence? (.terminal t :: γ) = (sentence? γ).map (t :: ·) := by
  unfold sentence?
  rw [List.mapM_cons, Option.map_eq_bind]
  rfl

theorem sentence?_eq_some_iff : sentence? γ = some w ↔ γ = w.map .terminal := by
  induction γ generalizing w with
  | nil => cases w <;> simp [sentence?]
  | cons s γ ih =>
    cases s with
    | nonterminal n => cases w <;> simp [sentence?]
    | terminal t =>
      rw [sentence?_terminal, Option.map_eq_some_iff]
      cases w with
      | nil => simp
      | cons a w => simp [ih, and_comm, eq_comm]

section WellFormed

variable (hg : ∀ p ∈ g.productions, g.WellFormed p)

include hg

/-- The expansions of a form are the leftmost steps to forms that are not too long and whose yield
is not too large. -/
theorem mem_expansions {yields : Array Nat} {maxLength : Nat} :
    δ ∈ g.expansions yields maxLength γ ↔
      g.LeftmostStep γ δ ∧ δ.length ≤ formLimit maxLength ∧ formYield yields δ ≤ maxLength := by
  constructor
  · intro hδ
    unfold expansions at hδ
    split at hδ
    next n back hdrop =>
      obtain ⟨hnext, hkeep⟩ := List.mem_filter.1 hδ
      obtain ⟨p, hp, rfl⟩ := List.mem_map.1 hnext
      obtain ⟨hmem, hlhs⟩ := List.mem_filter.1 hp
      obtain ⟨i, husable⟩ := exists_usable hg hmem
      obtain ⟨front, hfront⟩ := takeWhile_isTerminal γ
      refine ⟨?_, of_decide_eq_true hkeep⟩
      have hγ : γ = front.map .terminal ++ .nonterminal p.lhs :: back := by
        rw [of_decide_eq_true hlhs, ← hfront, ← hdrop, List.takeWhile_append_dropWhile]
      rw [hfront, List.append_assoc, hγ]
      exact .mk husable front back
    next => simp at hδ
  · rintro ⟨@⟨i, p, hp, front, back⟩, hlength, hyield⟩
    obtain ⟨htake, hdrop⟩ := takeWhile_append_nonterminal front p.lhs back
    unfold expansions
    rw [hdrop]
    refine List.mem_filter.2 ⟨List.mem_map.2 ⟨p, ?_, ?_⟩, decide_eq_true ⟨hlength, hyield⟩⟩
    · exact List.mem_filter.2 ⟨List.mem_of_getElem? hp.1, by simp⟩
    · rw [htake, List.append_assoc]

theorem leftmostWithin_of_reaches {maxLength : Nat}
    (h : Reaches (g.expansions g.minYields maxLength) γ δ) :
    g.LeftmostWithin (formLimit maxLength) γ δ :=
  Relation.ReflTransGen.mono (fun _ _ hstep => ⟨((mem_expansions hg).1 hstep).1,
    ((mem_expansions hg).1 hstep).2.1⟩) _ _ h

/-- A form that derives a short string is not dropped for its yield. -/
theorem reaches_of_leftmostWithin {maxLength : Nat} (hw : w.length ≤ maxLength)
    (h : g.LeftmostWithin (formLimit maxLength) γ (w.map .terminal)) :
    Reaches (g.expansions g.minYields maxLength) γ (w.map .terminal) := by
  induction h using Relation.ReflTransGen.head_induction_on with
  | refl => exact .refl
  | @head γ δ hstep hrest ih =>
    obtain ⟨is, his⟩ := Leftmost.exists_forest (LeftmostWithin.leftmost hrest)
    refine .head ((mem_expansions hg).2 ⟨hstep.1, hstep.2, ?_⟩) ih
    exact Nat.le_trans (his.minYield_le hg) hw

theorem mem_sentences_iff {maxLength : Nat} :
    w ∈ g.sentences maxLength ↔ w.length ≤ maxLength ∧
      g.LeftmostWithin (formLimit maxLength) [.nonterminal g.start] (w.map .terminal) := by
  simp only [sentences, Ascending.mem_ofList, List.mem_filterMap, sentence?_eq_some_iff,
    exists_eq_right, Exploration.mem_exhaust]
  constructor
  · intro h
    refine ⟨?_, leftmostWithin_of_reaches hg h⟩
    rcases Relation.ReflTransGen.cases_tail h with heq | ⟨γ, -, hlast⟩
    · cases w <;> simp at heq
    · -- the last form is no longer than the limit, so its yield is its length
      obtain ⟨-, hlength, hyield⟩ := (mem_expansions hg).1 hlast
      have hlimit : formLimit maxLength < sizeLimit := Nat.mod_lt _ (by decide)
      rw [List.length_map] at hlength
      rw [formYield_terminals, endlessYield] at hyield
      omega
  · rintro ⟨hw, h⟩
    exact reaches_of_leftmostWithin hg hw h

end WellFormed

/-! ### Forms with few symbols that vanish -/

/-- The symbols of a form that derive the empty string are what makes it longer than the string. -/
theorem Forest.exists_vanishing (h : g.Forest γ w is) :
    ∃ δ js, δ.Sublist γ ∧ g.Forest δ [] js ∧ γ.length ≤ w.length + δ.length := by
  induction h with
  | nil => exact ⟨[], [], .slnil, .nil, Nat.le_refl _⟩
  | terminal a _ ih =>
    obtain ⟨δ, js, hsub, hδ, hle⟩ := ih
    refine ⟨δ, js, hsub.cons _, hδ, ?_⟩
    simp only [List.length_cons]
    omega
  | @nonterminal i p γ v w is js hp hbody _ _ ih =>
    obtain ⟨δ, ks, hsub, hδ, hle⟩ := ih
    cases v with
    | nil =>
      have htree := Forest.nonterminal hp hbody hδ
      refine ⟨_, _, hsub.cons_cons _, htree, ?_⟩
      simp only [List.length_cons, List.nil_append]
      omega
    | cons a v =>
      refine ⟨δ, ks, hsub.cons _, hδ, ?_⟩
      simp only [List.length_cons, List.length_append]
      omega

/-- No form that the start symbol derives holds more symbols that vanish than the limit has room
for. -/
def VanishesSparsely (g : Grammar) (maxLength : Nat) : Prop :=
  ∀ γ δ : List Symbol, g.Leftmost [.nonterminal g.start] γ → δ.Sublist γ → g.Yields δ [] →
    δ.length ≤ maxLength + 4

theorem VanishesSparsely.leftmostWithin {maxLength : Nat} (h : g.VanishesSparsely maxLength)
    (hsize : 2 * maxLength + 4 < sizeLimit) (hw : w.length ≤ maxLength)
    (hyields : g.Yields [.nonterminal g.start] w) :
    g.LeftmostWithin (formLimit maxLength) [.nonterminal g.start] (w.map .terminal) := by
  obtain ⟨is, his⟩ := yields_iff_exists_forest.1 hyields
  refine his.leftmostWithin fun γ js hγ hforest => ?_
  obtain ⟨δ, ks, hsub, hδ, hle⟩ := hforest.exists_vanishing
  have hfew := h γ δ hγ hsub (yields_iff_exists_forest.2 ⟨ks, hδ⟩)
  rw [formLimit, Nat.mod_eq_of_lt hsize]
  omega

theorem Forest.countP_isTerminal_le (h : g.Forest γ w is) :
    γ.countP Symbol.isTerminal ≤ w.length := by
  induction h with
  | nil => exact Nat.le_refl _
  | terminal a _ ih =>
    rw [List.countP_cons_of_pos rfl, List.length_cons]
    exact Nat.succ_le_succ ih
  | nonterminal _ _ _ _ ih =>
    rw [List.countP_cons_of_neg (by simp [Symbol.isTerminal]), List.length_append]
    exact Nat.le_add_left_of_le ih

theorem countP_not_isTerminal_of_leftmost
    (hlinear : ∀ p ∈ g.productions, (p.rhs.countP fun s => !s.isTerminal) ≤ 1)
    (h : g.Leftmost γ δ) (hγ : (γ.countP fun s => !s.isTerminal) ≤ 1) :
    (δ.countP fun s => !s.isTerminal) ≤ 1 := by
  induction h with
  | refl => exact hγ
  | tail _ hstep ih =>
    obtain ⟨hp, front, back⟩ := hstep
    have hbody := hlinear _ (List.mem_of_getElem? hp.1)
    rw [List.countP_append, List.countP_cons_of_pos rfl] at ih
    rw [List.countP_append, List.countP_append]
    omega

/-- In a linear grammar a form has at most one non-terminal, so hardly anything vanishes. -/
theorem vanishesSparsely_of_linear
    (hlinear : ∀ p ∈ g.productions, (p.rhs.countP fun s => !s.isTerminal) ≤ 1) (maxLength : Nat) :
    g.VanishesSparsely maxLength := by
  intro γ δ hγ hsub hδ
  obtain ⟨is, his⟩ := yields_iff_exists_forest.1 hδ
  have hterminals := his.countP_isTerminal_le
  have hform := countP_not_isTerminal_of_leftmost hlinear hγ (Nat.le_refl 1)
  have hpart : (δ.countP fun s => !s.isTerminal) ≤ γ.countP fun s => !s.isTerminal :=
    hsub.countP_le
  have hlength := List.length_eq_countP_add_countP Symbol.isTerminal (l := δ)
  simp only [List.length_nil, Bool.not_eq_true, Bool.decide_eq_false] at hterminals hlength
  omega

/-- The passes over the productions end, and so does the search. It finds exactly the short strings
that are derived through forms within the limit, which are all short sentences if the symbols that
vanish are sparse. -/
theorem sentences_exact (hg : ∀ p ∈ g.productions, g.WellFormed p) (maxLength : Nat) :
    ((∃ passes, g.yieldPass^[passes] g.endlessYields = g.minYields) ∧
      g.yieldPass g.minYields = g.minYields) ∧
    (∃ forms, Drains (g.expansions g.minYields maxLength) [] [[.nonterminal g.start]] forms ∧
      ∀ w, w ∈ g.sentences maxLength ↔ ∃ γ ∈ forms, sentence? γ = some w) ∧
    (g.sentences maxLength).Pairwise (fun v w => compare v w = .lt) ∧
    (∀ w, w ∈ g.sentences maxLength ↔ w.length ≤ maxLength ∧
      g.LeftmostWithin (formLimit maxLength) [.nonterminal g.start] (w.map .terminal)) ∧
    (∀ w ∈ g.sentences maxLength, w.length ≤ maxLength ∧ g.Yields [.nonterminal g.start] w) ∧
    (2 * maxLength + 4 < sizeLimit → g.VanishesSparsely maxLength →
      ∀ w, w ∈ g.sentences maxLength ↔
        w.length ≤ maxLength ∧ g.Yields [.nonterminal g.start] w) := by
  have hsound : ∀ w ∈ g.sentences maxLength,
      w.length ≤ maxLength ∧ g.Yields [.nonterminal g.start] w := by
    intro w hw
    obtain ⟨hlength, hleftmost⟩ := (mem_sentences_iff hg).1 hw
    exact ⟨hlength, yields_iff_exists_forest.2 (Leftmost.exists_forest hleftmost.leftmost)⟩
  obtain ⟨hpasses, hfixed⟩ := minYields_spec hg
  refine ⟨⟨⟨_, hpasses⟩, hfixed⟩, ?_, Ascending.pairwise_ofList _, fun w => mem_sentences_iff hg,
    hsound, fun hsize hsparse w => ⟨hsound w, fun ⟨hlength, hyields⟩ => ?_⟩⟩
  · obtain ⟨forms, hdrains, hforms⟩ := Exploration.exists_drains
      (g.enclosed_expansions g.minYields maxLength) (g.fits_start maxLength)
    refine ⟨forms, hdrains, fun w => ?_⟩
    simp only [sentences, Ascending.mem_ofList, List.mem_filterMap, hforms]
  · exact (mem_sentences_iff hg).2 ⟨hlength, hsparse.leftmostWithin hsize hlength hyields⟩

/-- Lists of marks. One non-terminal derives itself and the empty string, and another one derives no
string. -/
def marks : Grammar where
  terminals := ["a", "b"]
  nonterminals := ["S", "A", "U"]
  start := 0
  productions := [⟨.normal, 0, [.nonterminal 0, .terminal 0], none⟩,
    ⟨.normal, 0, [.nonterminal 1], none⟩, ⟨.normal, 1, [.nonterminal 1], none⟩,
    ⟨.normal, 1, [], none⟩, ⟨.normal, 1, [.nonterminal 2], none⟩,
    ⟨.normal, 2, [.terminal 1, .nonterminal 2], none⟩]

/-- Two marks are found, and forms that derive nothing end the search as well. -/
theorem sentences_exact_marks :
    (∀ p ∈ marks.productions, marks.WellFormed p) ∧ marks.VanishesSparsely 3 ∧
      (∀ w, w ∈ marks.sentences 3 ↔ w.length ≤ 3 ∧ marks.Yields [.nonterminal 0] w) ∧
      [0, 0] ∈ marks.sentences 3 := by
  have hg : ∀ p ∈ marks.productions, marks.WellFormed p := by decide
  have hsparse : marks.VanishesSparsely 3 := vanishesSparsely_of_linear (by decide) 3
  obtain ⟨-, -, -, -, -, hexact⟩ := sentences_exact hg 3
  have hall := hexact (by decide) hsparse
  have hunit : marks.Usable 1 ⟨.normal, 0, [.nonterminal 1], none⟩ := ⟨rfl, by decide⟩
  have hend : marks.Usable 3 ⟨.normal, 1, [], none⟩ := ⟨rfl, by decide⟩
  have hmore : marks.Usable 0 ⟨.normal, 0, [.nonterminal 0, .terminal 0], none⟩ :=
    ⟨rfl, by decide⟩
  have hnone := Forest.nonterminal hunit (.nonterminal hend .nil .nil) .nil
  have hmark : ∀ w is, marks.Forest [.nonterminal 0] w is →
      ∃ js, marks.Forest [.nonterminal 0] (w ++ [0]) js := by
    intro w is h
    have htree := Forest.nonterminal hmore (h.append (.terminal 0 .nil)) .nil
    rw [List.append_nil] at htree
    exact ⟨_, htree⟩
  obtain ⟨js, hone⟩ := hmark [] _ hnone
  exact ⟨hg, hsparse, hall, (hall [0, 0]).2
    ⟨by decide, yields_iff_exists_forest.2 (hmark [0] js hone)⟩⟩

/-- A sentence that is empty because all of its five parts are. -/
def fiveParts : Grammar where
  terminals := []
  nonterminals := ["S", "A"]
  start := 0
  productions := [⟨.normal, 0, List.replicate 5 (.nonterminal 1), none⟩, ⟨.normal, 1, [], none⟩]

/-- The empty sentence is derived, but the only form on the way to it is longer than the limit. -/
theorem sentences_fiveParts :
    fiveParts.Declares (.nonterminal fiveParts.start) ∧
      (∀ p ∈ fiveParts.productions, fiveParts.WellFormed p) ∧
      fiveParts.Yields [.nonterminal fiveParts.start] [] ∧ fiveParts.sentences 0 = [] := by
  have hg : ∀ p ∈ fiveParts.productions, fiveParts.WellFormed p := by decide
  refine ⟨by decide, hg, ?_, ?_⟩
  · have hstart : fiveParts.Usable 0 ⟨.normal, 0, List.replicate 5 (.nonterminal 1), none⟩ :=
      ⟨rfl, by decide⟩
    have hpart : fiveParts.Usable 1 ⟨.normal, 1, [], none⟩ := ⟨rfl, by decide⟩
    have hparts : ∀ n, ∃ is, fiveParts.Forest (List.replicate n (.nonterminal 1)) [] is := by
      intro n
      induction n with
      | zero => exact ⟨[], .nil⟩
      | succ n ih =>
        obtain ⟨is, his⟩ := ih
        exact ⟨_, .nonterminal hpart .nil his⟩
    obtain ⟨is, his⟩ := hparts 5
    exact yields_iff_exists_forest.2 ⟨_, .nonterminal hstart his .nil⟩
  · rw [List.eq_nil_iff_forall_not_mem]
    intro w hw
    obtain ⟨-, hleftmost⟩ := (mem_sentences_iff hg).1 hw
    rcases Relation.ReflTransGen.cases_head hleftmost with heq | ⟨γ, ⟨hstep, hlength⟩, -⟩
    · cases w <;> simp at heq
    · obtain ⟨p, hp, hlhs, rfl⟩ := hstep.exists_body
      have hlong : ∀ p ∈ fiveParts.productions, p.lhs = 0 → ¬ p.rhs.length ≤ formLimit 0 := by
        decide
      exact hlong p hp hlhs hlength

end SyntaxTables.Grammar
