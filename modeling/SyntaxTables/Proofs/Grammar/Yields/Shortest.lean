import SyntaxTables.Proofs.Grammar.First.Exact
import SyntaxTables.Proofs.Grammar.Yields

/-!
# Shortest strings

The passes are made in place. Where a body yields less than its left-hand side does so far, this is
put down and noted, and as long as anything was noted there is one more pass. Nothing is noted
exactly if a pass leaves all yields as they were, so these passes end with the yields that are
computed. Each of them is the length of a shortest string that is derived, in steps at any places,
as long as there is one and a yield can hold its length.
-/

namespace SyntaxTables.Grammar

variable {g : Grammar} {yields least : Array Nat} {γ δ : List Symbol} {w is : List Nat}

/-! ### Strings derived in any order -/

theorem RewriteStep.forest (h : g.RewriteStep γ δ) (hδ : g.Forest δ w is) :
    ∃ js, g.Forest γ w js := by
  obtain ⟨hp, front, back⟩ := h
  obtain ⟨v, v', js, js', rfl, rfl, hfront, hrest⟩ := hδ.exists_append
  obtain ⟨u, u', ks, ks', rfl, rfl, hbody, hback⟩ := hrest.exists_append
  exact ⟨_, hfront.append (.nonterminal hp hbody hback)⟩

theorem Rightmost.rewrites (h : g.Rightmost γ is δ) : g.Rewrites γ δ := by
  induction h with
  | refl γ => exact .refl
  | step hstep _ ih =>
    obtain ⟨hp, front, back⟩ := hstep
    exact .head (.mk hp front _) ih

theorem rewrites_iff_exists_forest :
    g.Rewrites γ (w.map .terminal) ↔ ∃ is, g.Forest γ w is := by
  constructor
  · intro h
    induction h using Relation.ReflTransGen.head_induction_on with
    | refl => exact ⟨[], forest_terminals w⟩
    | head hstep _ ih =>
      obtain ⟨is, his⟩ := ih
      exact hstep.forest his
  · intro h
    obtain ⟨is, his⟩ := yields_iff_exists_forest.2 h
    exact his.rewrites

/-! ### Passes in place -/

/-- Puts down what the body yields if that is less, and notes it. -/
def noteYield (state : Array Nat × Bool) (p : Production) : Array Nat × Bool :=
  let total := formYield state.1 p.rhs
  if total < symbolYield state.1 (.nonterminal p.lhs) then
    (state.1.setIfInBounds p.lhs total, true)
  else state

/-- Passes in place lead from one array to the other, where nothing is noted any more. -/
inductive LowersTo (g : Grammar) : Array Nat → Array Nat → Prop
  | unchanged {yields least : Array Nat} :
    g.productions.foldl noteYield (yields, false) = (least, false) → LowersTo g yields least
  | changed {yields lower least : Array Nat} :
    g.productions.foldl noteYield (yields, false) = (lower, true) → LowersTo g lower least →
      LowersTo g yields least

theorem LowersTo.unique {least' : Array Nat} (h : g.LowersTo yields least)
    (h' : g.LowersTo yields least') : least = least' := by
  induction h with
  | unchanged hpass =>
    cases h' with
    | unchanged hpass' => exact (Prod.mk.inj (hpass.symm.trans hpass')).1
    | changed hpass' _ => cases hpass.symm.trans hpass'
  | changed hpass _ ih =>
    cases h' with
    | unchanged hpass' => cases hpass.symm.trans hpass'
    | changed hpass' hrest =>
      cases hpass.symm.trans hpass'
      exact ih hrest

theorem symbolYield_eq_getElem {n : Nat} (hn : n < yields.size) :
    symbolYield yields (.nonterminal n) = yields[n] := by
  simp [symbolYield, Array.getD_eq_getD_getElem?, hn]

theorem lowerYield_of_lt {p : Production} (hp : p.lhs < yields.size)
    (h : formYield yields p.rhs < symbolYield yields (.nonterminal p.lhs)) :
    lowerYield yields p = yields.setIfInBounds p.lhs (formYield yields p.rhs) := by
  rw [symbolYield_eq_getElem hp] at h
  apply Array.ext (by simp)
  intro n hn hn'
  have hsize : n < yields.size := by simpa using hn
  rw [Array.getElem_setIfInBounds hsize]
  simp only [lowerYield, Array.getElem_modify]
  split_ifs with heq
  · subst heq
    exact Nat.min_eq_right (Nat.le_of_lt h)
  · rfl

theorem lowerYield_of_le {p : Production} (hp : p.lhs < yields.size)
    (h : symbolYield yields (.nonterminal p.lhs) ≤ formYield yields p.rhs) :
    lowerYield yields p = yields := by
  apply eq_of_symbolYield_eq (size_lowerYield yields p)
  intro n
  rw [symbolYield_lowerYield hp]
  split_ifs with heq
  · subst heq
    exact Nat.min_eq_left h
  · rfl

theorem noteYield_eq {p : Production} (hp : p.lhs < yields.size) (noted : Bool) :
    noteYield (yields, noted) p =
      (lowerYield yields p, noted || decide (lowerYield yields p ≠ yields)) := by
  unfold noteYield
  rcases Nat.lt_or_ge (formYield yields p.rhs) (symbolYield yields (.nonterminal p.lhs)) with
    hlt | hge
  · have hne : lowerYield yields p ≠ yields := by
      intro h
      have hafter := symbolYield_lowerYield hp p.lhs
      rw [h, if_pos rfl] at hafter
      omega
    rw [if_pos hlt, decide_eq_true hne, Bool.or_true, lowerYield_of_lt hp hlt]
  · rw [if_neg (Nat.not_lt.2 hge), lowerYield_of_le hp hge]
    simp

/-- What one production lowers is not raised again by those behind it. -/
theorem foldl_lowerYield_eq_iff {p : Production} {ps : List Production} :
    ps.foldl lowerYield (lowerYield yields p) = yields ↔
      lowerYield yields p = yields ∧
        ps.foldl lowerYield (lowerYield yields p) = lowerYield yields p := by
  constructor
  · intro h
    have hfirst : lowerYield yields p = yields := by
      apply eq_of_symbolYield_eq (size_lowerYield yields p)
      intro n
      have hback := yieldsLe_foldl ps (lowerYield yields p) (.nonterminal n)
      rw [h] at hback
      exact Nat.le_antisymm (yieldsLe_lowerYield yields p (.nonterminal n)) hback
    exact ⟨hfirst, h.trans hfirst.symm⟩
  · rintro ⟨hfirst, hrest⟩
    exact hrest.trans hfirst

/-- Productions that are passed in place lower the yields as they do in a pass, and it is noted
whether they changed any. -/
theorem foldl_noteYield {ps : List Production} (hps : ∀ p ∈ ps, p.lhs < yields.size)
    (noted : Bool) :
    ps.foldl noteYield (yields, noted) =
      (ps.foldl lowerYield yields, noted || decide (ps.foldl lowerYield yields ≠ yields)) := by
  induction ps generalizing yields noted with
  | nil => simp
  | cons p ps ih =>
    obtain ⟨hp, hps⟩ := List.forall_mem_cons.1 hps
    have hrest : ∀ q ∈ ps, q.lhs < (lowerYield yields p).size := by simpa using hps
    have heither : (decide (lowerYield yields p ≠ yields) ||
          decide (ps.foldl lowerYield (lowerYield yields p) ≠ lowerYield yields p)) =
        decide (ps.foldl lowerYield (lowerYield yields p) ≠ yields) := by
      rw [← Bool.decide_or, decide_eq_decide, ne_eq, ne_eq, ← not_and_or]
      exact (not_congr foldl_lowerYield_eq_iff).symm
    rw [List.foldl_cons, List.foldl_cons, noteYield_eq hp, ih hrest, Bool.or_assoc, heither]

theorem foldl_noteYield_productions (hlhs : ∀ p ∈ g.productions, p.lhs < yields.size) :
    g.productions.foldl noteYield (yields, false) =
      (g.yieldPass yields, decide (g.yieldPass yields ≠ yields)) := by
  rw [foldl_noteYield hlhs, Bool.false_or]
  rfl

theorem LowersTo.of_fixed (hlhs : ∀ p ∈ g.productions, p.lhs < yields.size)
    (hfixed : g.yieldPass yields = yields) : g.LowersTo yields yields := by
  apply LowersTo.unchanged
  rw [foldl_noteYield_productions hlhs, hfixed]
  simp

/-- Passes in place end where one more pass changes nothing. -/
theorem lowersTo_iterate (hlhs : ∀ p ∈ g.productions, p.lhs < yields.size) {passes : Nat}
    (hfixed : g.yieldPass (g.yieldPass^[passes] yields) = g.yieldPass^[passes] yields) :
    g.LowersTo yields (g.yieldPass^[passes] yields) := by
  induction passes generalizing yields with
  | zero => exact .of_fixed hlhs hfixed
  | succ passes ih =>
    by_cases hsame : g.yieldPass yields = yields
    · rw [Function.iterate_fixed hsame]
      exact .of_fixed hlhs hsame
    · have hpass := foldl_noteYield_productions hlhs
      rw [decide_eq_true hsame] at hpass
      have hsize : (g.yieldPass yields).size = yields.size := size_foldl_lowerYield _ _
      exact .changed hpass (ih (hsize ▸ hlhs) hfixed)

/-! ### The yields that are computed -/

/-- The lengths of the strings that a non-terminal derives. -/
def derivedLengths (g : Grammar) (n : Nat) : Set Nat :=
  {k | ∃ w : List Nat, g.Rewrites [.nonterminal n] (w.map .terminal) ∧ w.length = k}

theorem symbolYield_minYields_le_endless (n : Nat) :
    symbolYield g.minYields (.nonterminal n) ≤ endlessYield := by
  rw [minYields_eq]
  exact symbolYield_le_endless _ n

theorem getElem?_minYields {n : Nat} (hn : g.Declares (.nonterminal n)) :
    g.minYields[n]? = some (symbolYield g.minYields (.nonterminal n)) := by
  have hlt : n < g.minYields.size := by
    rw [minYields_eq, size_iterate_yieldPass]
    exact hn
  rw [symbolYield_eq_getElem hlt, Array.getElem?_eq_getElem hlt]

section WellFormed

variable (hg : ∀ p ∈ g.productions, g.WellFormed p)

include hg

theorem lowersTo_minYields : g.LowersTo g.endlessYields g.minYields := by
  have hlhs : ∀ p ∈ g.productions, p.lhs < g.endlessYields.size := by
    intro p hp
    have hdeclared : p.lhs < g.nonterminals.length := (hg p hp).1
    simpa [endlessYields] using hdeclared
  rw [← (minYields_spec hg).1]
  exact lowersTo_iterate hlhs (yieldPass_iterate hg)

theorem symbolYield_minYields_le {n k : Nat} (hk : k ∈ g.derivedLengths n) :
    symbolYield g.minYields (.nonterminal n) ≤ k := by
  obtain ⟨w, hw, rfl⟩ := hk
  obtain ⟨is, his⟩ := rewrites_iff_exists_forest.1 hw
  have hle := his.minYield_le hg
  rwa [formYield_singleton, Nat.min_eq_right (symbolYield_minYields_le_endless n)] at hle

theorem symbolYield_minYields_mem {n : Nat}
    (hlt : symbolYield g.minYields (.nonterminal n) < endlessYield) :
    symbolYield g.minYields (.nonterminal n) ∈ g.derivedLengths n := by
  have hattained : g.Attained g.minYields := minYields_eq g ▸ attained_iterate hg _
  obtain ⟨w, is, hw, hlength⟩ := hattained n hlt
  exact ⟨w, rewrites_iff_exists_forest.2 ⟨is, hw⟩, hlength⟩

end WellFormed

/-- The passes end, and only with the yields that are computed. There is one for each non-terminal:
the length of a shortest string that it derives, and the endless yield if it derives none or none
that is shorter than that. -/
theorem minYields_shortest (hg : ∀ p ∈ g.productions, g.WellFormed p) :
    (∀ yields, g.LowersTo g.endlessYields yields ↔ yields = g.minYields) ∧
    g.minYields.size = g.nonterminals.length ∧
    ∀ n, g.Declares (.nonterminal n) → ∃ y, g.minYields[n]? = some y ∧
      (IsLeast (g.derivedLengths n) y ∧ y < endlessYield ∨
        y = endlessYield ∧ ∀ k ∈ g.derivedLengths n, endlessYield ≤ k) := by
  refine ⟨fun yields => ⟨fun h => h.unique (lowersTo_minYields hg), ?_⟩, ?_, ?_⟩
  · rintro rfl
    exact lowersTo_minYields hg
  · rw [minYields_eq, size_iterate_yieldPass]
  · intro n hn
    refine ⟨_, getElem?_minYields hn, ?_⟩
    have hlower : ∀ k ∈ g.derivedLengths n, symbolYield g.minYields (.nonterminal n) ≤ k :=
      fun k hk => symbolYield_minYields_le hg hk
    rcases Nat.lt_or_eq_of_le (symbolYield_minYields_le_endless n) with hlt | heq
    · exact Or.inl ⟨⟨symbolYield_minYields_mem hg hlt, hlower⟩, hlt⟩
    · exact Or.inr ⟨heq, heq ▸ hlower⟩

/-- Sixteen levels, each of which derives sixteen copies of the level below, two non-terminals that
derive each other, and one that derives no string. The lowest level comes behind the others, so
these are settled by the second pass. -/
def tower : Grammar where
  terminals := ["a"]
  nonterminals := (List.range 19).map fun n => s!"N{n}"
  start := 16
  productions :=
    ((List.range 16).map fun n => ⟨.normal, n + 1, List.replicate 16 (.nonterminal n), none⟩) ++
      [⟨.normal, 0, [.nonterminal 17], none⟩, ⟨.normal, 0, [.terminal 0], none⟩,
        ⟨.normal, 17, [.nonterminal 0, .nonterminal 17], none⟩,
        ⟨.normal, 17, [.nonterminal 0, .terminal 0, .nonterminal 0], none⟩,
        ⟨.normal, 18, [.nonterminal 18, .terminal 0], none⟩]

/-- The shortest string of level fifteen has 2⁶⁰ letters. That of level sixteen has sixteen times as
many, which is more than a yield can say. -/
theorem minYields_shortest_tower :
    (∀ p ∈ tower.productions, tower.WellFormed p) ∧
      tower.LowersTo tower.endlessYields tower.minYields ∧
      (∀ n < 19, tower.Declares (.nonterminal n)) ∧
      IsLeast (tower.derivedLengths 15) (2 ^ 60) ∧ IsLeast (tower.derivedLengths 17) 3 ∧
      (∀ k ∈ tower.derivedLengths 16, endlessYield ≤ k) ∧
      ∀ k ∈ tower.derivedLengths 18, endlessYield ≤ k := by
  have hg : ∀ p ∈ tower.productions, tower.WellFormed p := by decide +kernel
  have hdeclared : ∀ n < 19, tower.Declares (.nonterminal n) := by decide +kernel
  obtain ⟨hpasses, -, hentries⟩ := minYields_shortest hg
  have hleast : ∀ {n y : Nat}, n < 19 → tower.minYields[n]? = some y → y < endlessYield →
      IsLeast (tower.derivedLengths n) y := by
    intro n y hn hy hlt
    obtain ⟨_, hget, hcases⟩ := hentries n (hdeclared n hn)
    obtain rfl := Option.some.inj (hget.symm.trans hy)
    exact (hcases.resolve_right fun h => Nat.ne_of_lt hlt h.1).1
  have hendless : ∀ {n : Nat}, n < 19 → tower.minYields[n]? = some endlessYield →
      ∀ k ∈ tower.derivedLengths n, endlessYield ≤ k := by
    intro n hn hy
    obtain ⟨_, hget, hcases⟩ := hentries n (hdeclared n hn)
    obtain rfl := Option.some.inj (hget.symm.trans hy)
    exact (hcases.resolve_left fun h => Nat.lt_irrefl _ h.2).2
  have hyields : tower.minYields[15]? = some (2 ^ 60) ∧ tower.minYields[17]? = some 3 ∧
      tower.minYields[16]? = some endlessYield ∧ tower.minYields[18]? = some endlessYield := by
    decide +kernel
  obtain ⟨hfifteen, hmutual, hsixteen, hnothing⟩ := hyields
  exact ⟨hg, (hpasses _).2 rfl, hdeclared, hleast (by decide) hfifteen (by decide),
    hleast (by decide) hmutual (by decide), hendless (by decide) hsixteen,
    hendless (by decide) hnothing⟩

end SyntaxTables.Grammar
