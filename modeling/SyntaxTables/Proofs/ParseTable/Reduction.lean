import SyntaxTables.Proofs.ParseTable.Completeness
import SyntaxTables.Proofs.ParseTable.Soundness

/-!
# Reductions at one terminal

While the next terminal stays the same, a run only reduces, and what it does depends on the stack
and on this terminal. So these parts of a run are studied as a relation between stacks. A reduction
replaces the body of a production at the top of the path by its left-hand side.
-/

namespace SyntaxTables.ParseTable

open LrAutomaton

section Table

variable {t : ParseTable} {x : Nat} {ss ss' : List Nat}

/-- One reduction of a stack, with `x` as the next terminal. -/
def Reduces (t : ParseTable) (x : Nat) (ss ss' : List Nat) : Prop :=
  ∃ i p s rest n, (ss.head?.bind fun top => t.action? top x) = some (.reduce i) ∧
    t.productions[i]? = some p ∧ ss.drop p.length = s :: rest ∧ t.goto? s p.lhs = some n ∧
    ss' = n :: s :: rest

theorem running_cases {c c' : Configuration} (h : t.step c = .running c') :
    Admits t c.rest ∧
      ((∃ s, t.action? c.top (c.lookahead t) = some (.shift s) ∧
          c' = { c with
            top := s, below := c.top :: c.below, position := c.position + 1,
            rest := c.rest.tail }) ∨
        t.Reduces (c.lookahead t) c.stack c'.stack ∧ c'.rest = c.rest ∧
          c'.position = c.position) := by
  cases Steps.of_eq h with
  | shift ha hact => exact ⟨ha, Or.inl ⟨_, hact, rfl⟩⟩
  | reduce ha hact hp hbody hgoto =>
    exact ⟨ha, Or.inr ⟨⟨_, _, _, _, _, hact, hp, hbody, hgoto, rfl⟩, rfl, rfl⟩⟩

theorem accepted_cases {c : Configuration} {is : List Nat} (h : t.step c = .accepted is) :
    Admits t c.rest ∧ t.action? c.top (c.lookahead t) = some .accept := by
  cases Steps.of_eq h with
  | accept ha hact => exact ⟨ha, hact⟩

theorem step_of_reduces {c : Configuration} (ha : Admits t c.rest)
    (h : t.Reduces (c.lookahead t) c.stack ss') :
    ∃ c', t.step c = .running c' ∧ c'.stack = ss' ∧ c'.rest = c.rest ∧
      c'.position = c.position := by
  obtain ⟨i, p, s, rest, n, hact, hp, hdrop, hgoto, rfl⟩ := h
  refine ⟨{ c with top := n, below := s :: rest, reduced := i :: c.reduced }, ?_, rfl, rfl, rfl⟩
  rw [step_of_action? ha hact]
  simp only [reduceStep, hp, show (c.top :: c.below).drop p.length = s :: rest from hdrop, hgoto]

theorem lookahead_eq {c c' : Configuration} (h : c'.rest = c.rest) :
    c'.lookahead t = c.lookahead t := by
  rw [Configuration.lookahead, Configuration.lookahead, h]

/-- A stack is not reduced forever. -/
abbrev ReducesFinitely (t : ParseTable) (x : Nat) (ss : List Nat) : Prop :=
  Acc (fun ss' ss => t.Reduces x ss ss') ss

theorem ReducesFinitely.no_cycle (h : t.ReducesFinitely x ss) :
    ¬ Relation.TransGen (t.Reduces x) ss ss := by
  induction h with
  | intro ss _ ih =>
    intro hcycle
    obtain ⟨ss', hred, hback⟩ := Relation.TransGen.head'_iff.1 hcycle
    exact ih ss' hred (.tail' hback hred)

theorem reducesFinitely_of_run {n : Nat} {c : Configuration} {r : Except ParseError (List Nat)}
    (ha : Admits t c.rest) (h : t.run n c = some r) :
    t.ReducesFinitely (c.lookahead t) c.stack := by
  induction n generalizing c with
  | zero => simp [run] at h
  | succ n ih =>
    constructor
    intro ss' hred
    obtain ⟨c', hstep, rfl, hrest, -⟩ := step_of_reduces ha hred
    rw [run, hstep] at h
    rw [← hrest] at ha
    rw [← lookahead_eq hrest]
    exact ih ha h

theorem exists_run_of_step {c c' : Configuration} (hstep : t.step c = .running c')
    (h : ∃ n r, t.run n c' = some r) : ∃ n r, t.run n c = some r := by
  obtain ⟨n, r, hrun⟩ := h
  exact ⟨n + 1, r, by rw [run, hstep]; exact hrun⟩

theorem length_rest_le_of_advance {n : Nat} {c c' : Configuration}
    (h : t.advance n c = some c') : c'.rest.length ≤ c.rest.length := by
  induction n generalizing c with
  | zero =>
    obtain rfl := Option.some.inj h
    exact Nat.le_refl _
  | succ n ih =>
    rw [advance] at h
    split at h
    next c₁ hstep =>
      have hle := ih h
      rcases (running_cases hstep).2 with ⟨s, -, rfl⟩ | ⟨-, hrest, -⟩
      · simp only [List.length_tail] at hle
        omega
      · rwa [hrest] at hle
    next => simp at h

end Table

variable {g : Grammar} {a : LrAutomaton}

section Faithful

variable (h : Faithful g a)

include h

/-- The end of input is not shifted. -/
theorem exists_rest_of_shift (hstart : g.Declares (.nonterminal g.start)) {c : Configuration}
    {n : Nat} (hact : (g.parseTable a).action? c.top (c.lookahead (g.parseTable a)) =
      some (.shift n)) : ∃ x rest, c.rest = x :: rest := by
  have hlt : c.lookahead (g.parseTable a) < g.eof :=
    h.declares hstart (Grammar.supports_of_action? h hact)
  cases hr : c.rest with
  | nil =>
    rw [Configuration.lookahead, hr] at hlt
    exact absurd hlt (Nat.lt_irrefl _)
  | cons x rest => exact ⟨x, rest, rfl⟩

theorem reduces_of_advance (hstart : g.Declares (.nonterminal g.start)) {n : Nat}
    {c c' : Configuration} (hadv : (g.parseTable a).advance n c = some c')
    (hrest : c'.rest = c.rest) :
    Relation.ReflTransGen ((g.parseTable a).Reduces (c.lookahead (g.parseTable a)))
      c.stack c'.stack := by
  induction n generalizing c with
  | zero =>
    obtain rfl := Option.some.inj hadv
    exact .refl
  | succ n ih =>
    rw [advance] at hadv
    split at hadv
    next c₁ hstep =>
      rcases (running_cases hstep).2 with ⟨s, hact, rfl⟩ | ⟨hred, hrest₁, -⟩
      · obtain ⟨x, rest, hr⟩ := exists_rest_of_shift h hstart hact
        have hle := length_rest_le_of_advance hadv
        rw [hrest, hr] at hle
        simp only [List.tail_cons, List.length_cons] at hle
        omega
      · have hmore := ih hadv (hrest.trans hrest₁.symm)
        rw [lookahead_eq hrest₁] at hmore
        exact .head hred hmore
    next => simp at hadv

/-- What a reduction does to a path: the symbols of a body at its end become the left-hand side, and
the item that asked for it began where the body begins. -/
theorem Reduces.exists_production {x : Nat} {ss ss' : List Nat} {γ : List Symbol}
    (hred : (g.parseTable a).Reduces x ss ss') (hs : Stack a ss γ) :
    ∃ i p front s rest n, g.Usable i p ∧ γ = front ++ p.rhs ∧
      (∃ top, ss.head? = some top ∧ a.Holds top ⟨i, p.rhs.length, x⟩) ∧
      ss.drop p.rhs.length = s :: rest ∧ Stack a (s :: rest) front ∧ (∃ b, a.Holds s ⟨i, 0, b⟩) ∧
      a.Edge s (.nonterminal p.lhs) n ∧ ss' = n :: s :: rest := by
  obtain ⟨i, info, s, rest, n, hact, hinfo, hdrop, hgoto, rfl⟩ := hred
  obtain ⟨top, below, rfl⟩ : ∃ top below, ss = top :: below := by
    cases ss with
    | nil => simp at hact
    | cons top below => exact ⟨top, below, rfl⟩
  obtain ⟨hi, hit⟩ := Grammar.supports_of_action? h hact
  obtain ⟨p, hp⟩ := (h.admits hit).production.resolve_left hi
  obtain rfl : Grammar.productionInfo p = info := by
    simpa [Grammar.parseTable, hp.1] using hinfo
  obtain ⟨front, s', rest', rfl, hdrop', hfront, hbegin⟩ := hs.exists_beginning h hit rfl
  rw [List.take_length, Grammar.body_of_usable hp]
  rw [Grammar.body_of_usable hp] at hit hdrop'
  obtain ⟨rfl, rfl⟩ := List.cons.inj (hdrop'.symm.trans hdrop)
  exact ⟨i, p, front, s', rest', n, hp, rfl, ⟨top, rfl, hit⟩, hdrop', hfront, hbegin,
    (Grammar.goto?_parseTable h).1 hgoto, rfl⟩

/-- A completed item asks for a reduction, and without conflicts it gets it. -/
theorem reduces_of_complete (hconflicts : (g.parseTable a).conflicts = []) {i x top : Nat}
    {p : Production} (hp : g.Usable i p) {ss : List Nat} (htop : ss.head? = some top)
    (hit : a.Holds top ⟨i, p.rhs.length, x⟩) {s n : Nat} {rest : List Nat}
    (hdrop : ss.drop p.rhs.length = s :: rest) (he : a.Edge s (.nonterminal p.lhs) n) :
    (g.parseTable a).Reduces x ss (n :: s :: rest) := by
  have hi : i ≠ g.augmented := Nat.ne_of_lt (Grammar.lt_length_of_usable hp)
  rw [← Grammar.body_of_usable hp] at hit
  refine ⟨i, Grammar.productionInfo p, s, rest, n, ?_, ?_, hdrop, ?_, rfl⟩
  · rw [htop]
    exact Grammar.action?_of_complete h hconflicts hi hit
  · simp [Grammar.parseTable, hp.1]
  · exact (Grammar.goto?_parseTable h).2 he

end Faithful

end SyntaxTables.ParseTable
