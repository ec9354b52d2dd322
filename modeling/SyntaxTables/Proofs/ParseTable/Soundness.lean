import SyntaxTables.ParseTable.Verdict.Agreement
import SyntaxTables.Proofs.ParseTable.Fill

/-!
# An accepted input is derived

At any time the states on the stack are a path of the automaton. The symbols on it, followed by the
input to come, derive the whole input by the productions reduced so far, the latest first. A
reduction finds the body of its production on the stack, because the item that asked for it goes
back along the path to where it begins, whichever states were merged and however a conflict was
settled.
-/

namespace SyntaxTables.ParseTable

open LrAutomaton

variable {g : Grammar} {a : LrAutomaton} {input : List Nat}

/-- What holds of every configuration of a parse of the input. -/
def Derives (g : Grammar) (a : LrAutomaton) (input : List Nat) (c : Configuration) : Prop :=
  ∃ γ, Stack a c.stack γ ∧
    g.Rightmost (γ ++ c.rest.map .terminal) c.reduced (input.map .terminal)

theorem derives_initial (g : Grammar) (a : LrAutomaton) (input : List Nat) :
    Derives g a input (.initial input) :=
  ⟨[], .bottom, .refl _⟩

theorem rest_of_lookahead {t : ParseTable} {c : Configuration} (h : Admits t c.rest) :
    c.rest = [] ∧ c.lookahead t = t.eof ∨
      ∃ x rest, c.rest = x :: rest ∧ c.lookahead t = x ∧ x < t.eof := by
  cases hr : c.rest with
  | nil => exact Or.inl ⟨rfl, by simp [Configuration.lookahead, hr]⟩
  | cons x rest =>
    refine Or.inr ⟨x, rest, rfl, by simp [Configuration.lookahead, hr], ?_⟩
    simpa [Admits, hr] using h

section Step

variable (h : Faithful g a) {c : Configuration}

include h

theorem Derives.shift (hstart : g.Declares (.nonterminal g.start)) (hc : Derives g a input c)
    (hadmits : Admits (g.parseTable a) c.rest) {t : Nat}
    (he : a.Edge c.top (.terminal (c.lookahead (g.parseTable a))) t) :
    Derives g a input { c with
      top := t, below := c.top :: c.below, position := c.position + 1, rest := c.rest.tail } := by
  obtain ⟨γ, hstack, hderives⟩ := hc
  have hlt : c.lookahead (g.parseTable a) < g.eof := h.declares hstart he
  rcases rest_of_lookahead hadmits with ⟨-, heof⟩ | ⟨x, rest, hrest, hx, -⟩
  · rw [heof] at hlt
    exact absurd hlt (Nat.lt_irrefl _)
  · refine ⟨γ ++ [.terminal x], .push hstack (hx ▸ he), ?_⟩
    rw [hrest] at hderives ⊢
    simpa using hderives

theorem Derives.reduce (hc : Derives g a input c) {i s next : Nat} {below : List Nat}
    {info : ProductionInfo} (hi : i ≠ g.augmented)
    (hit : a.Holds c.top ⟨i, (g.body i).length, c.lookahead (g.parseTable a)⟩)
    (hinfo : (g.parseTable a).productions[i]? = some info)
    (hbody : c.stack.drop info.length = s :: below)
    (hgoto : (g.parseTable a).goto? s info.lhs = some next) :
    Derives g a input { c with top := next, below := s :: below, reduced := i :: c.reduced } := by
  obtain ⟨γ, hstack, hderives⟩ := hc
  obtain ⟨p, hp⟩ := (h.admits hit).production.resolve_left hi
  obtain ⟨front, s', below', rfl, hdrop, hfront, -⟩ := hstack.exists_beginning h hit rfl
  obtain rfl : Grammar.productionInfo p = info := by
    simpa [Grammar.parseTable, hp.1] using hinfo
  rw [List.take_length, Grammar.body_of_usable hp] at hderives
  rw [Grammar.body_of_usable hp] at hdrop
  obtain ⟨rfl, rfl⟩ := List.cons.inj (hdrop.symm.trans hbody)
  have he := (Grammar.goto?_parseTable h).1 hgoto
  refine ⟨front ++ [.nonterminal p.lhs], .push hfront he, ?_⟩
  have hfirst := Grammar.RightmostStep.mk hp front c.rest
  rw [List.append_assoc] at hderives ⊢
  exact .step hfirst hderives

theorem Derives.step (hstart : g.Declares (.nonterminal g.start)) (hc : Derives g a input c)
    {c' : Configuration} (hstep : (g.parseTable a).step c = .running c') :
    Derives g a input c' := by
  cases Steps.of_eq hstep with
  | shift hadmits hact =>
    exact hc.shift h hstart hadmits (Grammar.supports_of_action? h hact)
  | reduce _ hact hinfo hbody hgoto =>
    obtain ⟨hi, hit⟩ := Grammar.supports_of_action? h hact
    exact hc.reduce h hi hit hinfo hbody hgoto

theorem Derives.accepted (hc : Derives g a input c) {is : List Nat}
    (hstep : (g.parseTable a).step c = .accepted is) :
    g.Rightmost [.nonterminal g.start] is.reverse (input.map .terminal) := by
  obtain ⟨γ, hstack, hderives⟩ := hc
  cases Steps.of_eq hstep with
  | accept hadmits hact =>
    obtain ⟨heof, hit⟩ := Grammar.supports_of_action? h hact
    obtain ⟨front, s, ss, rfl, -, hfront, b, hs⟩ := hstack.exists_beginning h hit rfl
    obtain rfl : s = 0 := h.only_start hs rfl
    have hempty : front = [] := by
      cases hfront with
      | bottom => rfl
      | push _ he => exact absurd rfl (h.enters he).2
    have hrest : c.rest = [] := by
      rcases rest_of_lookahead hadmits with ⟨hrest, -⟩ | ⟨x, rest, -, hx, hlt⟩
      · exact hrest
      · rw [heof] at hx
        exact absurd (hx ▸ hlt) (Nat.lt_irrefl _)
    rw [List.reverse_reverse]
    simpa [hempty, hrest, Grammar.body_augmented] using hderives

theorem Derives.run (hstart : g.Declares (.nonterminal g.start)) (hc : Derives g a input c)
    {steps : Nat} {is : List Nat} (hrun : (g.parseTable a).run steps c = some (.ok is)) :
    g.Rightmost [.nonterminal g.start] is.reverse (input.map .terminal) := by
  induction steps generalizing c with
  | zero => simp [ParseTable.run] at hrun
  | succ steps ih =>
    rw [ParseTable.run] at hrun
    split at hrun
    next hstep => exact ih (hc.step h hstart hstep) hrun
    next hstep =>
      obtain rfl : _ = is := by simpa using hrun
      exact hc.accepted h hstep
    next => simp at hrun

end Step

/-- If a run of a built table accepts, the input has declared terminals only, and the productions it
reduced, read backwards, are a rightmost derivation of the input from the start symbol. -/
theorem rightmost_of_run {settings : ParserSettings} {t : ParseTable} {reports : List Diagnostic}
    (h : g.buildParser settings = (.ok t, reports)) {steps : Nat} {is : List Nat}
    (hrun : t.run steps (.initial input) = some (.ok is)) :
    (∀ x ∈ input, x < g.terminals.length) ∧
      g.Rightmost [.nonterminal g.start] is.reverse (input.map .terminal) := by
  obtain ⟨hstart, a, ha, rfl⟩ := Grammar.exists_of_buildParser h
  have hderives := (derives_initial g a input).run ha hstart hrun
  refine ⟨?_, hderives⟩
  intro x hx
  exact hderives.declares (by simpa using hstart) (.terminal x) (List.mem_map_of_mem hx)

/-- Sums, which can be read from the left or from the right. -/
def sums : Grammar where
  terminals := ["n", "+"]
  nonterminals := ["S"]
  start := 0
  productions := [⟨.normal, 0, [.nonterminal 0, .terminal 1, .nonterminal 0], none⟩,
    ⟨.normal, 0, [.terminal 0], none⟩]

theorem rightmost_of_run_sums :
    (sums.parseTable (sums.lrAutomaton {})).conflicts ≠ [] ∧
      sums.Rightmost [.nonterminal 0] [0, 0, 1, 1, 1] ([0, 1, 0, 1, 0].map .terminal) := by
  have hbuilt : sums.buildParser {} =
      (.ok (sums.parseTable (sums.lrAutomaton {})), (sums.buildParser {}).2) := rfl
  have hrun : (sums.parseTable (sums.lrAutomaton {})).run 12 (.initial [0, 1, 0, 1, 0]) =
      some (.ok [1, 1, 1, 0, 0]) := by decide +kernel
  exact ⟨by decide +kernel, (rightmost_of_run hbuilt hrun).2⟩

end SyntaxTables.ParseTable
