import SyntaxTables.Proofs.ParseTable.Failure

/-!
# Ways out that are never taken

The driver guards against tables that name what they do not have. In a table that was filled from a
grammar all these guards are idle: what the cells name is there, and as the stack is a path of the
automaton at any time, a reduction finds its body on it and below the body a state that goes on with
the left-hand side. So a parse fails at a terminal without an action only, with or without
conflicts, merged or not.
-/

namespace SyntaxTables.ParseTable

open LrAutomaton

/-! ### Tables -/

/-- All that the cells of a table name is there: states have rows, and productions are declared. -/
structure SelfContained (g : Grammar) (t : ParseTable) : Prop where
  shift_lt : ∀ {s x n}, t.action? s x = some (.shift n) → n < t.stateCount
  goto_lt : ∀ {s n m}, t.goto? s n = some m → m < t.stateCount
  declared : ∀ {s x i}, t.action? s x = some (.reduce i) →
    ∃ p, g.Usable i p ∧ t.productions[i]? = some (Grammar.productionInfo p)

variable {g : Grammar} {a : LrAutomaton}

theorem stateCount_parseTable (g : Grammar) (a : LrAutomaton) :
    (g.parseTable a).stateCount = a.states.length := by
  simp [stateCount, Grammar.parseTable, placements]

theorem selfContained_parseTable (h : Faithful g a) : SelfContained g (g.parseTable a) where
  shift_lt := by
    intro s x n hact
    rw [stateCount_parseTable]
    exact (h.enters (Grammar.supports_of_action? h hact)).1
  goto_lt := by
    intro s n m hgoto
    rw [stateCount_parseTable]
    exact (h.enters ((Grammar.goto?_parseTable h).1 hgoto)).1
  declared := by
    intro s x i hact
    obtain ⟨hi, hit⟩ := Grammar.supports_of_action? h hact
    obtain ⟨p, hp⟩ := (h.admits hit).production.resolve_left hi
    exact ⟨p, hp, by simp [Grammar.parseTable, hp.1]⟩

/-! ### Configurations -/

/-- Nothing that a step looks up is missing, and if it fails nevertheless, the next terminal is to
blame. -/
structure Configuration.Safe (t : ParseTable) (c : Configuration) : Prop where
  on_stack : ∀ s ∈ c.stack, s < t.stateCount
  reduces : ∀ {i}, t.action? c.top (c.lookahead t) = some (.reduce i) →
    ∃ p s below next, t.productions[i]? = some p ∧ c.stack.drop p.length = s :: below ∧
      t.goto? s p.lhs = some next
  failed : ∀ {e}, t.step c = .failed e → e = c.fail t .unexpectedTerminal ∧
    ((∃ x, c.rest.head? = some x ∧ t.eof ≤ x) ∨ t.action? c.top (c.lookahead t) = none)

/-- A path of the automaton on the stack is all that safety takes. -/
theorem safe_of_stack (h : Faithful g a) (hg : Grounded g a) {c : Configuration} {γ : List Symbol}
    (hstack : Stack a c.stack γ) : c.Safe (g.parseTable a) where
  on_stack := by
    rw [stateCount_parseTable]
    exact hstack.forall_lt h
  reduces := by
    intro i hact
    obtain ⟨ss', j, p, s, below, next, hact', hp, hdrop, hgoto, -⟩ :=
      exists_reduces h hg hstack hact
    obtain rfl : j = i := by simpa using hact'.symm.trans hact
    exact ⟨p, s, below, next, hp, hdrop, hgoto⟩
  failed := by
    intro e hstep
    cases Steps.of_eq hstep with
    | refuse hinactive =>
      refine ⟨rfl, ?_⟩
      by_cases ha : Admits (g.parseTable a) c.rest
      · exact Or.inr (hinactive ha)
      · exact Or.inl (by simpa [Admits, Option.any_eq_true] using ha)
    | lack ha hact =>
      rw [action?_eq_none_of_failed h hg hstack hstep ha] at hact
      simp at hact

theorem rest_of_advance {t : ParseTable} {n : Nat} {c c' : Configuration} {input : List Nat}
    (hadv : t.advance n c = some c') (hc : c.rest = input.drop c.position) :
    c'.rest = input.drop c'.position := by
  induction n generalizing c with
  | zero =>
    obtain rfl := Option.some.inj hadv
    exact hc
  | succ n ih =>
    rw [advance] at hadv
    split at hadv
    next c₁ hstep =>
      apply ih hadv
      rcases (running_cases hstep).2 with ⟨s, -, rfl⟩ | ⟨-, hrest, hposition⟩
      · rw [hc, List.tail_drop]
      · rw [hrest, hposition, hc]
    next => simp at hadv

/-! ### Parses -/

/-- The tables built for a grammar are safe to run. Of the errors of the driver only the first comes
up: at a terminal that is no terminal of the grammar, or without an action. -/
theorem buildParser_safe {settings : ParserSettings} {t : ParseTable} {reports : List Diagnostic}
    (h : g.buildParser settings = (.ok t, reports)) :
    SelfContained g t ∧ ∀ input,
      (∀ n c, t.advance n (.initial input) = some c → c.Safe t) ∧
      ∀ n e, t.run n (.initial input) = some (.error e) →
        e.cause = .unexpectedTerminal ∧ e.terminal = input.getD e.position t.eof ∧
          ((∃ x, input[e.position]? = some x ∧ t.eof ≤ x) ∨
            t.action? e.state e.terminal = none) := by
  obtain ⟨hstart, rfl⟩ := Grammar.eq_of_buildParser h
  have hfaithful := Grammar.faithful_lrAutomaton hstart settings
  have hgrounded := Grammar.grounded_lrAutomaton hstart settings
  have hsafe : ∀ input n c, (g.parseTable (g.lrAutomaton settings)).advance n (.initial input) =
      some c → c.Safe (g.parseTable (g.lrAutomaton settings)) := by
    intro input n c hadv
    have hderives := derives_initial g (g.lrAutomaton settings) input
    obtain ⟨γ, hstack, -⟩ := hderives.advance hfaithful hstart hadv
    exact safe_of_stack hfaithful hgrounded hstack
  refine ⟨selfContained_parseTable hfaithful, fun input => ⟨hsafe input, ?_⟩⟩
  intro n e hrun
  obtain ⟨m, c, hadv, hfailed⟩ := exists_failed_of_run hrun
  have hrest : c.rest = input.drop c.position := rest_of_advance hadv rfl
  obtain ⟨rfl, hcause⟩ := (hsafe input m c hadv).failed hfailed
  refine ⟨rfl, ?_, ?_⟩
  · change c.rest.headD _ = input.getD c.position _
    rw [hrest, List.headD_eq_head?_getD, List.head?_drop, List.getD_eq_getElem?_getD]
  · rwa [hrest, List.head?_drop] at hcause

/-- Conditionals, whose last part can belong to either of two. -/
def conditionals : Grammar where
  terminals := ["if", "else", "s"]
  nonterminals := ["S"]
  start := 0
  productions := [⟨.normal, 0, [.terminal 0, .nonterminal 0], none⟩,
    ⟨.normal, 0, [.terminal 0, .nonterminal 0, .terminal 1, .nonterminal 0], none⟩,
    ⟨.normal, 0, [.terminal 2], none⟩]

/-- One conflict was settled in its table, and an `s` behind an `s` fails for want of an action. -/
theorem buildParser_safe_conditionals :
    (conditionals.parseTable conditionals.canonicalLr.mergeCores).conflicts.length = 1 ∧
      SelfContained conditionals (conditionals.parseTable conditionals.canonicalLr.mergeCores) ∧
      (∀ input n c, (conditionals.parseTable conditionals.canonicalLr.mergeCores).advance n
        (.initial input) = some c →
          c.Safe (conditionals.parseTable conditionals.canonicalLr.mergeCores)) ∧
      (conditionals.parseTable conditionals.canonicalLr.mergeCores).action? 2 2 = none := by
  have hbuilt : conditionals.buildParser {} =
      (.ok (conditionals.parseTable conditionals.canonicalLr.mergeCores),
        (conditionals.buildParser {}).2) := rfl
  have hrun : (conditionals.parseTable conditionals.canonicalLr.mergeCores).run 12
      (.initial [0, 2, 2]) = some (.error ⟨.unexpectedTerminal, 2, 2, 2⟩) := by decide +kernel
  obtain ⟨hcontained, hparses⟩ := buildParser_safe hbuilt
  obtain ⟨-, -, hcause⟩ := (hparses [0, 2, 2]).2 12 _ hrun
  refine ⟨by decide +kernel, hcontained, fun input => (hparses input).1, ?_⟩
  rcases hcause with ⟨x, hx, hle⟩ | hnone
  · obtain rfl : 2 = x := Option.some.inj hx
    exact absurd hle (by decide)
  · exact hnone

end SyntaxTables.ParseTable
