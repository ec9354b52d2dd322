import SyntaxTables.Proofs.ParseTable.Failure
import SyntaxTables.Proofs.ParseTable.Termination

/-!
# Errors are found early

Every stack can be continued to one that accepts, so what a run has read begins a sentence. Where it
fails, the terminal that comes next does not continue it to a sentence, since a run on this sentence
would fail in the same way. Merged states may ask for reductions before that; they read nothing.
-/

namespace SyntaxTables

/-- Some sentence begins with a string. -/
def Grammar.Begins (g : Grammar) (w : List Nat) : Prop :=
  ∃ z, g.Yields [.nonterminal g.start] (w ++ z)

namespace ParseTable

open LrAutomaton

/-- What an error tells about the input. Up to its position the input begins a sentence. It does so
no longer with the terminal of the error, unless this is the end of input. -/
structure FirstError (g : Grammar) (input : List Nat) (e : ParseError) : Prop where
  begins : g.Begins (input.take e.position)
  terminal : e.position < input.length ∧ input[e.position]? = some e.terminal ∧
      ¬ g.Begins (input.take (e.position + 1)) ∨
    e.position = input.length ∧ e.terminal = g.eof

variable {g : Grammar} {a : LrAutomaton} {live : Nat → Prop}

section Table

variable (h : Faithful g a) (hg : Grounded g a) (hstart : g.Declares (.nonterminal g.start))
  (hconflicts : (g.parseTable a).conflicts = [])

include h hg hstart hconflicts

theorem exists_continues (hlive : g.Productive live) (hs : live g.start) {top : Nat}
    {below : List Nat} {γ : List Symbol} (hstack : Stack a (top :: below) γ) :
    ∃ z, Continues (g.parseTable a) (top :: below) z := by
  obtain ⟨it, hit⟩ := hstack.exists_holds h
  obtain ⟨b, hj⟩ := hg.on_stack hstack hit
  obtain ⟨x, hx⟩ := hlive.exists_mem_lookaheads ((hj.allLive hlive hs).drop it.dot) b
  obtain ⟨z, -, -, hcontinues⟩ :=
    exists_continuation h hconflicts hstart hlive hs hj (k := 0) rfl (hj.holds h) hx
  exact ⟨z, hcontinues⟩

theorem Derives.begins (hlive : g.Productive live) (hs : live g.start) {input : List Nat}
    {c : Configuration} (hc : Derives g a input c) : ∃ v, input = v ++ c.rest ∧ g.Begins v := by
  obtain ⟨γ, hstack, -⟩ := id hc
  obtain ⟨z, hcontinues⟩ := exists_continues h hg hstart hconflicts hlive hs hstack
  obtain ⟨v, hv, hparse⟩ := hc.exists_prefix
  obtain ⟨n, is, hrun⟩ := hcontinues { c with rest := z } rfl rfl
  exact ⟨v, hv, z, _, (hparse z).run h hstart hrun⟩

/-- With the terminal at which a run fails, no sentence begins so. -/
theorem not_begins_of_failed {v w : List Nat} {x m : Nat} {c : Configuration} {e : ParseError}
    (hadv : (g.parseTable a).advance m (.initial (v ++ x :: w)) = some c) (hrest : c.rest = x :: w)
    (hfailed : (g.parseTable a).step c = .failed e) : ¬ g.Begins (v ++ [x]) := by
  rintro ⟨z, is, hd⟩
  rw [List.append_assoc, List.singleton_append] at hd
  obtain ⟨n, hrun⟩ := exists_run_of_rightmost h hstart hconflicts hd
  obtain ⟨d, hadv', hstack, hrest'⟩ := exists_advance_of_prefix
    (d := Configuration.initial (v ++ x :: z)) hadv rfl hrest rfl rfl
  obtain ⟨γ, hpath, -⟩ := (derives_initial g a _).advance h hstart hadv
  have hnone := action?_eq_none_of_failed h hg hpath hfailed
  obtain ⟨e', hfailed'⟩ : ∃ e', (g.parseTable a).step d = .failed e' := by
    apply failed_of_action?_eq_none
    intro hadmits
    rw [(List.cons.inj hstack).1]
    simp only [Admits, Configuration.lookahead, hrest, hrest', List.head?_cons,
      List.headD_cons] at hadmits hnone ⊢
    exact hnone hadmits
  have hwrong := run_unique hrun (run_of_advance_failed hadv' hfailed')
  simp at hwrong

theorem firstError_of_run (hlive : g.Productive live) (hs : live g.start) {input : List Nat}
    {n : Nat} {e : ParseError} (hrun : (g.parseTable a).run n (.initial input) = some (.error e)) :
    FirstError g input e := by
  obtain ⟨m, c, hadv, hfailed⟩ := exists_failed_of_run hrun
  obtain ⟨hposition, hterminal⟩ := position_of_failed hfailed
  obtain ⟨v, rfl, hbegins⟩ :=
    ((derives_initial g a input).advance h hstart hadv).begins h hg hstart hconflicts hlive hs
  have hlength : e.position = v.length := by
    have hadd := position_add_of_advance h hstart hadv
    simp only [Configuration.initial, List.length_append] at hadd
    omega
  rw [Configuration.lookahead] at hterminal
  refine ⟨by rwa [hlength, List.take_left], ?_⟩
  rw [hlength, hterminal]
  cases hrest : c.rest with
  | nil => exact Or.inr ⟨by simp, rfl⟩
  | cons x w =>
    have hnot := not_begins_of_failed h hg hstart hconflicts (hrest ▸ hadv) hrest hfailed
    refine Or.inl ⟨by simp, by simp, ?_⟩
    rwa [List.take_append, List.take_of_length_le (Nat.le_succ _), Nat.add_sub_cancel_left,
      List.take_succ_cons, List.take_zero]

end Table

/-- If every declared non-terminal derives some string, a built table without conflicts tells the
sentences from the other inputs, and of these it tells the first terminal that makes them so. -/
theorem run_firstError {settings : ParserSettings} {t : ParseTable} {reports : List Diagnostic}
    (h : g.buildParser settings = (.ok t, reports)) (hconflicts : t.conflicts = [])
    (hproductive : ∀ n, g.Declares (.nonterminal n) → ∃ w, g.Yields [.nonterminal n] w)
    (input : List Nat) :
    ∃ steps r, t.run steps (.initial input) = some r ∧
      ((∃ e, r = .error e) ↔ ¬ g.Yields [.nonterminal g.start] input) ∧
      ∀ e, r = .error e → FirstError g input e := by
  obtain ⟨hstart, rfl⟩ := Grammar.eq_of_buildParser h
  have hfaithful := Grammar.faithful_lrAutomaton hstart settings
  have hgrounded := Grammar.grounded_lrAutomaton hstart settings
  have hlive : g.Productive fun n => g.Declares (.nonterminal n) :=
    ⟨hproductive, fun hp _ _ hn => hp.2.2 _ hn⟩
  obtain ⟨steps, r, hrun⟩ := exists_run_of_derives hfaithful hstart hconflicts hlive hstart
    hgrounded (derives_initial g _ input)
  refine ⟨steps, r, hrun, ⟨?_, ?_⟩, ?_⟩
  · rintro ⟨e, rfl⟩ ⟨is, hd⟩
    obtain ⟨n, haccepted⟩ := exists_run_of_rightmost hfaithful hstart hconflicts hd
    simpa using run_unique hrun haccepted
  · intro hnot
    cases r with
    | error e => exact ⟨e, rfl⟩
    | ok is => exact absurd ⟨_, (derives_initial g _ input).run hfaithful hstart hrun⟩ hnot
  · rintro e rfl
    exact firstError_of_run hfaithful hgrounded hstart hconflicts hlive hstart hrun

/-- Nested brackets around one letter. -/
def nested : Grammar where
  terminals := ["(", ")", "x"]
  nonterminals := ["S"]
  start := 0
  productions := [⟨.normal, 0, [.terminal 0, .nonterminal 0, .terminal 1], none⟩,
    ⟨.normal, 0, [.terminal 2], none⟩]

/-- With merged states the letter is reduced before the bracket behind it turns out to be wrong. -/
theorem run_firstError_nested :
    (nested.parseTable (nested.lrAutomaton {})).conflicts = [] ∧
      ∃ steps r, (nested.parseTable (nested.lrAutomaton {})).run steps (.initial [2, 1]) = some r ∧
        ((∃ e, r = .error e) ↔ ¬ nested.Yields [.nonterminal 0] [2, 1]) ∧
        ∀ e, r = .error e → FirstError nested [2, 1] e := by
  have hbuilt : nested.buildParser {} =
      (.ok (nested.parseTable (nested.lrAutomaton {})), (nested.buildParser {}).2) := rfl
  have hconflicts : (nested.parseTable (nested.lrAutomaton {})).conflicts = [] := by decide +kernel
  refine ⟨hconflicts, run_firstError hbuilt hconflicts ?_ [2, 1]⟩
  intro n hn
  obtain rfl : n = 0 := Nat.lt_one_iff.1 hn
  exact ⟨[2], [1], .step (.mk (p := ⟨.normal, 0, [.terminal 2], none⟩) ⟨rfl, by decide⟩ [] [])
    (.refl _)⟩

end ParseTable

end SyntaxTables
