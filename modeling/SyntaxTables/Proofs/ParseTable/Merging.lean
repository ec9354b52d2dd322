import SyntaxTables.Proofs.ParseTable.Failure

/-!
# Merged states parse like the canonical ones

A run of the merged automaton goes along with one of the canonical automaton, which has the same
stack before its states were merged. Where the canonical run fails, the merged one may go on to
reduce, as some other state that was merged asks for it. But it reads nothing more: if in the end
the next terminal could be read, it could come behind an item above the left-hand side that was
reduced last, so the production was complete on this terminal before the states were merged, and so
on back to the first reduction.
-/

namespace SyntaxTables

def Action.moved (place : Nat → Nat) : Action → Action
  | .shift n => .shift (place n)
  | .reduce i => .reduce i
  | .accept => .accept

namespace ParseTable

open LrAutomaton

/-- The results of two runs are the same, except for the states in which they fail. -/
def SameVerdict : Except ParseError (List Nat) → Except ParseError (List Nat) → Prop
  | .ok is, .ok js => is = js
  | .error e, .error e' => e.position = e'.position ∧ e.terminal = e'.terminal
  | _, _ => False

variable {g : Grammar} {a : LrAutomaton}

/-- The second configuration is the first one after its states were merged. -/
structure Mirrors (a : LrAutomaton) (c d : Configuration) : Prop where
  stack : d.stack = c.stack.map a.place
  position : d.position = c.position
  rest : d.rest = c.rest

theorem mirrors_initial (h : Faithful g a) (input : List Nat) :
    Mirrors a (.initial input) (.initial input) where
  stack := by simp [Configuration.stack, Configuration.initial, h.place_zero]
  position := rfl
  rest := rfl

theorem Mirrors.top {c d : Configuration} (hm : Mirrors a c d) : d.top = a.place c.top :=
  (List.cons.inj hm.stack).1

theorem Mirrors.lookahead {c d : Configuration} (hm : Mirrors a c d) :
    d.lookahead (g.parseTable a.mergeCores) = c.lookahead (g.parseTable a) := by
  rw [Configuration.lookahead, hm.rest]
  rfl

theorem Mirrors.admits {c d : Configuration} (hm : Mirrors a c d)
    (hc : Admits (g.parseTable a) c.rest) : Admits (g.parseTable a.mergeCores) d.rest := by
  rw [hm.rest]
  exact hc

section Merged

variable (h : Faithful g a) (hu : a.Uniform)

include h hu

/-! ### Canonical steps are merged steps -/

section Steps

variable (hconflicts : (g.parseTable a.mergeCores).conflicts = [])

include hconflicts

theorem action?_moved {s x : Nat} {act : Action}
    (hact : (g.parseTable a).action? s x = some act) :
    (g.parseTable a.mergeCores).action? (a.place s) x = some (act.moved a.place) := by
  have hsupports := Grammar.supports_of_action? h hact
  cases act with
  | shift n =>
    exact Grammar.action?_of_edge (h.mergeCores hu)
      ((edge_mergeCores h hu).2 ⟨s, n, hsupports, rfl, rfl⟩)
  | reduce i =>
    exact Grammar.action?_of_complete (h.mergeCores hu) hconflicts hsupports.1
      (holds_mergeCores.2 ⟨s, hsupports.2, rfl⟩)
  | accept =>
    obtain ⟨rfl, hit⟩ := hsupports
    exact Grammar.action?_of_start (h.mergeCores hu) (holds_mergeCores.2 ⟨s, hit, rfl⟩)

theorem conflicts_of_mergeCores : (g.parseTable a).conflicts = [] := by
  refine (Grammar.conflicts_eq_nil_iff h).2 fun {s i x} hi hit => ?_
  obtain ⟨act, hact⟩ := Grammar.exists_action?_of_complete h hi hit
  have hmoved := action?_moved h hu hconflicts hact
  have hreduce := Grammar.action?_of_complete (h.mergeCores hu) hconflicts hi
    (holds_mergeCores.2 ⟨s, hit, rfl⟩)
  have heq : act.moved a.place = .reduce i := Option.some.inj (hmoved.symm.trans hreduce)
  cases act with
  | reduce j =>
    obtain rfl := Action.reduce.inj heq
    exact hact
  | shift n => simp [Action.moved] at heq
  | accept => simp [Action.moved] at heq

theorem Reduces.moved {x : Nat} {ss ss' : List Nat} (hred : (g.parseTable a).Reduces x ss ss') :
    (g.parseTable a.mergeCores).Reduces x (ss.map a.place) (ss'.map a.place) := by
  obtain ⟨i, p, s, rest, n, hact, hp, hdrop, hgoto, rfl⟩ := hred
  have he := (Grammar.goto?_parseTable h).1 hgoto
  refine ⟨i, p, a.place s, rest.map a.place, a.place n, ?_, hp, ?_, ?_, rfl⟩
  · obtain ⟨top, htop, hact⟩ := Option.bind_eq_some_iff.1 hact
    rw [List.head?_map, htop]
    exact action?_moved h hu hconflicts hact
  · rw [← List.map_drop, hdrop, List.map_cons]
  · exact (Grammar.goto?_parseTable (h.mergeCores hu)).2
      ((edge_mergeCores h hu).2 ⟨s, n, he, rfl, rfl⟩)

variable {c d : Configuration} (hm : Mirrors a c d)

include hm

theorem Mirrors.accepted {is : List Nat} (hstep : (g.parseTable a).step c = .accepted is) :
    ∃ js, (g.parseTable a.mergeCores).step d = .accepted js := by
  obtain ⟨hadmits, hact⟩ := accepted_cases hstep
  have hmoved := action?_moved h hu hconflicts hact
  rw [← hm.top, ← hm.lookahead] at hmoved
  exact ⟨_, step_of_action? (hm.admits hadmits) hmoved⟩

theorem Mirrors.step {c' : Configuration} (hstep : (g.parseTable a).step c = .running c') :
    ∃ d', (g.parseTable a.mergeCores).step d = .running d' ∧ Mirrors a c' d' := by
  obtain ⟨hadmits, ⟨n, hact, rfl⟩ | ⟨hred, hrest, hposition⟩⟩ := running_cases hstep
  · have hmoved := action?_moved h hu hconflicts hact
    rw [← hm.top, ← hm.lookahead] at hmoved
    refine ⟨_, step_of_action? (hm.admits hadmits) hmoved, ?_, ?_, ?_⟩
    · exact congrArg (a.place n :: ·) hm.stack
    · exact congrArg (· + 1) hm.position
    · exact congrArg List.tail hm.rest
  · have hmoved := Reduces.moved h hu hconflicts hred
    rw [← hm.stack, ← hm.lookahead] at hmoved
    obtain ⟨d', hstep', hstack, hrest', hposition'⟩ :=
      step_of_reduces (hm.admits hadmits) hmoved
    exact ⟨d', hstep', hstack, by rw [hposition', hm.position, hposition],
      by rw [hrest', hm.rest, hrest]⟩

end Steps

/-! ### Merged reductions, seen before the states were merged -/

/-- A merged reduction takes a canonical stack to another one. On top of the first the production is
complete on each terminal with which it begins below. -/
theorem Reduces.exists_canonical {x top : Nat} {below ms : List Nat} {γ : List Symbol}
    (hstack : Stack a (top :: below) γ)
    (hred : (g.parseTable a.mergeCores).Reduces x ((top :: below).map a.place) ms) :
    ∃ i p n s rest δ, g.Usable i p ∧ Stack a (n :: s :: rest) δ ∧
      (n :: s :: rest).map a.place = ms ∧ a.Edge s (.nonterminal p.lhs) n ∧
      ∀ b, a.Holds s ⟨i, 0, b⟩ → a.Holds top ⟨i, (g.body i).length, b⟩ := by
  obtain ⟨i, info, s', rest', m, hact, hinfo, hdrop, hgoto, rfl⟩ := hred
  obtain ⟨hi, hmerged⟩ := Grammar.supports_of_action? (h.mergeCores hu) hact
  obtain ⟨p, hp⟩ := ((h.mergeCores hu).admits hmerged).production.resolve_left hi
  obtain rfl : Grammar.productionInfo p = info := by
    simpa [Grammar.parseTable, hp.1] using hinfo
  obtain ⟨s₀, hit₀, hplace⟩ := holds_mergeCores.1 hmerged
  obtain ⟨b, hit⟩ := exists_holds_of_place hit₀ hplace (hstack.lt_length h)
  obtain ⟨front, s, rest, rfl, hbelow, hfront, -⟩ := hstack.exists_beginning h hit rfl
  obtain ⟨rfl, rfl⟩ : a.place s = s' ∧ rest.map a.place = rest' := by
    have hlength : (g.body i).length = (Grammar.productionInfo p).length := by
      rw [Grammar.body_of_usable hp]
      rfl
    rw [← List.map_drop, ← hlength, hbelow] at hdrop
    exact List.cons.inj hdrop
  obtain ⟨s₁, t₁, he₁, hplace₁, rfl⟩ :=
    (edge_mergeCores h hu).1 ((Grammar.goto?_parseTable (h.mergeCores hu)).1 hgoto)
  obtain ⟨n, he, hn⟩ := exists_edge_of_place h hu he₁ hplace₁ (hfront.lt_length h)
  refine ⟨i, p, n, s, rest, _, hp, hfront.push he, by rw [List.map_cons, hn]; rfl, he, ?_⟩
  exact fun b hb => hstack.holds_moved h hbelow hb (Nat.le_refl _)

/-- If merged reductions lead to where the next terminal is read, the canonical state on top has an
action on it. -/
theorem exists_action?_of_shift
    (hexact : ∀ {s ss γ it}, Stack a (s :: ss) γ → a.Holds s it → Justified g a (s :: ss) it)
    {x n top mtop : Nat} {below mbelow : List Nat} {γ : List Symbol}
    (hstack : Stack a (top :: below) γ)
    (hred : Relation.ReflTransGen ((g.parseTable a.mergeCores).Reduces x)
      ((top :: below).map a.place) (mtop :: mbelow))
    (hshift : (g.parseTable a.mergeCores).action? mtop x = some (.shift n)) :
    ∃ act, (g.parseTable a).action? top x = some act := by
  generalize hms : (top :: below).map a.place = ms at hred
  induction hred using Relation.ReflTransGen.head_induction_on generalizing top below γ with
  | refl =>
    obtain ⟨s, t, he, hplace, -⟩ :=
      (edge_mergeCores h hu).1 (Grammar.supports_of_action? (h.mergeCores hu) hshift)
    rw [← (List.cons.inj hms).1] at hplace
    obtain ⟨t', he', -⟩ := exists_edge_of_place h hu he hplace (hstack.lt_length h)
    exact ⟨_, Grammar.action?_of_edge h he'⟩
  | head hred _ ih =>
    subst hms
    obtain ⟨i, p, n, s, rest, δ, hp, hstack', hmap, he, hcomplete⟩ :=
      Reduces.exists_canonical h hu hstack hred
    obtain ⟨act, hact⟩ := ih hstack' hmap
    obtain ⟨it, hit, hx⟩ := Grammar.exists_expects_of_action? h hact
    have hbegin := (hexact hstack' hit).exists_below h hx he hp
    have hi : i ≠ g.augmented := Nat.ne_of_lt (Grammar.lt_length_of_usable hp)
    exact Grammar.exists_action?_of_complete h hi (hcomplete x (hbegin.holds h))

variable (hg : Grounded g a)
  (hexact : ∀ {s ss γ it}, Stack a (s :: ss) γ → a.Holds s it → Justified g a (s :: ss) it)

include hg hexact

/-- Where the canonical run fails, the merged run reads nothing more, so it fails at the same
terminal. -/
theorem Mirrors.same_error {input : List Nat} {c d d' : Configuration} (hm : Mirrors a c d)
    (hc : Derives g a input c) {e e' : ParseError} (hfailed : (g.parseTable a).step c = .failed e)
    {m : Nat} (hadv : (g.parseTable a.mergeCores).advance m d = some d')
    (hfailed' : (g.parseTable a.mergeCores).step d' = .failed e') :
    e'.position = e.position ∧ e'.terminal = e.terminal := by
  have hunread : d'.rest = d.rest ∧ d'.position = d.position := by
    apply (advance_cases hadv).resolve_right
    rintro ⟨hadmits, top, below, n, hred, hshift⟩
    obtain ⟨γ, hstack, -⟩ := hc
    rw [hm.stack, hm.lookahead] at hred
    rw [hm.lookahead] at hshift
    rw [hm.rest] at hadmits
    obtain ⟨act, hact⟩ := exists_action?_of_shift h hu hexact hstack hred hshift
    simp [action?_eq_none_of_failed h hg hstack hfailed hadmits] at hact
  obtain ⟨hposition, hterminal⟩ := position_of_failed hfailed
  obtain ⟨hposition', hterminal'⟩ := position_of_failed hfailed'
  rw [hposition, hposition', hterminal, hterminal', lookahead_eq hunread.1, hm.lookahead,
    hunread.2, hm.position]
  exact ⟨rfl, rfl⟩

/-- If the merged run fails, the canonical one does so at the same terminal. -/
theorem Mirrors.exists_error (hstart : g.Declares (.nonterminal g.start))
    (hconflicts : (g.parseTable a.mergeCores).conflicts = [])
    {input : List Nat} {m : Nat} {c d d' : Configuration} (hm : Mirrors a c d)
    (hc : Derives g a input c) (hadv : (g.parseTable a.mergeCores).advance m d = some d')
    {e : ParseError} (hfailed : (g.parseTable a.mergeCores).step d' = .failed e) :
    ∃ n e', (g.parseTable a).run n c = some (.error e') ∧ e.position = e'.position ∧
      e.terminal = e'.terminal := by
  induction m generalizing c d with
  | zero =>
    obtain rfl := Option.some.inj hadv
    cases hstep : (g.parseTable a).step c with
    | running c' =>
      obtain ⟨d', hd, -⟩ := hm.step h hu hconflicts hstep
      simp [hfailed] at hd
    | accepted is =>
      obtain ⟨js, hd⟩ := hm.accepted h hu hconflicts hstep
      simp [hfailed] at hd
    | failed e' =>
      exact ⟨1, e', by rw [run, hstep],
        hm.same_error h hu hg hexact hc hstep hadv hfailed⟩
  | succ m ih =>
    cases hstep : (g.parseTable a).step c with
    | running c' =>
      obtain ⟨d₁, hd, hm'⟩ := hm.step h hu hconflicts hstep
      rw [advance_succ_of_step hd] at hadv
      obtain ⟨n, e', hrun, hsame⟩ := ih hm' (hc.step h hstart hstep) hadv
      exact ⟨n + 1, e', by rw [run, hstep]; exact hrun, hsame⟩
    | accepted is =>
      obtain ⟨js, hd⟩ := hm.accepted h hu hconflicts hstep
      simp [advance, hd] at hadv
    | failed e' =>
      exact ⟨1, e', by rw [run, hstep],
        hm.same_error h hu hg hexact hc hstep hadv hfailed⟩

end Merged

/-- If the merged states of a grammar have no conflicts, the canonical ones have none either.
Whenever a run over the merged states ends, so does the one over the canonical states, in the same
way. -/
theorem canonical_of_merged {t : ParseTable} {reports : List Diagnostic}
    (h : g.buildParser { lalr := true } = (.ok t, reports)) (hconflicts : t.conflicts = []) :
    ∃ t' reports', g.buildParser { lalr := false } = (.ok t', reports') ∧ t'.conflicts = [] ∧
      ∀ input steps r, t.run steps (.initial input) = some r →
        ∃ steps' r', t'.run steps' (.initial input) = some r' ∧ SameVerdict r r' := by
  obtain ⟨hstart, rfl⟩ := Grammar.eq_of_buildParser h
  obtain ⟨reports', hbuilt⟩ := Grammar.exists_buildParser h { lalr := false }
  have hfaithful := Grammar.faithful_canonicalLr hstart
  have huniform : g.canonicalLr.Uniform := Grammar.uniform_canonicalLr hstart
  have hcanonical := conflicts_of_mergeCores hfaithful huniform hconflicts
  refine ⟨_, reports', hbuilt, hcanonical, ?_⟩
  intro input steps r hrun
  cases r with
  | ok is =>
    have hd := (derives_initial g _ input).run (hfaithful.mergeCores huniform) hstart hrun
    obtain ⟨n, hn⟩ := exists_run_of_rightmost hfaithful hstart hcanonical hd
    exact ⟨n, _, hn, is.reverse_reverse.symm⟩
  | error e =>
    obtain ⟨m, d, hadv, hfailed⟩ := exists_failed_of_run hrun
    obtain ⟨n, e', hn, hsame⟩ := (mirrors_initial hfaithful input).exists_error hfaithful huniform
      (Grammar.grounded_canonicalLr hstart) (Grammar.justified_of_stack hstart) hstart hconflicts
      (derives_initial g _ input) hadv hfailed
    exact ⟨n, .error e', hn, hsame⟩

/-- Assignments to pointers, where the two sides are told apart by the next terminal only. -/
def assignments : Grammar where
  terminals := ["=", "*", "id"]
  nonterminals := ["S", "L", "R"]
  start := 0
  productions := [⟨.normal, 0, [.nonterminal 1, .terminal 0, .nonterminal 2], none⟩,
    ⟨.normal, 0, [.nonterminal 2], none⟩, ⟨.normal, 1, [.terminal 1, .nonterminal 2], none⟩,
    ⟨.normal, 1, [.terminal 2], none⟩, ⟨.normal, 2, [.nonterminal 1], none⟩]

/-- Merging takes away four states. -/
theorem canonical_of_merged_assignments :
    assignments.canonicalLr.states.length = 14 ∧
      assignments.canonicalLr.mergeCores.states.length = 10 ∧
      (assignments.parseTable assignments.canonicalLr.mergeCores).conflicts = [] ∧
      ∃ t' reports', assignments.buildParser { lalr := false } = (.ok t', reports') ∧
        t'.conflicts = [] ∧
        ∀ input steps r, (assignments.parseTable assignments.canonicalLr.mergeCores).run steps
            (.initial input) = some r →
          ∃ steps' r', t'.run steps' (.initial input) = some r' ∧ SameVerdict r r' := by
  have hbuilt : assignments.buildParser { lalr := true } =
      (.ok (assignments.parseTable assignments.canonicalLr.mergeCores),
        (assignments.buildParser { lalr := true }).2) := rfl
  have hconflicts :
      (assignments.parseTable assignments.canonicalLr.mergeCores).conflicts = [] := by
    decide +kernel
  exact ⟨by decide +kernel, by decide +kernel, hconflicts, canonical_of_merged hbuilt hconflicts⟩

end ParseTable

end SyntaxTables
