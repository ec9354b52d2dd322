import SyntaxTables.ParseTable.Verdict.Agreement
import SyntaxTables.Proofs.ParseTable.Fill

/-!
# A derived input is accepted

A run is led by a derivation. Where the mark of an item in the top state stands before some symbols,
and trees over these spell the beginning of the input, the run reads exactly this beginning and
moves the mark behind the symbols, provided that what comes next can follow there. A non-terminal is
entered through a predicted item whose lookahead is the terminal that comes behind its tree, so
without conflicts its production is reduced as soon as its body has been read.
-/

namespace SyntaxTables.ParseTable

open LrAutomaton

section Runs

variable {t : ParseTable}

theorem admits_of_lt {input : List Nat} (h : ∀ x ∈ input, x < t.eof) : Admits t input := by
  cases input with
  | nil => rfl
  | cons x input => simpa [Admits] using h x List.mem_cons_self

theorem run_add_of_run {n : Nat} {c : Configuration} {r : Except ParseError (List Nat)}
    (h : t.run n c = some r) (k : Nat) : t.run (n + k) c = some r := by
  induction n generalizing c with
  | zero => simp [run] at h
  | succ n ih =>
    rw [show n + 1 + k = n + k + 1 by omega, run]
    rw [run] at h
    cases hstep : t.step c with
    | running c' =>
      rw [hstep] at h
      exact ih h
    | accepted is => simpa [hstep] using h
    | failed e => simpa [hstep] using h

theorem run_unique {n m : Nat} {c : Configuration} {r r' : Except ParseError (List Nat)}
    (h : t.run n c = some r) (h' : t.run m c = some r') : r = r' := by
  have hn := run_add_of_run h m
  rw [Nat.add_comm, run_add_of_run h' n] at hn
  exact (Option.some.inj hn).symm

end Runs

variable {g : Grammar} {a : LrAutomaton}

/-- A run comes from one configuration to another, with the same states above which there are
`height` more, after it has reduced some productions. -/
structure Reads (t : ParseTable) (c c' : Configuration) (height : Nat) (is : List Nat) : Prop where
  advance : ∃ n, t.advance n c = some c'
  stack : c'.stack.drop height = c.stack
  reduced : c'.reduced = is.reverse ++ c.reduced

theorem Reads.refl {t : ParseTable} (c : Configuration) : Reads t c c 0 [] :=
  ⟨⟨0, rfl⟩, rfl, rfl⟩

theorem Reads.trans {t : ParseTable} {c c' c'' : Configuration} {m n : Nat} {is js : List Nat}
    (h : Reads t c c' m is) (h' : Reads t c' c'' n js) : Reads t c c'' (n + m) (is ++ js) := by
  obtain ⟨⟨k, hk⟩, hstack, hreduced⟩ := h
  obtain ⟨⟨k', hk'⟩, hstack', hreduced'⟩ := h'
  refine ⟨⟨k + k', ?_⟩, ?_, ?_⟩
  · rw [advance_add, hk, Option.bind_some, hk']
  · rw [← List.drop_drop, hstack', hstack]
  · rw [hreduced', hreduced, List.reverse_append, List.append_assoc]

theorem Reads.of_step {t : ParseTable} {c c' : Configuration} {height : Nat} {is : List Nat}
    (hstep : t.step c = .running c') (hstack : c'.stack.drop height = c.stack)
    (hreduced : c'.reduced = is.reverse ++ c.reduced) : Reads t c c' height is :=
  ⟨⟨1, advance_succ_of_step hstep 0⟩, hstack, hreduced⟩

section Table

variable (h : Faithful g a)

include h

theorem exists_reads_shift {c : Configuration} {it : Item} (hit : a.Holds c.top it) {x : Nat}
    {rest : List Nat} (hrest : c.rest = x :: rest) (hlt : ∀ y ∈ c.rest, y < g.eof)
    (hx : (g.body it.production)[it.dot]? = some (.terminal x)) :
    ∃ c', Reads (g.parseTable a) c c' 1 [] ∧ c'.rest = rest ∧ a.Holds c'.top it.advance := by
  obtain ⟨s, he, hs⟩ := h.advances hit hx
  have hact := Grammar.action?_of_edge h he
  have hstep := step_of_action? (t := g.parseTable a) (admits_of_lt hlt)
    (by rw [hrest]; exact hact)
  exact ⟨_, .of_step hstep rfl rfl, by simp [hrest], hs⟩

/-- One step reduces a production whose body has been read, and moves the mark over its left-hand
side in an item that waits below. -/
theorem exists_reads_reduce (hconflicts : (g.parseTable a).conflicts = []) {c c' : Configuration}
    {it : Item} (hit : a.Holds c.top it) {i : Nat} {p : Production} (hp : g.Usable i p)
    {is : List Nat} (hreads : Reads (g.parseTable a) c c' p.rhs.length is)
    (hlt : ∀ y ∈ c'.rest, y < g.eof)
    (hx : (g.body it.production)[it.dot]? = some (.nonterminal p.lhs))
    (hcomplete : a.Holds c'.top ⟨i, p.rhs.length, c'.rest.headD g.eof⟩) :
    ∃ c'', Reads (g.parseTable a) c c'' 1 (is ++ [i]) ∧ c''.rest = c'.rest ∧
      a.Holds c''.top it.advance := by
  obtain ⟨s, he, hs⟩ := h.advances hit hx
  have hi : i ≠ g.augmented := Nat.ne_of_lt (Grammar.lt_length_of_usable hp)
  rw [← Grammar.body_of_usable hp] at hcomplete
  have hact := Grammar.action?_of_complete h hconflicts hi hcomplete
  have hinfo : (g.parseTable a).productions[i]? = some (Grammar.productionInfo p) := by
    simp [Grammar.parseTable, hp.1]
  have hdrop : (c'.top :: c'.below).drop (Grammar.productionInfo p).length = c.top :: c.below :=
    hreads.stack
  have hgoto : (g.parseTable a).goto? c.top (Grammar.productionInfo p).lhs = some s :=
    (Grammar.goto?_parseTable h).2 he
  have hstep := step_of_action? (t := g.parseTable a) (admits_of_lt hlt) hact
  simp only [reduceStep, hinfo, hdrop, hgoto] at hstep
  obtain ⟨n, hn⟩ := hreads.advance
  refine ⟨{ c' with top := s, below := c.top :: c.below, reduced := i :: c'.reduced },
    ⟨⟨n + 1, ?_⟩, rfl, ?_⟩, rfl, hs⟩
  · rw [advance_add, hn, Option.bind_some]
    exact advance_succ_of_step hstep 0
  · simp [hreads.reduced]

/-- The run reads what trees over the symbols behind a mark spell. -/
theorem exists_reads_of_forest (hconflicts : (g.parseTable a).conflicts = []) {γ : List Symbol}
    {w is : List Nat} (hforest : g.Forest γ w is) :
    ∀ {δ : List Symbol} {it : Item} {z : List Nat} {c : Configuration}, a.Holds c.top it →
      (g.body it.production).drop it.dot = γ ++ δ → c.rest = w ++ z →
      (∀ y ∈ c.rest, y < g.eof) → z.headD g.eof ∈ g.firstSets.lookaheads δ it.lookahead →
      ∃ c', Reads (g.parseTable a) c c' γ.length is ∧ c'.rest = z ∧
        a.Holds c'.top { it with dot := it.dot + γ.length } := by
  induction hforest with
  | nil =>
    intro δ it z c hit _ hrest _ _
    exact ⟨c, .refl c, hrest, hit⟩
  | @terminal γ w is x _ ih =>
    intro δ it z c hit hdrop hrest hlt hfollow
    obtain ⟨hx, hdrop⟩ := Grammar.next_of_drop hdrop
    obtain ⟨c₁, hreads, hrest₁, hit₁⟩ := exists_reads_shift h hit hrest hlt hx
    have hlt₁ : ∀ y ∈ c₁.rest, y < g.eof := by
      intro y hy
      rw [hrest₁] at hy
      exact hlt y (by rw [hrest]; exact List.mem_cons_of_mem _ hy)
    obtain ⟨c₂, hreads₂, hrest₂, hit₂⟩ := ih hit₁ hdrop hrest₁ hlt₁ hfollow
    refine ⟨c₂, hreads.trans hreads₂, hrest₂, ?_⟩
    rwa [List.length_cons, Nat.add_comm γ.length, ← Nat.add_assoc]
  | @nonterminal i p γ v w is js hp _ htrees ihbody ih =>
    intro δ it z c hit hdrop hrest hlt hfollow
    have hpredicted : a.Holds c.top ⟨i, 0, (w ++ z).headD g.eof⟩ := by
      refine h.predicts hit (Grammar.mem_predictions.2 ⟨p, _, hdrop, hp, rfl, ?_⟩)
      exact htrees.head_mem_lookaheads hfollow
    obtain ⟨hx, hdrop⟩ := Grammar.next_of_drop hdrop
    obtain ⟨c₁, hreads, hrest₁, hit₁⟩ := ihbody (δ := []) (z := w ++ z) hpredicted
      (by simp [Grammar.body_of_usable hp]) (by rw [hrest, List.append_assoc]) hlt
      (FirstSets.mem_lookaheads_nil.2 rfl)
    have hlt₁ : ∀ y ∈ c₁.rest, y < g.eof := by
      intro y hy
      rw [hrest₁] at hy
      exact hlt y (by rw [hrest, List.append_assoc]; exact List.mem_append_right _ hy)
    obtain ⟨c₂, hreads₂, hrest₂, hit₂⟩ := exists_reads_reduce h hconflicts hit hp hreads hlt₁ hx
      (by simpa [hrest₁] using hit₁)
    obtain ⟨c₃, hreads₃, hrest₃, hit₃⟩ :=
      ih hit₂ hdrop (hrest₂.trans hrest₁) (hrest₂ ▸ hlt₁) hfollow
    refine ⟨c₃, ?_, hrest₃, ?_⟩
    · simpa using hreads₂.trans hreads₃
    · rwa [List.length_cons, Nat.add_comm γ.length, ← Nat.add_assoc]

theorem exists_run_of_rightmost (hstart : g.Declares (.nonterminal g.start))
    (hconflicts : (g.parseTable a).conflicts = []) {input is : List Nat}
    (hd : g.Rightmost [.nonterminal g.start] is (input.map .terminal)) :
    ∃ n, (g.parseTable a).run n (.initial input) = some (.ok is.reverse) := by
  have hlt : ∀ y ∈ input, y < g.eof := by
    intro y hy
    exact hd.declares (by simpa using hstart) (.terminal y) (List.mem_map_of_mem hy)
  obtain ⟨c, ⟨⟨n, hn⟩, -, hreduced⟩, hrest, hit⟩ :=
    exists_reads_of_forest h hconflicts hd.forest (δ := []) (z := [])
      (c := .initial input) h.start (by simp [Grammar.body_augmented])
      (by simp [Configuration.initial]) hlt
      (FirstSets.mem_lookaheads_nil.2 rfl)
  have hact := Grammar.action?_of_start h hit
  have hstep := step_of_action? (t := g.parseTable a) (c := c) (a := .accept)
    (admits_of_lt (by simp [hrest])) (by rw [hrest]; exact hact)
  refine ⟨n + 1, ?_⟩
  rw [run_add_of_advance hn, run, hstep, hreduced]
  simp [Configuration.initial]

end Table

/-- A built table without conflicts accepts whatever the start symbol derives, with the productions
of the derivation reversed, so there is no other derivation. -/
theorem run_of_rightmost {settings : ParserSettings} {t : ParseTable} {reports : List Diagnostic}
    (h : g.buildParser settings = (.ok t, reports)) (hconflicts : t.conflicts = [])
    {input is : List Nat} (hd : g.Rightmost [.nonterminal g.start] is (input.map .terminal)) :
    (∃ steps, t.run steps (.initial input) = some (.ok is.reverse)) ∧
      ∀ js, g.Rightmost [.nonterminal g.start] js (input.map .terminal) → js = is := by
  obtain ⟨hstart, a, ha, rfl⟩ := Grammar.exists_of_buildParser h
  obtain ⟨n, hn⟩ := exists_run_of_rightmost ha hstart hconflicts hd
  refine ⟨⟨n, hn⟩, ?_⟩
  intro js hjs
  obtain ⟨m, hm⟩ := exists_run_of_rightmost ha hstart hconflicts hjs
  simpa using run_unique hm hn

/-- Lists, with an empty non-terminal in front of each element. -/
def lists : Grammar where
  terminals := ["n"]
  nonterminals := ["L", "E"]
  start := 0
  productions := [⟨.normal, 0, [.nonterminal 0, .nonterminal 1, .terminal 0], none⟩,
    ⟨.normal, 0, [], none⟩, ⟨.removed, 1, [], none⟩]

theorem run_of_rightmost_lists :
    lists.Rightmost [.nonterminal 0] [0, 2, 1] [.terminal 0] ∧
      ∃ steps, (lists.parseTable (lists.lrAutomaton {})).run steps (.initial [0]) =
        some (.ok [1, 2, 0]) := by
  have hbuilt : lists.buildParser {} =
      (.ok (lists.parseTable (lists.lrAutomaton {})), (lists.buildParser {}).2) := rfl
  have hconflicts : (lists.parseTable (lists.lrAutomaton {})).conflicts = [] := by decide +kernel
  have hd : lists.Rightmost [.nonterminal 0] [0, 2, 1] ([0].map .terminal) :=
    .step (.mk (p := ⟨.normal, 0, [.nonterminal 0, .nonterminal 1, .terminal 0], none⟩)
        ⟨rfl, by decide⟩ [] []) <|
      .step (.mk (p := ⟨.removed, 1, [], none⟩) ⟨rfl, by decide⟩ [.nonterminal 0] [0]) <|
        .step (.mk (p := ⟨.normal, 0, [], none⟩) ⟨rfl, by decide⟩ [] [0]) (.refl _)
  exact ⟨hd, (run_of_rightmost hbuilt hconflicts hd).1⟩

end SyntaxTables.ParseTable
