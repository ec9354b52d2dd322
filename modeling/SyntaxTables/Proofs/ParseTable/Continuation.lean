import SyntaxTables.Proofs.Grammar.Productive
import SyntaxTables.Proofs.Lr.Justified
import SyntaxTables.Proofs.ParseTable.Reduction

/-!
# Every stack can be continued

Where a stack justifies an item, and all non-terminals behind the marks derive something, there is
an input that a run from this stack accepts, and it begins with any terminal that can come behind
the mark. The proof goes back along the justification: what is left of the production is read and
reduced, and the mark of the item from which the production was predicted moves on.
-/

namespace SyntaxTables

theorem Grammar.Forest.lt_eof {g : Grammar} {γ : List Symbol} {w is : List Nat}
    (h : g.Forest γ w is) (hγ : ∀ s ∈ γ, g.Declares s) : ∀ x ∈ w, x < g.eof := by
  intro x hx
  have hd := h.rightmost []
  simp only [List.map_nil, List.append_nil] at hd
  exact hd.declares hγ (.terminal x) (List.mem_map_of_mem hx)

namespace LrAutomaton

variable {g : Grammar} {a : LrAutomaton} {live : Nat → Prop}

theorem Justified.allLive (hlive : g.Productive live) (hs : live g.start) {ss : List Nat}
    {it : Item} (hj : Justified g a ss it) : Grammar.AllLive live (g.body it.production) := by
  induction hj with
  | start =>
    rw [Grammar.body_augmented]
    intro n hn
    obtain rfl : n = g.start := by simpa using hn
    exact hs
  | @predict ss it it' _ hit' ih =>
    obtain ⟨p, hnext, hp, -, -⟩ := Grammar.mem_predictions_iff.1 hit'
    rw [Grammar.body_of_usable hp]
    exact hlive.body hp (ih p.lhs (List.mem_of_getElem? hnext))
  | advance _ _ _ ih => exact ih

end LrAutomaton

namespace ParseTable

open LrAutomaton

/-- From every configuration with this stack a run accepts this rest of the input. -/
def Continues (t : ParseTable) (ss z : List Nat) : Prop :=
  ∀ c : Configuration, c.stack = ss → c.rest = z → ∃ n is, t.run n c = some (.ok is)

variable {g : Grammar} {a : LrAutomaton} {live : Nat → Prop}

theorem Continues.of_reduces {t : ParseTable} {ss ss' z : List Nat} (h : t.Continues ss' z)
    (hz : ∀ y ∈ z, y < t.eof) (hred : t.Reduces (z.headD t.eof) ss ss') : t.Continues ss z := by
  intro c hstack hrest
  subst hstack hrest
  obtain ⟨c', hstep, hstack', hrest', -⟩ := step_of_reduces (admits_of_lt hz) hred
  obtain ⟨n, is, hrun⟩ := h c' hstack' hrest'
  refine ⟨n + 1, is, ?_⟩
  rw [run, hstep]
  exact hrun

section Table

variable (h : Faithful g a) (hconflicts : (g.parseTable a).conflicts = [])

include h

theorem continues_of_start {top : Nat} {below : List Nat}
    (hit : a.Holds top ⟨g.augmented, 1, g.eof⟩) :
    Continues (g.parseTable a) (top :: below) [] := by
  intro c hstack hrest
  obtain ⟨rfl, rfl⟩ := List.cons.inj hstack
  have hact := Grammar.action?_of_start h hit
  have hstep := step_of_action? (t := g.parseTable a) (c := c) (a := .accept)
    (admits_of_lt (by simp [hrest])) (by rw [hrest]; exact hact)
  exact ⟨1, c.reduced.reverse, by rw [run, hstep]⟩

/-- What is left of the production of an item spells a string that begins as the item expects. -/
theorem exists_forest_of_expects (hstart : g.Declares (.nonterminal g.start))
    (hlive : g.Productive live) {it : Item} {top x : Nat}
    (hit : a.Holds top it) (hx : g.Expects it x)
    (hall : Grammar.AllLive live (g.body it.production)) :
    ∃ v is, g.Forest ((g.body it.production).drop it.dot) v is ∧ (∀ y ∈ v, y < g.eof) ∧
      ∀ z e, z.headD e = it.lookahead → (v ++ z).headD e = x := by
  obtain ⟨v, is, hv, hhead⟩ := hlive.exists_forest_of_mem_lookaheads (hall.drop it.dot) hx
  refine ⟨v, is, hv, hv.lt_eof fun s hs => ?_, hhead⟩
  exact (h.admits hit).declares hstart s (List.mem_of_mem_drop hs)

include hconflicts

/-- The run reads what is left of an item, if what comes then is its lookahead. -/
theorem continues_of_completion {top : Nat} {below : List Nat} {it : Item} (hit : a.Holds top it)
    {v z is : List Nat} (hv : g.Forest ((g.body it.production).drop it.dot) v is)
    (hlt : ∀ y ∈ v ++ z, y < g.eof) (hz : z.headD g.eof = it.lookahead)
    (hcomplete : ∀ top' below',
      (top' :: below').drop ((g.body it.production).length - it.dot) = top :: below →
      a.Holds top' ⟨it.production, (g.body it.production).length, it.lookahead⟩ →
      Continues (g.parseTable a) (top' :: below') z) :
    Continues (g.parseTable a) (top :: below) (v ++ z) := by
  intro c hstack hrest
  obtain ⟨rfl, rfl⟩ := List.cons.inj hstack
  obtain ⟨c', hreads, hrest', hit'⟩ := exists_reads_of_forest h hconflicts hv (δ := []) hit
    (by simp) hrest (by rwa [hrest]) (FirstSets.mem_lookaheads_nil.2 hz)
  rw [List.length_drop] at hreads hit'
  have hdot := (h.admits hit).dot
  rw [show it.dot + ((g.body it.production).length - it.dot) = (g.body it.production).length by
    omega] at hit'
  obtain ⟨m, hm⟩ := hreads.advance
  obtain ⟨n, is, hrun⟩ := hcomplete c'.top c'.below hreads.stack hit' c' rfl hrest'
  exact ⟨m + n, is, by rw [run_add_of_advance hm, hrun]⟩

/-- Any terminal that can come behind the mark of a justified item, moved on over the stack that was
built since, begins an input that is accepted from there. -/
theorem exists_continuation (hstart : g.Declares (.nonterminal g.start)) (hlive : g.Productive live)
    (hs : live g.start) {ss : List Nat} {it : Item} (hj : Justified g a ss it) :
    ∀ {k top : Nat} {below : List Nat} {x : Nat}, (top :: below).drop k = ss →
      a.Holds top ⟨it.production, it.dot + k, it.lookahead⟩ →
      g.Expects ⟨it.production, it.dot + k, it.lookahead⟩ x →
      ∃ z, z.headD g.eof = x ∧ (∀ y ∈ z, y < g.eof) ∧
        Continues (g.parseTable a) (top :: below) z := by
  induction hj with
  | start =>
    intro k top below x _ hit hx
    obtain ⟨v, is, hv, hlt, hhead⟩ := exists_forest_of_expects h hstart hlive hit hx
      (Justified.start.allLive (a := a) hlive hs)
    refine ⟨v ++ [], hhead [] g.eof rfl, by simpa using hlt, ?_⟩
    refine continues_of_completion h hconflicts hit hv (by simpa using hlt) rfl ?_
    intro top' below' _ hcomplete
    rw [Grammar.body_augmented] at hcomplete
    exact continues_of_start h hcomplete
  | @predict ss it it' hj hit' ih =>
    intro k top below x hdrop hit hx
    obtain ⟨v, is, hv, hlt, hhead⟩ := exists_forest_of_expects h hstart hlive hit hx
      ((hj.predict hit').allLive hlive hs)
    obtain ⟨p, hnext, hp, hzero, hb⟩ := Grammar.mem_predictions_iff.1 hit'
    obtain ⟨s, rest, rfl, hs'⟩ := hj.exists_top h
    obtain ⟨n, he, hn⟩ := h.advances hs' hnext
    obtain ⟨z, hz, hzlt, hcontinues⟩ := ih (k := 1) rfl hn hb
    have hall : ∀ y ∈ v ++ z, y < g.eof :=
      fun y hy => (List.mem_append.1 hy).elim (hlt y) (hzlt y)
    refine ⟨v ++ z, hhead z g.eof hz, hall, ?_⟩
    refine continues_of_completion h hconflicts hit hv hall hz ?_
    intro top' below' hdrop' hcomplete
    have hk := (h.admits hit).dot
    simp only [Grammar.body_of_usable hp, hzero, Nat.zero_add] at hk hdrop' hcomplete
    -- the whole body stands on the stack, on top of what justified the prediction
    have hbody : (top' :: below').drop p.rhs.length = s :: rest := by
      rw [show p.rhs.length = p.rhs.length - k + k by omega, ← List.drop_drop, hdrop', hdrop]
    have hred := reduces_of_complete h hconflicts hp rfl hcomplete hbody he
    rw [← hz] at hred
    exact hcontinues.of_reduces hzlt hred
  | @advance s t ss it y hj hy he ih =>
    intro k top below x hdrop hit hx
    have hindex : it.advance.dot + k = it.dot + (k + 1) := by
      simp only [Item.advance]
      omega
    rw [hindex] at hit hx
    refine ih (k := k + 1) ?_ hit hx
    rw [← List.drop_drop, hdrop]
    rfl

end Table

end ParseTable

end SyntaxTables
