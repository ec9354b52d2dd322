import SyntaxTables.Proofs.Lr.Justified
import SyntaxTables.Proofs.ParseTable.Reduction

/-!
# Where a run fails

A run that fails does so at the terminal that comes next. In a table that was filled from a grammar
an action that is found can always be carried out, so the last step finds none. What a run does
until then depends on what it reads, and on one terminal more, but on nothing behind that.
-/

namespace SyntaxTables.ParseTable

open LrAutomaton

section Table

variable {t : ParseTable} {c c' d : Configuration} {e : ParseError}

theorem exists_failed_of_run {n : Nat} (h : t.run n c = some (.error e)) :
    ∃ m c', t.advance m c = some c' ∧ t.step c' = .failed e := by
  induction n generalizing c with
  | zero => simp [run] at h
  | succ n ih =>
    rw [run] at h
    cases hstep : t.step c with
    | running c₁ =>
      rw [hstep] at h
      obtain ⟨m, c', hadv, hfailed⟩ := ih h
      exact ⟨m + 1, c', (advance_succ_of_step hstep m).trans hadv, hfailed⟩
    | accepted is => simp [hstep] at h
    | failed e' =>
      rw [hstep] at h
      obtain rfl : e' = e := by simpa using h
      exact ⟨0, c, rfl, hstep⟩

theorem position_of_failed (h : t.step c = .failed e) :
    e.position = c.position ∧ e.terminal = c.lookahead t := by
  cases Steps.of_eq h with
  | refuse _ => exact ⟨rfl, rfl⟩
  | lack _ _ => exact ⟨rfl, rfl⟩

theorem failed_of_action?_eq_none
    (h : Admits t c.rest → t.action? c.top (c.lookahead t) = none) : ∃ e, t.step c = .failed e := by
  by_cases ha : Admits t c.rest
  · exact ⟨_, step_of_no_action ha (h ha)⟩
  · rw [Admits, Bool.not_eq_false] at ha
    exact ⟨_, by rw [step, if_pos ha]⟩

theorem run_of_advance_failed {m : Nat} (hadv : t.advance m c = some c')
    (hfailed : t.step c' = .failed e) : t.run (m + 1) c = some (.error e) := by
  rw [run_add_of_advance hadv, run, hfailed]

/-- Some steps leave the rest of the input as it is, unless reductions lead to a state that shifts
the next terminal. -/
theorem advance_cases {m : Nat} (hadv : t.advance m c = some c') :
    c'.rest = c.rest ∧ c'.position = c.position ∨
      Admits t c.rest ∧ ∃ top below n,
        Relation.ReflTransGen (t.Reduces (c.lookahead t)) c.stack (top :: below) ∧
          t.action? top (c.lookahead t) = some (.shift n) := by
  induction m generalizing c with
  | zero =>
    obtain rfl := Option.some.inj hadv
    exact Or.inl ⟨rfl, rfl⟩
  | succ m ih =>
    rw [advance] at hadv
    split at hadv
    next c₁ hstep =>
      obtain ⟨ha, ⟨n, hact, -⟩ | ⟨hred, hrest, hposition⟩⟩ := running_cases hstep
      · exact Or.inr ⟨ha, c.top, c.below, n, .refl, hact⟩
      · have hmore := ih hadv
        rw [hrest, hposition, lookahead_eq hrest] at hmore
        refine hmore.imp_right ?_
        rintro ⟨-, top, below, n, hmany, hact⟩
        exact ⟨ha, top, below, n, .head hred hmany, hact⟩
    next => simp at hadv

/-- A run repeats its steps before another rest of the input, up to the same next terminal. -/
theorem exists_advance_of_prefix {m x : Nat} {u w z : List Nat} (hadv : t.advance m c = some c')
    (hrest : c.rest = u ++ x :: w) (hrest' : c'.rest = x :: w) (hstack : d.stack = c.stack)
    (hd : d.rest = u ++ x :: z) :
    ∃ d', t.advance m d = some d' ∧ d'.stack = c'.stack ∧ d'.rest = x :: z := by
  induction m generalizing c d u with
  | zero =>
    obtain rfl := Option.some.inj hadv
    obtain rfl : u = [] := by simpa [hrest] using hrest'
    exact ⟨d, rfl, hstack, hd⟩
  | succ m ih =>
    rw [advance] at hadv
    split at hadv
    next c₁ hstep =>
      have htop : d.top = c.top := (List.cons.inj hstack).1
      have hlook : d.lookahead t = c.lookahead t := by
        cases u <;> simp [Configuration.lookahead, hrest, hd]
      have hadmits : Admits t c.rest → Admits t d.rest := by
        cases u <;> simp [Admits, hrest, hd]
      obtain ⟨ha, ⟨s, hact, rfl⟩ | ⟨hred, hrest₁, -⟩⟩ := running_cases hstep
      · cases u with
        | nil =>
          -- the next terminal would be read
          have hle := length_rest_le_of_advance hadv
          rw [hrest', hrest] at hle
          simp at hle
        | cons y u =>
          rw [← htop, ← hlook] at hact
          have hstep' := step_of_action? (hadmits ha) hact
          obtain ⟨d', hadv', hstack', hd'⟩ := ih hadv (u := u)
            (d := { d with
              top := s, below := d.top :: d.below, position := d.position + 1,
              rest := d.rest.tail })
            (by simp [hrest]) (congrArg (s :: ·) hstack) (by simp [hd])
          exact ⟨d', (advance_succ_of_step hstep' m).trans hadv', hstack', hd'⟩
      · rw [← hlook, ← hstack] at hred
        obtain ⟨d₁, hstep', hstack₁, hd₁, -⟩ := step_of_reduces (hadmits ha) hred
        obtain ⟨d', hadv', hstack', hd'⟩ :=
          ih hadv (hrest₁.trans hrest) hstack₁ (hd₁.trans hd)
        exact ⟨d', (advance_succ_of_step hstep' m).trans hadv', hstack', hd'⟩
    next => simp at hadv

end Table

variable {g : Grammar} {a : LrAutomaton}

section Faithful

variable (h : Faithful g a)

include h

/-- A reduction that is asked for finds the body on the stack, and below it a state that waits for
the left-hand side. -/
theorem exists_reduces (hg : Grounded g a) {c : Configuration} {γ : List Symbol}
    (hstack : Stack a c.stack γ) {i x : Nat}
    (hact : (g.parseTable a).action? c.top x = some (.reduce i)) :
    ∃ ss', (g.parseTable a).Reduces x c.stack ss' := by
  obtain ⟨hi, hit⟩ := Grammar.supports_of_action? h hact
  obtain ⟨p, hp⟩ := (h.admits hit).production.resolve_left hi
  obtain ⟨front, s, rest, rfl, hdrop, hfront, b, hb⟩ := hstack.exists_beginning h hit rfl
  obtain ⟨b', hj⟩ := hg.on_stack hfront hb
  obtain ⟨parent, hparent, hpredicted⟩ := hj.exists_parent hi
  obtain ⟨p', hnext, hp', -, -⟩ := Grammar.mem_predictions_iff.1 hpredicted
  obtain rfl : p = p' := Option.some.inj (hp.1.symm.trans hp'.1)
  obtain ⟨n, he, -⟩ := h.advances (hparent.holds h) hnext
  rw [Grammar.body_of_usable hp] at hdrop
  exact ⟨_, i, Grammar.productionInfo p, s, rest, n, hact, by simp [Grammar.parseTable, hp.1],
    hdrop, (Grammar.goto?_parseTable h).2 he, rfl⟩

theorem action?_eq_none_of_failed (hg : Grounded g a) {c : Configuration} {γ : List Symbol}
    (hstack : Stack a c.stack γ) {e : ParseError} (hstep : (g.parseTable a).step c = .failed e)
    (hadmits : Admits (g.parseTable a) c.rest) :
    (g.parseTable a).action? c.top (c.lookahead (g.parseTable a)) = none := by
  cases Steps.of_eq hstep with
  | refuse hinactive => exact hinactive hadmits
  | lack _ hact =>
    obtain ⟨ss', hred⟩ := exists_reduces h hg hstack hact
    obtain ⟨c', hrunning, -⟩ := step_of_reduces hadmits hred
    simp [hstep] at hrunning

variable (hstart : g.Declares (.nonterminal g.start))

include hstart

theorem Derives.advance {input : List Nat} {n : Nat} {c c' : Configuration}
    (hc : Derives g a input c) (hadv : (g.parseTable a).advance n c = some c') :
    Derives g a input c' := by
  induction n generalizing c with
  | zero =>
    obtain rfl := Option.some.inj hadv
    exact hc
  | succ n ih =>
    rw [ParseTable.advance] at hadv
    split at hadv
    next c₁ hstep => exact ih (hc.step h hstart hstep) hadv
    next => simp at hadv

/-- What has been read and what has not are together as long as the input. -/
theorem position_add_of_advance {n : Nat} {c c' : Configuration}
    (hadv : (g.parseTable a).advance n c = some c') :
    c'.position + c'.rest.length = c.position + c.rest.length := by
  induction n generalizing c with
  | zero =>
    obtain rfl := Option.some.inj hadv
    rfl
  | succ n ih =>
    rw [advance] at hadv
    split at hadv
    next c₁ hstep =>
      rw [ih hadv]
      rcases (running_cases hstep).2 with ⟨s, hact, rfl⟩ | ⟨-, hrest, hposition⟩
      · obtain ⟨x, rest, hr⟩ := exists_rest_of_shift h hstart hact
        simp only [hr, List.tail_cons, List.length_cons]
        omega
      · rw [hrest, hposition]
    next => simp at hadv

end Faithful

/-- The stack derives what has been read, so with another rest it belongs to a parse of another
input. -/
theorem Derives.exists_prefix {input : List Nat} {c : Configuration} (hc : Derives g a input c) :
    ∃ v, input = v ++ c.rest ∧ ∀ z, Derives g a (v ++ z) { c with rest := z } := by
  obtain ⟨γ, hstack, hd⟩ := hc
  obtain ⟨v, v', js, js', rfl, hreduced, hforest, hrest⟩ := hd.forest.exists_append
  obtain ⟨rfl, rfl⟩ := hrest.of_terminals
  refine ⟨v, rfl, fun z => ⟨γ, hstack, ?_⟩⟩
  rw [List.append_nil, List.reverse_eq_iff] at hreduced
  dsimp only
  rw [hreduced]
  exact hforest.rightmost z

end SyntaxTables.ParseTable
