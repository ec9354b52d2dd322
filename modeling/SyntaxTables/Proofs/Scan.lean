import Mathlib.Tactic.Common
import SyntaxTables.Scan

/-!
# Automata that scan alike

Scanning sees an automaton through its start, its steps and its labels. So two automata cut every
text into the same tokens if their states can be related such that related states have the same
label and related steps. One of them may go on where the other stops, as long as it is lost from
there: no state that it can still reach has a label.
-/

namespace SyntaxTables

namespace Dfa

variable {d : Dfa} {s : Nat}

theorem existingState_of_lt (hs : s < d.size) : d.existingState s = .ok (d.state s) := by
  have hget : d.states[s]? = some d.states[s] := Array.getElem?_eq_getElem hs
  simp [existingState, state, Array.getD_eq_getD_getElem?, hget]

theorem automaton_token (hs : s < d.size) : d.automaton.token s = .ok (d.token? s) := by
  simp only [automaton, existingState_of_lt hs]
  rfl

theorem automaton_step (hs : s < d.size) (c : Char) :
    d.automaton.step s c = .ok ((d.alphabet.symbolOf? c.toNat).bind (d.target? s)) := by
  simp only [automaton, existingState_of_lt hs]
  cases d.alphabet.symbolOf? c.toNat <;> rfl

theorem tokenFrom_cons (hs : s < d.size) (c : Char) (cs : List Char) :
    d.automaton.tokenFrom s (c :: cs) =
      match (d.alphabet.symbolOf? c.toNat).bind (d.target? s) with
      | none => .ok none
      | some t => d.automaton.tokenFrom t cs := by
  rw [Automaton.tokenFrom, automaton_step hs]
  rfl

end Dfa

namespace Automaton

/-- The first automaton does what the second one does, apart from steps into lost states. -/
structure Tracks (a b : Automaton) (related : Nat → Nat → Prop) (lost : Nat → Prop) : Prop where
  start : related a.start b.start
  token : ∀ s t, related s t → ∃ k, a.token s = .ok k ∧ b.token t = .ok k
  step : ∀ s t, related s t → ∀ c,
    (∃ s' t', a.step s c = .ok (some s') ∧ b.step t c = .ok (some t') ∧ related s' t') ∨
      b.step t c = .ok none ∧
        (a.step s c = .ok none ∨ ∃ s', a.step s c = .ok (some s') ∧ lost s')
  lost_token : ∀ s, lost s → a.token s = .ok none
  lost_step : ∀ s, lost s → ∀ c,
    a.step s c = .ok none ∨ ∃ s', a.step s c = .ok (some s') ∧ lost s'

variable {a b : Automaton} {related : Nat → Nat → Prop} {lost : Nat → Prop}

namespace Tracks

variable (h : a.Tracks b related lost)

include h

theorem tokenFrom_lost {s : Nat} (hs : lost s) (text : List Char) :
    a.tokenFrom s text = .ok none := by
  induction text generalizing s with
  | nil => exact h.lost_token s hs
  | cons c cs ih =>
    rcases h.lost_step s hs c with hc | ⟨s', hc, hs'⟩
    · simp [tokenFrom, hc, bind, Except.bind, pure, Except.pure]
    · simp [tokenFrom, hc, bind, Except.bind, ih hs']

theorem tokenFrom_eq {s t : Nat} (hst : related s t) (text : List Char) :
    ∃ k, a.tokenFrom s text = .ok k ∧ b.tokenFrom t text = .ok k := by
  induction text generalizing s t with
  | nil => exact h.token s t hst
  | cons c cs ih =>
    rcases h.step s t hst c with ⟨s', t', ha, hb, hst'⟩ | ⟨hb, ha | ⟨s', ha, hs'⟩⟩
    · simpa [tokenFrom, ha, hb, bind, Except.bind] using ih hst'
    · exact ⟨none, by simp [tokenFrom, ha, bind, Except.bind, pure, Except.pure],
        by simp [tokenFrom, hb, bind, Except.bind, pure, Except.pure]⟩
    · exact ⟨none, by simp [tokenFrom, ha, bind, Except.bind, h.tokenFrom_lost hs'],
        by simp [tokenFrom, hb, bind, Except.bind, pure, Except.pure]⟩

theorem wholeMatch_eq (text : List Char) :
    ∃ k, a.wholeMatch text = .ok k ∧ b.wholeMatch text = .ok k :=
  h.tokenFrom_eq h.start text

theorem longestFrom_lost {s : Nat} (hs : lost s) (length : Nat) (best : Option Match)
    (text : List Char) : a.longestFrom s length best text = .ok best := by
  induction text generalizing s length with
  | nil => rfl
  | cons c cs ih =>
    rcases h.lost_step s hs c with hc | ⟨s', hc, hs'⟩
    · simp [longestFrom, hc, bind, Except.bind, pure, Except.pure]
    · simp [longestFrom, hc, bind, Except.bind, h.lost_token s' hs', ih hs']

theorem longestFrom_eq {s t : Nat} (hst : related s t) (length : Nat) (best : Option Match)
    (text : List Char) :
    ∃ m, a.longestFrom s length best text = .ok m ∧ b.longestFrom t length best text = .ok m := by
  induction text generalizing s t length best with
  | nil => exact ⟨best, rfl, rfl⟩
  | cons c cs ih =>
    rcases h.step s t hst c with ⟨s', t', ha, hb, hst'⟩ | ⟨hb, ha | ⟨s', ha, hs'⟩⟩
    · obtain ⟨k, hak, hbk⟩ := h.token s' t' hst'
      simp only [longestFrom, ha, hb, hak, hbk, bind, Except.bind]
      cases k with
      | none => exact ih hst' _ _
      | some k => exact ih hst' _ _
    · exact ⟨best, by simp [longestFrom, ha, bind, Except.bind, pure, Except.pure],
        by simp [longestFrom, hb, bind, Except.bind, pure, Except.pure]⟩
    · exact ⟨best, by simp [longestFrom, ha, bind, Except.bind, h.lost_token s' hs',
        h.longestFrom_lost hs'], by simp [longestFrom, hb, bind, Except.bind, pure, Except.pure]⟩

theorem longestMatch_eq (text : List Char) :
    ∃ m, a.longestMatch text = .ok m ∧ b.longestMatch text = .ok m :=
  h.longestFrom_eq h.start 0 none text

theorem tokensFrom_eq (text : List Char) (limit position : Nat) (rest : List Char) :
    b.tokensFrom text limit position rest = a.tokensFrom text limit position rest ∧
      ∀ f, a.tokensFrom text limit position rest ≠ .error (.fault f) := by
  induction limit generalizing position rest with
  | zero => cases rest <;> simp [tokensFrom]
  | succ limit ih =>
    cases rest with
    | nil => simp [tokensFrom]
    | cons c cs =>
      obtain ⟨m, ha, hb⟩ := h.longestMatch_eq (c :: cs)
      simp only [tokensFrom, ha, hb]
      cases m with
      | none => simp
      | some m =>
        obtain ⟨heq, hno⟩ := ih (position + m.length) m.rest
        refine ⟨by simp only [heq], fun f hf => ?_⟩
        cases hm : a.tokensFrom text limit (position + m.length) m.rest with
        | error e =>
          simp only [hm, bind, Except.bind, Except.error.injEq] at hf
          exact hno f (hm.trans (congrArg _ hf))
        | ok more => simp [hm, bind, Except.bind, pure, Except.pure] at hf

/-- Both automata cut a text into the same tokens, or stop with the same error, which is not a
fault. -/
theorem scan_eq (skip : Nat → Bool) (text : List Char) :
    b.scan skip text = a.scan skip text ∧ ∀ f, a.scan skip text ≠ .error (.fault f) := by
  obtain ⟨heq, hno⟩ := h.tokensFrom_eq text text.length 0 text
  refine ⟨by simp only [scan, tokens, heq], fun f hf => ?_⟩
  unfold scan tokens at hf
  cases ht : a.tokensFrom text text.length 0 text with
  | error e =>
    simp only [ht, bind, Except.bind, Except.error.injEq] at hf
    exact hno f (ht.trans (congrArg _ hf))
  | ok ts => simp [ht, bind, Except.bind, pure, Except.pure] at hf

end Tracks

end Automaton

end SyntaxTables
