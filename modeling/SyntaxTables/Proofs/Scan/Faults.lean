import SyntaxTables.Proofs.Scan.Longest

/-!
# Faults while scanning

A scanner takes the steps of its automaton along a text, so it stops with a fault exactly if a step
that it comes to is one. Each match leaves less of the text, so a scanner ends.
-/

namespace SyntaxTables.Automaton

/-- The steps along a text lead from one state to another. -/
inductive Leads (a : Automaton) : Nat → List Char → Nat → Prop
  | nil (s : Nat) : Leads a s [] s
  | cons {s t u : Nat} {c : Char} {cs : List Char} :
    a.step s c = .ok (some t) → Leads a t cs u → Leads a s (c :: cs) u

/-- A step on the way along a text is a fault. -/
def MeetsFault (a : Automaton) (s : Nat) (text : List Char) (f : Fault) : Prop :=
  ∃ front c rest t, text = front ++ c :: rest ∧ a.Leads s front t ∧ a.step t c = .error f

variable {a : Automaton} {s t : Nat} {f : Fault} {c : Char} {cs : List Char}

theorem not_meetsFault_nil : ¬ a.MeetsFault s [] f := by
  rintro ⟨front, c, rest, t, htext, -, -⟩
  simp at htext

theorem meetsFault_cons_iff : a.MeetsFault s (c :: cs) f ↔
    a.step s c = .error f ∨ ∃ t, a.step s c = .ok (some t) ∧ a.MeetsFault t cs f := by
  constructor
  · rintro ⟨front, d, rest, t, htext, hleads, hfault⟩
    cases hleads with
    | nil =>
      obtain ⟨rfl, -⟩ := List.cons.inj htext
      exact Or.inl hfault
    | cons hstep hleads =>
      obtain ⟨rfl, rfl⟩ := List.cons.inj htext
      exact Or.inr ⟨_, hstep, _, d, rest, t, rfl, hleads, hfault⟩
  · rintro (hfault | ⟨t, hstep, front, d, rest, u, rfl, hleads, hfault⟩)
    · exact ⟨[], c, cs, s, rfl, .nil s, hfault⟩
    · exact ⟨c :: front, d, rest, u, rfl, .cons hstep hleads, hfault⟩

/-! ### One match -/

section Tokens

variable (htoken : ∀ s, ∃ k, a.token s = .ok k)

include htoken

theorem longestFrom_of_step (hstep : a.step s c = .ok (some t)) (length : Nat)
    (best : Option Match) (cs : List Char) :
    ∃ best', (best' = best ∨ ∃ k n, best' = some ⟨k, n, cs⟩) ∧
      a.longestFrom s length best (c :: cs) = a.longestFrom t (length + c.utf8Size) best' cs := by
  obtain ⟨k, hk⟩ := htoken t
  cases k with
  | none => exact ⟨best, Or.inl rfl, by simp [longestFrom, hstep, hk, bind, Except.bind]⟩
  | some token =>
    exact ⟨some ⟨token, length + c.utf8Size, cs⟩, Or.inr ⟨_, _, rfl⟩,
      by simp [longestFrom, hstep, hk, bind, Except.bind]⟩

theorem longestFrom_eq_error_iff {length : Nat} {best : Option Match} {text : List Char} :
    a.longestFrom s length best text = .error f ↔ a.MeetsFault s text f := by
  induction text generalizing s length best with
  | nil => simp [longestFrom, not_meetsFault_nil]
  | cons c cs ih =>
    rw [meetsFault_cons_iff]
    cases hstep : a.step s c with
    | error e => simp [longestFrom, hstep, bind, Except.bind]
    | ok o =>
      cases o with
      | none => simp [longestFrom, hstep, bind, Except.bind, pure, Except.pure]
      | some t =>
        obtain ⟨best', -, hrun⟩ := longestFrom_of_step htoken hstep length best cs
        rw [hrun, ih]
        simp

theorem length_rest_lt_of_longestFrom {length : Nat} {best : Option Match} {text : List Char}
    {m : Match} (h : a.longestFrom s length best text = .ok (some m)) :
    best = some m ∨ m.rest.length < text.length := by
  induction text generalizing s length best with
  | nil => exact Or.inl (Except.ok.inj h)
  | cons c cs ih =>
    cases hstep : a.step s c with
    | error e => simp [longestFrom, hstep, bind, Except.bind] at h
    | ok o =>
      cases o with
      | none =>
        simp only [longestFrom, hstep, bind, Except.bind, pure, Except.pure, Except.ok.injEq] at h
        exact Or.inl h
      | some t =>
        obtain ⟨best', hbest, hrun⟩ := longestFrom_of_step htoken hstep length best cs
        rw [hrun] at h
        rcases ih h with heq | hlt
        · rcases hbest with rfl | ⟨k, n, rfl⟩
          · exact Or.inl heq
          · obtain rfl := Option.some.inj heq
            exact Or.inr (Nat.lt_succ_self _)
        · exact Or.inr (Nat.lt_succ_of_lt hlt)

theorem length_rest_lt {text : List Char} {m : Match} (h : a.longestMatch text = .ok (some m)) :
    m.rest.length < text.length :=
  (length_rest_lt_of_longestFrom htoken h).resolve_left (by simp)

/-! ### All tokens -/

/-- As many tokens as there are characters are enough. -/
theorem tokensFrom_eq_of_le {text rest : List Char} {limit limit' position : Nat}
    (h : rest.length ≤ limit) (h' : rest.length ≤ limit') :
    a.tokensFrom text limit position rest = a.tokensFrom text limit' position rest := by
  induction limit generalizing limit' position rest with
  | zero =>
    obtain rfl := List.length_eq_zero_iff.1 (Nat.le_zero.1 h)
    simp [tokensFrom]
  | succ limit ih =>
    cases rest with
    | nil => simp [tokensFrom]
    | cons c cs =>
      rw [List.length_cons] at h h'
      obtain ⟨limit', rfl⟩ := Nat.exists_eq_succ_of_ne_zero (Nat.ne_zero_of_lt h')
      rw [tokensFrom, tokensFrom]
      cases hmatch : a.longestMatch (c :: cs) with
      | error e => rfl
      | ok o =>
        cases o with
        | none => rfl
        | some m =>
          have hlt := length_rest_lt htoken hmatch
          rw [List.length_cons] at hlt
          dsimp only
          rw [ih (by omega : m.rest.length ≤ limit) (by omega : m.rest.length ≤ limit')]

theorem exists_meetsFault_of_tokensFrom {text rest : List Char} {limit position : Nat}
    (h : a.tokensFrom text limit position rest = .error (.fault f)) :
    ∃ text', a.MeetsFault a.start text' f := by
  induction limit generalizing position rest with
  | zero => cases rest <;> simp [tokensFrom] at h
  | succ limit ih =>
    cases rest with
    | nil => simp [tokensFrom] at h
    | cons c cs =>
      rw [tokensFrom] at h
      cases hmatch : a.longestMatch (c :: cs) with
      | error e =>
        rw [hmatch] at h
        obtain rfl := ScanError.fault.inj (Except.error.inj h)
        exact ⟨_, (longestFrom_eq_error_iff htoken).1 hmatch⟩
      | ok o =>
        cases o with
        | none => simp [hmatch] at h
        | some m =>
          cases hmore : a.tokensFrom text limit (position + m.length) m.rest with
          | error e =>
            simp only [hmatch, hmore, bind, Except.bind] at h
            obtain rfl := Except.error.inj h
            exact ih hmore
          | ok more => simp [hmatch, hmore, bind, Except.bind, pure, Except.pure] at h

theorem scan_eq_fault_of_meetsFault {text : List Char} (h : a.MeetsFault a.start text f)
    (skip : Nat → Bool) : a.scan skip text = .error (.fault f) := by
  have hmatch : a.longestMatch text = .error f := (longestFrom_eq_error_iff htoken).2 h
  cases text with
  | nil => exact absurd h not_meetsFault_nil
  | cons c cs =>
    rw [scan, tokens, List.length_cons, tokensFrom, hmatch]
    rfl

/-- All texts are scanned without a fault exactly if none of them leads to one. -/
theorem scan_ne_fault_iff (skip : Nat → Bool) :
    (∀ text f, a.scan skip text ≠ .error (.fault f)) ↔
      ∀ text f, ¬ a.MeetsFault a.start text f := by
  constructor
  · exact fun h text f hmeets => h text f (scan_eq_fault_of_meetsFault htoken hmeets skip)
  · intro h text f hscan
    unfold scan tokens at hscan
    cases ht : a.tokensFrom text text.length 0 text with
    | error e =>
      simp only [ht, bind, Except.bind, Except.error.injEq] at hscan
      obtain ⟨text', hmeets⟩ := exists_meetsFault_of_tokensFrom htoken (ht.trans (congrArg _ hscan))
      exact h text' f hmeets
    | ok ts => simp [ht, bind, Except.bind, pure, Except.pure] at hscan

end Tokens

end SyntaxTables.Automaton
