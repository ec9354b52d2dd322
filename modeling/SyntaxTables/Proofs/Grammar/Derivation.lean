import Mathlib.Tactic
import SyntaxTables.Grammar

/-!
# Derivations

A rightmost derivation replaces the last non-terminal in each step, and the numbers of the
productions it uses tell it apart from others. Only well-formed productions take part. A forest has
the trees of a sequence of symbols side by side; its productions are listed as a bottom-up parser
completes them, which is the order of the rightmost derivation reversed.
-/

namespace SyntaxTables.Grammar

variable {g : Grammar}

/-- A production that takes part in derivations, with its number. -/
def Usable (g : Grammar) (i : Nat) (p : Production) : Prop :=
  g.productions[i]? = some p ∧ g.WellFormed p

/-- Production `i` replaces the last non-terminal. -/
inductive RightmostStep (g : Grammar) (i : Nat) : List Symbol → List Symbol → Prop
  | mk {p : Production} (hp : g.Usable i p) (front : List Symbol) (back : List Nat) :
    RightmostStep g i (front ++ .nonterminal p.lhs :: back.map .terminal)
      (front ++ (p.rhs ++ back.map .terminal))

/-- A rightmost derivation by the productions with the given numbers, the first one first. -/
inductive Rightmost (g : Grammar) : List Symbol → List Nat → List Symbol → Prop
  | refl (γ : List Symbol) : Rightmost g γ [] γ
  | step {i : Nat} {is : List Nat} {γ δ ε : List Symbol} :
    g.RightmostStep i γ δ → Rightmost g δ is ε → Rightmost g γ (i :: is) ε

theorem validate_eq_ok_iff :
    g.validate.1 = .ok () ↔
      g.Declares (.nonterminal g.start) ∧ ∃ p ∈ g.productions, p.lhs = g.start := by
  have hok : g.validate.1 = .ok () ↔ g.fatal? = none := by
    unfold validate
    cases g.fatal? <;> simp
  rw [hok, fatal?, Declares]
  cases hname : g.nonterminals[g.start]? with
  | none =>
    have hstart := Nat.not_lt.2 (List.getElem?_eq_none_iff.1 hname)
    cases hempty : g.productions.isEmpty <;> simp [hstart]
  | some name =>
    have hstart := (List.getElem?_eq_some_iff.1 hname).1
    cases hempty : g.productions.isEmpty with
    | true => simp [List.isEmpty_iff.1 hempty]
    | false => simp [hstart]

theorem declares_start_of_validate (h : g.validate.1 = .ok ()) :
    g.Declares (.nonterminal g.start) :=
  (validate_eq_ok_iff.1 h).1

theorem RightmostStep.declares {i : Nat} {γ δ : List Symbol} (h : g.RightmostStep i γ δ)
    (hγ : ∀ s ∈ γ, g.Declares s) : ∀ s ∈ δ, g.Declares s := by
  obtain ⟨hp, front, back⟩ := h
  intro s hs
  rcases List.mem_append.1 hs with hs | hs
  · exact hγ s (List.mem_append_left _ hs)
  · rcases List.mem_append.1 hs with hs | hs
    · exact hp.2.2 s hs
    · exact hγ s (List.mem_append_right _ (List.mem_cons_of_mem _ hs))

theorem Rightmost.declares {is : List Nat} {γ δ : List Symbol} (h : g.Rightmost γ is δ)
    (hγ : ∀ s ∈ γ, g.Declares s) : ∀ s ∈ δ, g.Declares s := by
  induction h with
  | refl γ => exact hγ
  | step hstep _ ih => exact ih (hstep.declares hγ)

def Yields (g : Grammar) (γ : List Symbol) (w : List Nat) : Prop :=
  ∃ is, g.Rightmost γ is (w.map .terminal)

/-! ### Forests -/

/-- The trees of some symbols spell a string, with productions listed in the order of completion. -/
inductive Forest (g : Grammar) : List Symbol → List Nat → List Nat → Prop
  | nil : Forest g [] [] []
  | terminal {γ : List Symbol} {w is : List Nat} (a : Nat) :
    Forest g γ w is → Forest g (.terminal a :: γ) (a :: w) is
  | nonterminal {i : Nat} {p : Production} {γ : List Symbol} {v w is js : List Nat} :
    g.Usable i p → Forest g p.rhs v is → Forest g γ w js →
      Forest g (.nonterminal p.lhs :: γ) (v ++ w) (is ++ i :: js)

theorem forest_terminals (w : List Nat) : g.Forest (w.map .terminal) w [] := by
  induction w with
  | nil => exact .nil
  | cons a w ih => exact .terminal a ih

theorem Forest.append {γ δ : List Symbol} {v w is js : List Nat} (h : g.Forest γ v is)
    (h' : g.Forest δ w js) : g.Forest (γ ++ δ) (v ++ w) (is ++ js) := by
  induction h with
  | nil => exact h'
  | terminal a _ ih => exact .terminal a ih
  | nonterminal hp hbody _ _ ih =>
    simp only [List.append_assoc, List.cons_append]
    exact .nonterminal hp hbody ih

/-- The trees of a sequence are those of its first part and those of the rest. -/
theorem Forest.exists_append {γ δ : List Symbol} {w is : List Nat} (h : g.Forest (γ ++ δ) w is) :
    ∃ v v' js js', w = v ++ v' ∧ is = js ++ js' ∧ g.Forest γ v js ∧ g.Forest δ v' js' := by
  induction γ generalizing w is with
  | nil => exact ⟨[], w, [], is, rfl, rfl, .nil, h⟩
  | cons s γ ih =>
    cases h with
    | terminal a h =>
      obtain ⟨v, v', js, js', rfl, rfl, hγ, hδ⟩ := ih h
      exact ⟨a :: v, v', js, js', rfl, rfl, .terminal a hγ, hδ⟩
    | @nonterminal i p _ u _ is _ hp hbody h =>
      obtain ⟨v, v', js, js', rfl, rfl, hγ, hδ⟩ := ih h
      exact ⟨u ++ v, v', is ++ i :: js, js', by simp, by simp, .nonterminal hp hbody hγ, hδ⟩

theorem Forest.of_terminals {v w is : List Nat} (h : g.Forest (v.map .terminal) w is) :
    w = v ∧ is = [] := by
  induction v generalizing w is with
  | nil =>
    cases h
    exact ⟨rfl, rfl⟩
  | cons a v ih =>
    cases h with
    | terminal a h =>
      obtain ⟨rfl, rfl⟩ := ih h
      exact ⟨rfl, rfl⟩

/-- A step derives a forest in which the tree of the replaced non-terminal is completed last. -/
theorem RightmostStep.forest {i : Nat} {γ δ : List Symbol} {w is : List Nat}
    (h : g.RightmostStep i γ δ) (hδ : g.Forest δ w is) : g.Forest γ w (is ++ [i]) := by
  obtain ⟨hp, front, back⟩ := h
  obtain ⟨v, v', js, js', rfl, rfl, hfront, hrest⟩ := hδ.exists_append
  obtain ⟨u, u', ks, ks', rfl, rfl, hbody, hback⟩ := hrest.exists_append
  obtain ⟨rfl, rfl⟩ := hback.of_terminals
  simp only [List.append_nil, List.append_assoc]
  exact hfront.append (.nonterminal hp hbody (forest_terminals u'))

theorem Rightmost.forest {γ : List Symbol} {w is : List Nat}
    (h : g.Rightmost γ is (w.map .terminal)) : g.Forest γ w is.reverse := by
  generalize hδ : w.map Symbol.terminal = δ at h
  induction h with
  | refl γ =>
    subst hδ
    exact forest_terminals w
  | step hstep _ ih =>
    rw [List.reverse_cons]
    exact hstep.forest (ih hδ)

theorem Rightmost.trans {γ δ ε : List Symbol} {is js : List Nat} (h : g.Rightmost γ is δ)
    (h' : g.Rightmost δ js ε) : g.Rightmost γ (is ++ js) ε := by
  induction h with
  | refl _ => exact h'
  | step hstep _ ih => exact .step hstep (ih h')

/-- The trees of a forest are taken apart from the right, whatever stands on their left. -/
theorem Forest.rightmost_between {γ : List Symbol} {w is : List Nat} (h : g.Forest γ w is) :
    ∀ (front : List Symbol) (back : List Nat),
      g.Rightmost (front ++ (γ ++ back.map .terminal)) is.reverse
        (front ++ (w ++ back).map .terminal) := by
  induction h with
  | nil => exact fun front back => .refl _
  | terminal x _ ih =>
    intro front back
    have htail := ih (front ++ [.terminal x]) back
    simp only [List.append_assoc, List.singleton_append] at htail
    exact htail
  | @nonterminal i p γ v w is js hp _ _ ihbody ih =>
    intro front back
    have htail := ih (front ++ [.nonterminal p.lhs]) back
    have hstep := RightmostStep.mk hp front (w ++ back)
    have hhead := ihbody front (w ++ back)
    simp only [List.append_assoc, List.singleton_append] at htail
    have hall := htail.trans (.step hstep hhead)
    simpa using hall

/-- A forest in front of a string is derived in the order opposite to that of completion. -/
theorem Forest.rightmost {γ : List Symbol} {w is : List Nat} (h : g.Forest γ w is)
    (back : List Nat) :
    g.Rightmost (γ ++ back.map .terminal) is.reverse ((w ++ back).map .terminal) :=
  h.rightmost_between [] back

theorem yields_iff_exists_forest {γ : List Symbol} {w : List Nat} :
    g.Yields γ w ↔ ∃ is, g.Forest γ w is := by
  constructor
  · rintro ⟨is, his⟩
    exact ⟨_, his.forest⟩
  · rintro ⟨is, his⟩
    have hrightmost := his.rightmost []
    simp only [List.map_nil, List.append_nil] at hrightmost
    exact ⟨_, hrightmost⟩

end SyntaxTables.Grammar
