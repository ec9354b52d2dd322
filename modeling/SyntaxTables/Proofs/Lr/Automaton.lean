import SyntaxTables.Proofs.Lr.Closure

/-!
# What parsing relies on

The states of an automaton need not be the closed sets that its grammar leads to: merged states hold
more. What soundness and completeness of a parser need is that a state holds the predictions of its
items, that an edge moves the mark in all items that it can, and that an item with a moved mark has
come over an edge, as far as its core tells.
-/

namespace SyntaxTables

theorem lookup_eq_some_iff_mem {β : Type} {es : List (Symbol × β)} (h : (es.map Prod.fst).Nodup)
    {s : Symbol} {t : β} : es.lookup s = some t ↔ (s, t) ∈ es := by
  induction es with
  | nil => simp
  | cons e es ih =>
    obtain ⟨s', t'⟩ := e
    obtain ⟨hnot, hes⟩ := List.nodup_cons.1 h
    rw [List.lookup_cons]
    by_cases hs : s = s'
    · subst hs
      have hne : (s, t) ∉ es := fun hm => hnot (List.mem_map.2 ⟨(s, t), hm, rfl⟩)
      simp [hne, eq_comm]
    · simp [hs, ih hes, beq_false_of_ne hs]

theorem lookup_map_snd {β γ : Type} (f : β → γ) (es : List (Symbol × β)) (s : Symbol) :
    (es.map fun e => (e.1, f e.2)).lookup s = (es.lookup s).map f := by
  induction es with
  | nil => rfl
  | cons e es ih =>
    rw [List.map_cons, List.lookup_cons, List.lookup_cons]
    cases s == e.1
    · exact ih
    · rfl

namespace LrAutomaton

variable {g : Grammar} {a : LrAutomaton}

def Holds (a : LrAutomaton) (s : Nat) (it : Item) : Prop :=
  ∃ q, a.states[s]? = some q ∧ it ∈ q.items

def Edge (a : LrAutomaton) (s : Nat) (x : Symbol) (t : Nat) : Prop :=
  ∃ q, a.states[s]? = some q ∧ q.target? x = some t

theorem holds_iff_mem {s : Nat} {q : LrState} (hq : a.states[s]? = some q) {it : Item} :
    a.Holds s it ↔ it ∈ q.items := by
  simp [Holds, hq]

theorem edge_iff_target? {s t : Nat} {q : LrState} (hq : a.states[s]? = some q) {x : Symbol} :
    a.Edge s x t ↔ q.target? x = some t := by
  simp [Edge, hq]

/-- An automaton can serve to parse sentences of a grammar. -/
structure Faithful (g : Grammar) (a : LrAutomaton) : Prop where
  augmented : a.augmented = g.augmented
  ascending : ∀ q ∈ a.states, q.items.Pairwise fun it it' => compare it it' = .lt
  keys : ∀ q ∈ a.states, (q.edges.map Prod.fst).Nodup
  start : a.Holds 0 ⟨g.augmented, 0, g.eof⟩
  admits : ∀ {s it}, a.Holds s it → g.Admits it
  predicts : ∀ {s it it'}, a.Holds s it → it' ∈ g.closureTable.predictions it → a.Holds s it'
  advances : ∀ {s it x}, a.Holds s it → (g.body it.production)[it.dot]? = some x →
    ∃ t, a.Edge s x t ∧ a.Holds t it.advance
  enters : ∀ {s x t}, a.Edge s x t → t < a.states.length ∧ t ≠ 0
  carries : ∀ {s x t}, a.Edge s x t →
    ∃ it, a.Holds s it ∧ (g.body it.production)[it.dot]? = some x
  retreats : ∀ {s x t it d}, a.Edge s x t → a.Holds t it → it.dot = d + 1 →
    (g.body it.production)[d]? = some x ∧ ∃ b, a.Holds s ⟨it.production, d, b⟩
  begins : ∀ {it}, a.Holds 0 it → it.dot = 0
  only_start : ∀ {s it}, a.Holds s it → it.core = ⟨g.augmented, 0⟩ → s = 0

theorem Faithful.declares (h : Faithful g a) (hstart : g.Declares (.nonterminal g.start))
    {s t : Nat} {x : Symbol} (he : a.Edge s x t) : g.Declares x := by
  obtain ⟨it, hit, hx⟩ := h.carries he
  exact (h.admits hit).declares hstart x (List.mem_of_getElem? hx)

theorem Edge.unique {s t t' : Nat} {x : Symbol} (he : a.Edge s x t) (he' : a.Edge s x t') :
    t = t' := by
  obtain ⟨q, hq, ht⟩ := he
  obtain ⟨q', hq', ht'⟩ := he'
  obtain rfl := Option.some.inj (hq.symm.trans hq')
  exact Option.some.inj (ht.symm.trans ht')

theorem Faithful.holds_advance (h : Faithful g a) {s t : Nat} {x : Symbol} {it : Item}
    (he : a.Edge s x t) (hit : a.Holds s it) (hx : (g.body it.production)[it.dot]? = some x) :
    a.Holds t it.advance := by
  obtain ⟨t', he', hit'⟩ := h.advances hit hx
  rwa [he.unique he']

theorem Faithful.symbol_unique (h : Faithful g a) {s s' t : Nat} {x y : Symbol}
    (he : a.Edge s x t) (he' : a.Edge s' y t) : x = y := by
  obtain ⟨it, hit, hx⟩ := h.carries he
  have hy := (h.retreats he' (h.holds_advance he hit hx) rfl).1
  exact Option.some.inj (hx.symm.trans hy)

/-! ### Stacks -/

/-- A path from the start state, the last state first, with the symbols on its edges in order. -/
inductive Stack (a : LrAutomaton) : List Nat → List Symbol → Prop
  | bottom : Stack a [0] []
  | push {s t : Nat} {ss : List Nat} {γ : List Symbol} {x : Symbol} :
    Stack a (s :: ss) γ → a.Edge s x t → Stack a (t :: s :: ss) (γ ++ [x])

theorem Stack.lt_length (h : Faithful g a) {s : Nat} {ss : List Nat} {γ : List Symbol}
    (hs : Stack a (s :: ss) γ) : s < a.states.length := by
  cases hs with
  | bottom =>
    obtain ⟨q, hq, -⟩ := h.start
    exact (List.getElem?_eq_some_iff.1 hq).1
  | push _ he => exact (h.enters he).1

theorem Stack.forall_lt (h : Faithful g a) {ss : List Nat} {γ : List Symbol} (hs : Stack a ss γ) :
    ∀ s ∈ ss, s < a.states.length := by
  induction hs with
  | bottom => exact List.forall_mem_singleton.2 (Stack.bottom.lt_length h)
  | push _ he ih => exact List.forall_mem_cons.2 ⟨(h.enters he).1, ih⟩

theorem Stack.exists_holds (h : Faithful g a) {s : Nat} {ss : List Nat} {γ : List Symbol}
    (hs : Stack a (s :: ss) γ) : ∃ it, a.Holds s it := by
  cases hs with
  | bottom => exact ⟨_, h.start⟩
  | push _ he =>
    obtain ⟨it, hit, hx⟩ := h.carries he
    exact ⟨_, h.holds_advance he hit hx⟩

theorem Stack.exists_edge {s t : Nat} {ss : List Nat} {γ : List Symbol}
    (hs : Stack a (t :: s :: ss) γ) : ∃ δ x, γ = δ ++ [x] ∧ Stack a (s :: ss) δ ∧ a.Edge s x t := by
  cases hs with
  | push hs he => exact ⟨_, _, rfl, hs, he⟩

/-- Below an item in the last state lie the symbols in front of its mark, and below these a state in
which the item begins. -/
theorem Stack.exists_beginning (h : Faithful g a) {s d : Nat} {ss : List Nat} {γ : List Symbol}
    (hs : Stack a (s :: ss) γ) {it : Item} (hit : a.Holds s it) (hd : it.dot = d) :
    ∃ front s' ss', γ = front ++ (g.body it.production).take d ∧
      (s :: ss).drop d = s' :: ss' ∧ Stack a (s' :: ss') front ∧
      ∃ b, a.Holds s' ⟨it.production, 0, b⟩ := by
  induction d generalizing s ss γ it with
  | zero =>
    refine ⟨γ, s, ss, by simp, rfl, hs, it.lookahead, ?_⟩
    rwa [← hd]
  | succ d ih =>
    cases hs with
    | bottom =>
      have hzero := h.begins hit
      omega
    | @push s₁ _ ss₁ γ x hs he =>
      obtain ⟨hx, b, hit'⟩ := h.retreats he hit hd
      obtain ⟨front, s', ss', rfl, hdrop, hs', hb⟩ := ih hs hit' rfl
      refine ⟨front, s', ss', ?_, hdrop, hs', hb⟩
      rw [List.take_add_one, hx, List.append_assoc]
      rfl

/-- An item that begins below moves its mark along what lies above. -/
theorem Stack.holds_moved (h : Faithful g a) {i b d s s' : Nat} {ss rest : List Nat}
    {front : List Symbol} (hs : Stack a (s :: ss) (front ++ (g.body i).take d))
    (hdrop : (s :: ss).drop d = s' :: rest) (hb : a.Holds s' ⟨i, 0, b⟩)
    (hd : d ≤ (g.body i).length) : a.Holds s ⟨i, d, b⟩ := by
  induction d generalizing s ss with
  | zero =>
    obtain rfl : s = s' := (List.cons.inj hdrop).1
    exact hb
  | succ d ih =>
    have hget : (g.body i)[d]? = some (g.body i)[d] := List.getElem?_eq_getElem hd
    rw [List.take_add_one, hget, Option.toList_some, ← List.append_assoc] at hs
    cases ss with
    | nil => simp at hdrop
    | cons s₁ ss =>
      obtain ⟨δ, x, hδ, hs₁, he⟩ := hs.exists_edge
      obtain ⟨rfl, hx⟩ := List.append_inj' hδ rfl
      obtain rfl := List.singleton_inj.1 hx
      exact h.holds_advance he (ih hs₁ hdrop (Nat.le_of_succ_le hd)) hget

end LrAutomaton

end SyntaxTables
