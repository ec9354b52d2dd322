import SyntaxTables.Proofs.Grammar.Productive
import SyntaxTables.Proofs.Lr.Justified

/-!
# Valid items

An item is valid for some symbols if a rightmost derivation comes to a sentential form in which the
symbols end where the mark stands in the body of the production, and the lookahead comes behind this
body. Items that a stack justifies are valid, as each prediction derives what is behind the mark
down to a string. Conversely a rightmost derivation leads a stack to every item that is valid. In a
sentential form a stack waits for a non-terminal as soon as what is behind the non-terminal derives
a string, and this is kept by each step.
-/

namespace SyntaxTables

/-- A symbol of two lists one behind the other is in the first or in the second. -/
theorem split_append {α : Type} {front back δ η : List α} {y : α}
    (h : front ++ back = δ ++ y :: η) :
    (∃ c, front = δ ++ y :: c ∧ η = c ++ back) ∨ ∃ c, δ = front ++ c ∧ back = c ++ y :: η := by
  rcases List.append_eq_append_iff.1 h with ⟨c, hδ, hback⟩ | ⟨c, hfront, hη⟩
  · exact Or.inr ⟨c, hδ, hback⟩
  · cases c with
    | nil => exact Or.inr ⟨[], by simpa using hfront.symm, by simpa using hη.symm⟩
    | cons z c =>
      rw [List.cons_append, List.cons.injEq] at hη
      obtain ⟨rfl, hη⟩ := hη
      exact Or.inl ⟨c, hfront, hη⟩

namespace Grammar

variable {g : Grammar}

/-- The items valid for some symbols. The augmented production derives the start symbol with nothing
around it. -/
inductive Valid (g : Grammar) : List Symbol → Item → Prop
  | start {d : Nat} : d ≤ 1 → Valid g ((g.body g.augmented).take d) ⟨g.augmented, d, g.eof⟩
  | mk {i d : Nat} {p : Production} {is w : List Nat} {δ : List Symbol} :
    g.Usable i p → d ≤ p.rhs.length →
      g.Rightmost [.nonterminal g.start] is (δ ++ .nonterminal p.lhs :: w.map .terminal) →
      Valid g (δ ++ p.rhs.take d) ⟨i, d, w.headD g.eof⟩

theorem Valid.advance {γ : List Symbol} {it : Item} {x : Symbol} (hv : g.Valid γ it)
    (hx : (g.body it.production)[it.dot]? = some x) : g.Valid (γ ++ [x]) it.advance := by
  have hlt := (List.getElem?_eq_some_iff.1 hx).1
  cases hv with
  | @start d hd =>
    rw [body_augmented, List.length_singleton] at hlt
    have hmoved : (g.body g.augmented).take (d + 1) = (g.body g.augmented).take d ++ [x] := by
      rw [List.take_add_one, hx, Option.toList_some]
    rw [← hmoved]
    exact .start hlt
  | @mk i d p is w δ hp hd hder =>
    rw [body_of_usable hp] at hlt hx
    have hmoved : p.rhs.take (d + 1) = p.rhs.take d ++ [x] := by
      rw [List.take_add_one, hx, Option.toList_some]
    rw [List.append_assoc, ← hmoved]
    exact .mk hp hlt hder

/-- What is behind the mark derives a string that begins as the prediction tells, so the predicted
production can take part in a rightmost derivation at this place. -/
theorem Valid.predict (hlive : g.Productive fun n => g.Declares (.nonterminal n)) {γ : List Symbol}
    {it it' : Item} (hv : g.Valid γ it) (hit' : it' ∈ g.closureTable.predictions it) :
    g.Valid γ it' := by
  obtain ⟨p, rest, hdrop, hp, hdot, hb⟩ := mem_predictions.1 hit'
  obtain ⟨j, d, b⟩ := it'
  obtain rfl : d = 0 := hdot
  cases hv with
  | @start d hd =>
    rw [body_augmented] at hdrop
    obtain rfl : d = 0 := by
      by_contra hne
      simp [show d = 1 by omega] at hdrop
    obtain ⟨hlhs, rfl⟩ : .nonterminal g.start = Symbol.nonterminal p.lhs ∧ [] = rest := by
      simpa using hdrop
    obtain rfl : b = g.eof := FirstSets.mem_lookaheads_nil.1 hb
    have hder := Rightmost.refl (g := g) [.nonterminal g.start]
    nth_rewrite 2 [hlhs] at hder
    exact .mk (δ := []) (w := []) hp (Nat.zero_le _) hder
  | @mk i d q is w δ hq hd hder =>
    rw [body_of_usable hq] at hdrop
    have hrest : AllLive (fun n => g.Declares (.nonterminal n)) rest := by
      intro n hn
      have hmem : .nonterminal n ∈ q.rhs.drop d := hdrop ▸ List.mem_cons_of_mem _ hn
      exact hq.2.2 _ (List.mem_of_mem_drop hmem)
    obtain ⟨v, js, hv, hhead⟩ := hlive.exists_forest_of_mem_lookaheads hrest hb
    obtain rfl : (v ++ w).headD g.eof = b := hhead w g.eof rfl
    have hbody := hder.trans (.step (.mk hq δ w) (.refl _))
    have hbehind := hv.rightmost_between (δ ++ q.rhs.take d ++ [.nonterminal p.lhs]) w
    rw [← List.take_append_drop d q.rhs, hdrop] at hbody
    have hvalid := Valid.mk (d := 0) (δ := δ ++ q.rhs.take d) (w := v ++ w) hp (Nat.zero_le _)
      (by simpa using hbody.trans (by simpa using hbehind))
    simpa using hvalid

end Grammar

namespace LrAutomaton

open Grammar

variable {g : Grammar} {a : LrAutomaton}

theorem Stack.unique {ss ss' : List Nat} {γ : List Symbol} (hs : Stack a ss γ)
    (hs' : Stack a ss' γ) : ss = ss' := by
  induction hs generalizing ss' with
  | bottom =>
    generalize hγ : ([] : List Symbol) = γ at hs'
    cases hs' with
    | bottom => rfl
    | push _ _ => simp at hγ
  | @push s t ss γ x _ he ih =>
    generalize hγ : γ ++ [x] = γ' at hs'
    cases hs' with
    | bottom => simp at hγ
    | push hs' he' =>
      obtain ⟨rfl, hx⟩ := List.append_inj' hγ rfl
      obtain rfl := List.singleton_inj.1 hx
      obtain ⟨rfl, rfl⟩ := List.cons.inj (ih hs')
      rw [he.unique he']

theorem Justified.valid (h : Faithful g a)
    (hlive : g.Productive fun n => g.Declares (.nonterminal n)) {ss : List Nat} {it : Item}
    (hj : Justified g a ss it) {γ : List Symbol} (hs : Stack a ss γ) : g.Valid γ it := by
  induction hj generalizing γ with
  | start =>
    obtain rfl : [] = γ := by
      cases hs
      rfl
    exact .start (d := 0) (Nat.zero_le _)
  | predict _ hit' ih => exact (ih hs).predict hlive hit'
  | advance _ hx he ih =>
    obtain ⟨δ, y, rfl, hs, he'⟩ := hs.exists_edge
    rw [h.symbol_unique he' he]
    exact (ih hs).advance hx

/-- Over some symbols a stack leads to a state with an item whose mark stands before a non-terminal
behind which a terminal can come. -/
def Awaits (g : Grammar) (a : LrAutomaton) (γ : List Symbol) (n x : Nat) : Prop :=
  ∃ s ss it, Stack a (s :: ss) γ ∧ a.Holds s it ∧
    (g.body it.production)[it.dot]? = some (.nonterminal n) ∧ g.Expects it.advance x

/-- In a sentential form each non-terminal is awaited, if the symbols behind it derive a string. -/
def Prepared (g : Grammar) (a : LrAutomaton) (φ : List Symbol) : Prop :=
  ∀ δ n η w is, φ = δ ++ .nonterminal n :: η → g.Forest η w is → Awaits g a δ n (w.headD g.eof)

variable (h : Faithful g a)

include h

/-- An item moves its mark on while the symbols of the body are stacked. -/
theorem Stack.exists_moved {s i b d : Nat} {ss : List Nat} {γ : List Symbol}
    (hs : Stack a (s :: ss) γ) (hit : a.Holds s ⟨i, 0, b⟩) (hd : d ≤ (g.body i).length) :
    ∃ s' ss', Stack a (s' :: ss') (γ ++ (g.body i).take d) ∧ a.Holds s' ⟨i, d, b⟩ := by
  induction d with
  | zero =>
    rw [List.take_zero, List.append_nil]
    exact ⟨s, ss, hs, hit⟩
  | succ d ih =>
    obtain ⟨s', ss', hs', hit'⟩ := ih (Nat.le_of_succ_le hd)
    have hx : (g.body i)[d]? = some (g.body i)[d] := List.getElem?_eq_getElem hd
    obtain ⟨t, he, ht⟩ := h.advances hit' hx
    rw [List.take_add_one, hx, Option.toList_some, ← List.append_assoc]
    exact ⟨t, _, hs'.push he, ht⟩

/-- Where the left-hand side of a production is awaited, its body can be stacked. -/
theorem Awaits.exists_moved {i d x : Nat} {p : Production} {γ : List Symbol}
    (hw : Awaits g a γ p.lhs x) (hp : g.Usable i p) (hd : d ≤ p.rhs.length) :
    ∃ s ss, Stack a (s :: ss) (γ ++ p.rhs.take d) ∧ a.Holds s ⟨i, d, x⟩ := by
  obtain ⟨s, ss, it, hs, hit, hnext, hx⟩ := hw
  have hbegin : a.Holds s ⟨i, 0, x⟩ :=
    h.predicts hit (mem_predictions_iff.2 ⟨p, hnext, hp, rfl, hx⟩)
  rw [← body_of_usable hp] at hd ⊢
  exact hs.exists_moved h hbegin hd

theorem prepared_start : Prepared g a [.nonterminal g.start] := by
  intro δ n η w is hsplit hη
  obtain ⟨rfl, hn, rfl⟩ : δ = [] ∧ n = g.start ∧ η = [] := by
    cases δ <;> simp_all
  cases hη
  exact ⟨0, [], _, .bottom, h.start, by simp [body_augmented, hn], by
    simpa [Expects, Item.advance, body_augmented] using FirstSets.mem_lookaheads_nil.2 rfl⟩

/-- A step brings in the body of a production, and its non-terminals are awaited as the item of the
production moves along the body. -/
theorem Prepared.step {i : Nat} {φ ψ : List Symbol} (hφ : Prepared g a φ)
    (hstep : g.RightmostStep i φ ψ) : Prepared g a ψ := by
  intro δ n η w is hsplit hη
  obtain @⟨p, hp, front, back⟩ := hstep
  rcases split_append hsplit with ⟨c, rfl, rfl⟩ | ⟨c, rfl, htail⟩
  · -- in front of the body nothing has changed but what is behind the non-terminal
    exact hφ δ n _ w _ (by simp) ((RightmostStep.mk hp c back).forest hη)
  · rcases split_append htail with ⟨e, hbody, rfl⟩ | ⟨e, -, hback⟩
    · obtain ⟨v, v', js, js', rfl, -, hv, hv'⟩ := hη.exists_append
      obtain ⟨rfl, -⟩ := hv'.of_terminals
      have hlt : c.length < p.rhs.length := by simp [hbody]
      have hwaits := hφ front p.lhs _ _ _ rfl hv'
      obtain ⟨s, ss, hs, hit⟩ := hwaits.exists_moved h hp (Nat.le_of_lt hlt)
      have hlook : (v ++ v').headD g.eof ∈ g.firstSets.lookaheads (e ++ []) (v'.headD g.eof) :=
        hv.head_mem_lookaheads (FirstSets.mem_lookaheads_nil.2 rfl)
      refine ⟨s, ss, _, by simpa [hbody] using hs, hit, by simp [body_of_usable hp, hbody], ?_⟩
      simpa [Expects, Item.advance, body_of_usable hp, hbody] using hlook
    · have hmem : Symbol.nonterminal n ∈ back.map Symbol.terminal := by simp [hback]
      simp at hmem

theorem Prepared.of_rightmost {is : List Nat} {φ ψ : List Symbol} (hφ : Prepared g a φ)
    (hder : g.Rightmost φ is ψ) : Prepared g a ψ := by
  induction hder with
  | refl => exact hφ
  | step hstep _ ih => exact ih (hφ.step h hstep)

theorem exists_stack_of_valid {γ : List Symbol} {it : Item} (hv : g.Valid γ it) :
    ∃ s ss, Stack a (s :: ss) γ ∧ a.Holds s it := by
  cases hv with
  | start hd => exact Stack.bottom.exists_moved h h.start (by simpa [body_augmented] using hd)
  | mk hp hd hder =>
    have hwaits := (prepared_start h).of_rightmost h hder _ _ _ _ _ rfl (forest_terminals _)
    exact hwaits.exists_moved h hp hd

end LrAutomaton

namespace Grammar

open LrAutomaton

variable {g : Grammar}

/-- The canonical collection holds exactly the valid items. -/
theorem canonicalLr_valid (h : g.validate.1 = .ok ())
    (hproductive : ∀ n, g.Declares (.nonterminal n) → ∃ w, g.Yields [.nonterminal n] w)
    (γ : List Symbol) :
    ((∃ s ss, Stack g.canonicalLr (s :: ss) γ) ↔ ∃ it, g.Valid γ it) ∧
      ∀ s ss, Stack g.canonicalLr (s :: ss) γ → ∀ it, g.canonicalLr.Holds s it ↔ g.Valid γ it := by
  have hstart := declares_start_of_validate h
  have hfaithful := faithful_canonicalLr hstart
  have hlive : g.Productive fun n => g.Declares (.nonterminal n) :=
    ⟨hproductive, fun hp _ n hn => hp.2.2 _ hn⟩
  have hitems : ∀ s ss, Stack g.canonicalLr (s :: ss) γ →
      ∀ it, g.canonicalLr.Holds s it ↔ g.Valid γ it := by
    intro s ss hs it
    constructor
    · intro hit
      exact (justified_of_stack hstart hs hit).valid hfaithful hlive hs
    · intro hv
      obtain ⟨s', ss', hs', hit⟩ := exists_stack_of_valid hfaithful hv
      obtain ⟨rfl, rfl⟩ := List.cons.inj (hs.unique hs')
      exact hit
  refine ⟨?_, hitems⟩
  constructor
  · rintro ⟨s, ss, hs⟩
    obtain ⟨it, hit⟩ := hs.exists_holds hfaithful
    exact ⟨it, (hitems s ss hs it).1 hit⟩
  · rintro ⟨it, hv⟩
    obtain ⟨s, ss, hs, -⟩ := exists_stack_of_valid hfaithful hv
    exact ⟨s, ss, hs⟩

/-- A grammar in which the empty string can come behind `a`. -/
def tailed : Grammar where
  terminals := ["a", "b"]
  nonterminals := ["S", "A", "B"]
  start := 0
  productions := [⟨.normal, 0, [.nonterminal 1, .nonterminal 2], none⟩,
    ⟨.normal, 1, [.terminal 0], none⟩, ⟨.normal, 2, [.terminal 1], none⟩,
    ⟨.normal, 2, [], none⟩]

/-- Two items are valid for `a`, as the end of input can come behind it as well as `b`. -/
theorem canonicalLr_valid_tailed :
    (∀ it, tailed.Valid [.terminal 0] it ↔ it ∈ ([⟨1, 1, 1⟩, ⟨1, 1, 2⟩] : List Item)) ∧
      ((∃ s ss, Stack tailed.canonicalLr (s :: ss) [.terminal 0]) ↔
        ∃ it, tailed.Valid [.terminal 0] it) ∧
      ∀ s ss, Stack tailed.canonicalLr (s :: ss) [.terminal 0] →
        ∀ it, tailed.canonicalLr.Holds s it ↔ tailed.Valid [.terminal 0] it := by
  have hvalid : tailed.validate.1 = .ok () := by decide +kernel
  have hproductive : ∀ n, tailed.Declares (.nonterminal n) →
      ∃ w, tailed.Yields [.nonterminal n] w := by
    have hA : tailed.Yields [.nonterminal 1] [0] :=
      ⟨[1], .step (.mk (p := ⟨.normal, 1, [.terminal 0], none⟩) ⟨rfl, by decide⟩ [] []) (.refl _)⟩
    have hB : tailed.Yields [.nonterminal 2] [] :=
      ⟨[3], .step (.mk (p := ⟨.normal, 2, [], none⟩) ⟨rfl, by decide⟩ [] []) (.refl _)⟩
    have hS : tailed.Yields [.nonterminal 0] [0] := by
      refine ⟨[0, 3, 1], .step (.mk (p := ⟨.normal, 0, [.nonterminal 1, .nonterminal 2], none⟩)
        ⟨rfl, by decide⟩ [] []) (.step (.mk (p := ⟨.normal, 2, [], none⟩) ⟨rfl, by decide⟩
          [.nonterminal 1] []) ?_)⟩
      exact .step (.mk (p := ⟨.normal, 1, [.terminal 0], none⟩) ⟨rfl, by decide⟩ [] []) (.refl _)
    intro n hn
    have hlt : n < 3 := hn
    obtain rfl | rfl | rfl : n = 0 ∨ n = 1 ∨ n = 2 := by omega
    · exact ⟨[0], hS⟩
    · exact ⟨[0], hA⟩
    · exact ⟨[], hB⟩
  have hall := canonicalLr_valid hvalid hproductive [.terminal 0]
  refine ⟨fun it => ?_, hall⟩
  have hedge : tailed.canonicalLr.states[0]?.bind (LrState.target? · (.terminal 0)) = some 1 := by
    decide +kernel
  obtain ⟨q, hq, ht⟩ := Option.bind_eq_some_iff.1 hedge
  have hstack := Stack.bottom.push (a := tailed.canonicalLr) ⟨q, hq, ht⟩
  have hitems : tailed.canonicalLr.states[1]?.map LrState.items = some [⟨1, 1, 1⟩, ⟨1, 1, 2⟩] := by
    decide +kernel
  obtain ⟨r, hr, hitems⟩ := Option.map_eq_some_iff.1 hitems
  rw [← hall.2 1 _ hstack it, holds_iff_mem hr, hitems]

end Grammar

end SyntaxTables
