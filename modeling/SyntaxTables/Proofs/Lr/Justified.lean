import SyntaxTables.ParseTable.Fill
import SyntaxTables.Proofs.Lr.Merge

/-!
# Items justified by a stack

A stack justifies an item if the item can be traced back to the start along it: each prediction is
made in the state where it is used, and each mark has moved over the edge that was taken. In the
canonical automaton the top state holds exactly the items that the stack justifies. A merged state
holds more, yet every item that it holds is justified by some stack, and on a given stack by itself
or with another lookahead.
-/

namespace SyntaxTables

namespace LrAutomaton

variable {g : Grammar} {a : LrAutomaton}

inductive Justified (g : Grammar) (a : LrAutomaton) : List Nat → Item → Prop
  | start : Justified g a [0] ⟨g.augmented, 0, g.eof⟩
  | predict {ss : List Nat} {it it' : Item} :
    Justified g a ss it → it' ∈ g.closureTable.predictions it → Justified g a ss it'
  | advance {s t : Nat} {ss : List Nat} {it : Item} {x : Symbol} :
    Justified g a (s :: ss) it → (g.body it.production)[it.dot]? = some x → a.Edge s x t →
      Justified g a (t :: s :: ss) it.advance

theorem Justified.of_reaches {ss : List Nat} {it it' : Item} (h : Justified g a ss it)
    (hr : Exploration.Reaches g.closureTable.predictions it it') : Justified g a ss it' := by
  induction hr with
  | refl => exact h
  | tail _ hstep ih => exact ih.predict hstep

theorem Justified.exists_top (h : Faithful g a) {ss : List Nat} {it : Item}
    (hj : Justified g a ss it) : ∃ s rest, ss = s :: rest ∧ a.Holds s it := by
  induction hj with
  | start => exact ⟨0, [], rfl, h.start⟩
  | predict _ hit' ih =>
    obtain ⟨s, rest, rfl, hit⟩ := ih
    exact ⟨s, rest, rfl, h.predicts hit hit'⟩
  | @advance s t ss it x _ hx he ih =>
    obtain ⟨_, _, heq, hit⟩ := ih
    obtain ⟨rfl, rfl⟩ := List.cons.inj heq
    exact ⟨t, s :: ss, rfl, h.holds_advance he hit hx⟩

theorem Justified.holds (h : Faithful g a) {s : Nat} {ss : List Nat} {it : Item}
    (hj : Justified g a (s :: ss) it) : a.Holds s it := by
  obtain ⟨_, _, heq, hit⟩ := hj.exists_top h
  obtain ⟨rfl, rfl⟩ := List.cons.inj heq
  exact hit

/-- The beginning of a declared production is predicted from an item that is justified as well. -/
theorem Justified.exists_parent {ss : List Nat} {i b : Nat} (hj : Justified g a ss ⟨i, 0, b⟩)
    (hi : i ≠ g.augmented) :
    ∃ it, Justified g a ss it ∧ ⟨i, 0, b⟩ ∈ g.closureTable.predictions it := by
  generalize hit : Item.mk i 0 b = it at hj
  cases hj with
  | start =>
    cases hit
    exact absurd rfl hi
  | predict hj hit' => exact ⟨_, hj, hit'⟩
  | advance _ _ _ => simp [Item.advance] at hit

theorem Justified.lookahead_eq_eof {ss : List Nat} {it : Item} (hj : Justified g a ss it)
    (hi : it.production = g.augmented) : it.lookahead = g.eof := by
  induction hj with
  | start => rfl
  | predict _ hit' _ =>
    obtain ⟨p, -, hp, -, -⟩ := Grammar.mem_predictions_iff.1 hit'
    exact absurd hi (Nat.ne_of_lt (Grammar.lt_length_of_usable hp))
  | advance _ _ _ ih => exact ih hi

/-- A terminal that can come behind a mark, above an edge on a non-terminal, makes the productions
of this non-terminal begin below the edge with it as their lookahead. -/
theorem Justified.exists_below (h : Faithful g a) {s t i x : Nat} {ss : List Nat} {it : Item}
    {p : Production} (hj : Justified g a (t :: s :: ss) it) (hx : g.Expects it x)
    (he : a.Edge s (.nonterminal p.lhs) t) (hp : g.Usable i p) :
    Justified g a (s :: ss) ⟨i, 0, x⟩ := by
  generalize hts : t :: s :: ss = ts at hj
  induction hj with
  | start => simp at hts
  | predict _ hit' ih => exact ih (hx.of_predicted hit') hts
  | advance hj hnext he' _ =>
    obtain ⟨rfl, hrest⟩ := List.cons.inj hts
    obtain ⟨rfl, rfl⟩ := List.cons.inj hrest
    rw [h.symbol_unique he' he] at hnext
    exact hj.predict (Grammar.mem_predictions_iff.2 ⟨p, hnext, hp, rfl, hx⟩)

/-- All items held are justified, each by some stack, and each core by every stack. -/
structure Grounded (g : Grammar) (a : LrAutomaton) : Prop where
  held : ∀ {s it}, a.Holds s it → ∃ ss, Justified g a (s :: ss) it
  on_stack : ∀ {s ss γ it}, Stack a (s :: ss) γ → a.Holds s it →
    ∃ b, Justified g a (s :: ss) ⟨it.production, it.dot, b⟩

end LrAutomaton

/-! ### The canonical automaton -/

namespace Grammar

open LrAutomaton

variable {g : Grammar} (hstart : g.Declares (.nonterminal g.start))

include hstart

/-- The top state of a stack holds only what this stack justifies. -/
theorem justified_of_stack {s : Nat} {ss : List Nat} {γ : List Symbol} {it : Item}
    (hs : Stack g.canonicalLr (s :: ss) γ) (hit : g.canonicalLr.Holds s it) :
    Justified g g.canonicalLr (s :: ss) it := by
  generalize hall : s :: ss = all at hs
  induction hs generalizing s ss it with
  | bottom =>
    obtain ⟨rfl, rfl⟩ := List.cons.inj hall
    obtain ⟨q, hq, hit⟩ := hit
    obtain ⟨q', hq', hitems⟩ := exists_state g.getElem?_zero_lrKernels
    obtain rfl := Option.some.inj (hq.symm.trans hq')
    rw [hitems] at hit
    obtain ⟨k, hk, hr⟩ := (mem_closure hstart (kernel_startKernel g).admits).1 hit
    rw [List.mem_singleton.1 hk] at hr
    exact Justified.start.of_reaches hr
  | push _ he ih =>
    obtain ⟨rfl, rfl⟩ := List.cons.inj hall
    obtain ⟨r, hr, hit⟩ := hit
    obtain ⟨q, r', kernel, hq, hr', -, hkernel, rfl, -, hitems⟩ := exists_of_edge hstart he
    obtain rfl := Option.some.inj (hr.symm.trans hr')
    rw [hitems] at hit
    obtain ⟨k, hk, hreach⟩ := (mem_closure hstart hkernel.admits).1 hit
    obtain ⟨it', hit', hx, rfl⟩ := mem_advanced.1 hk
    exact ((ih ⟨q, hq, hit'⟩ rfl).advance hx he).of_reaches hreach

theorem exists_stack_of_reaches {kernel : List Item}
    (hr : Exploration.Reaches g.nextKernels g.startKernel kernel) {i : Nat}
    (hi : (g.lrKernels g.closureTable)[i]? = some kernel) :
    ∃ ss γ, Stack g.canonicalLr (i :: ss) γ := by
  induction hr generalizing i with
  | refl =>
    obtain rfl : i = 0 := lrKernels_inj hi g.getElem?_zero_lrKernels
    exact ⟨[], [], .bottom⟩
  | @tail mid next hr hnext ih =>
    obtain ⟨j, hj⟩ := List.mem_iff_getElem?.1 ((mem_lrKernels hstart).2 hr)
    obtain ⟨ss, γ, hstack⟩ := ih hj
    obtain ⟨q, hq, hitems⟩ := exists_state hj
    obtain ⟨-, -, -, -, -, htarget⟩ := exists_kernel hstart hq
    obtain ⟨x, rfl, hne⟩ := mem_nextKernels.1 hnext
    rw [← hitems] at hi hne
    exact ⟨_, _, hstack.push ⟨q, hq, (htarget x i).2 ⟨hne, hi⟩⟩⟩

theorem grounded_canonicalLr : Grounded g g.canonicalLr where
  held := by
    intro s it hit
    obtain ⟨q, hq, -⟩ := id hit
    obtain ⟨kernel, hkernel, -⟩ := exists_kernel hstart hq
    have hr := (mem_lrKernels hstart).1 (List.mem_of_getElem? hkernel)
    obtain ⟨ss, γ, hstack⟩ := exists_stack_of_reaches hstart hr hkernel
    exact ⟨ss, justified_of_stack hstart hstack hit⟩
  on_stack := fun hstack hit => ⟨_, justified_of_stack hstart hstack hit⟩

end Grammar

/-! ### The merged automaton -/

namespace LrAutomaton

variable {g : Grammar} {a : LrAutomaton} (h : Faithful g a) (hu : a.Uniform)

include h hu

theorem Justified.mergeCores {ss : List Nat} {it : Item} (hj : Justified g a ss it) :
    Justified g a.mergeCores (ss.map a.place) it := by
  induction hj with
  | start =>
    rw [List.map_singleton, h.place_zero]
    exact .start
  | predict _ hit' ih => exact ih.predict hit'
  | advance _ hx he ih => exact ih.advance hx ((edge_mergeCores h hu).2 ⟨_, _, he, rfl, rfl⟩)

/-- A path of merged states is the image of a path of states. -/
theorem Stack.exists_of_mergeCores {ms : List Nat} {γ : List Symbol}
    (hs : Stack a.mergeCores ms γ) :
    ∃ s ss, Stack a (s :: ss) γ ∧ (s :: ss).map a.place = ms := by
  induction hs with
  | bottom => exact ⟨0, [], .bottom, by rw [List.map_singleton, h.place_zero]⟩
  | @push m n ms γ x _ he ih =>
    obtain ⟨s, ss, hstack, hplace⟩ := ih
    obtain ⟨rfl, rfl⟩ := List.cons.inj hplace
    obtain ⟨s', t', he', hplace', rfl⟩ := (edge_mergeCores h hu).1 he
    obtain ⟨t, het, hplacet⟩ := exists_edge_of_place h hu he' hplace' (hstack.lt_length h)
    exact ⟨t, s :: ss, hstack.push het, by rw [List.map_cons, hplacet]; rfl⟩

theorem Grounded.mergeCores (hg : Grounded g a) : Grounded g a.mergeCores where
  held := by
    intro m it hmerged
    obtain ⟨s, hit, rfl⟩ := holds_mergeCores.1 hmerged
    obtain ⟨ss, hj⟩ := hg.held hit
    exact ⟨ss.map a.place, hj.mergeCores h hu⟩
  on_stack := by
    intro m ms γ it hs hmerged
    obtain ⟨s', ss, hstack, hplace⟩ := hs.exists_of_mergeCores h hu
    obtain ⟨s, hit, rfl⟩ := holds_mergeCores.1 hmerged
    obtain ⟨htop, rfl⟩ := List.cons.inj hplace
    obtain ⟨b', hit'⟩ := exists_holds_of_place hit htop.symm (hstack.lt_length h)
    obtain ⟨b, hj⟩ := hg.on_stack hstack hit'
    have hmerged := hj.mergeCores h hu
    rw [List.map_cons, htop] at hmerged
    exact ⟨b, hmerged⟩

end LrAutomaton

theorem Grammar.grounded_lrAutomaton {g : Grammar} (hstart : g.Declares (.nonterminal g.start))
    (settings : ParserSettings) : LrAutomaton.Grounded g (g.lrAutomaton settings) := by
  unfold lrAutomaton
  split_ifs
  · exact (grounded_canonicalLr hstart).mergeCores (faithful_canonicalLr hstart)
      (uniform_canonicalLr hstart)
  · exact grounded_canonicalLr hstart

end SyntaxTables
