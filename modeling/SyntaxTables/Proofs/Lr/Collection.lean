import Mathlib.Data.Set.Basic
import Mathlib.Order.Bounds.Basic
import SyntaxTables.Proofs.Lr.Justified

/-!
# The collection of closed sets

Closing gives the least set that holds a kernel and whatever its items predict. The states of the
canonical automaton are named by their kernels, but they are found and numbered as if they were
named by their items: a kernel can be told from the closed set, because the items that come in when
it is closed begin a declared production. So a work list over whole sets of items, which takes two
sets for the same if they are equal, ends with these states in this order.
-/

namespace SyntaxTables.Grammar

variable {g : Grammar}

/-! ### Least closed sets -/

/-- Where a non-terminal stands behind the mark, all its productions begin in the set, with each
terminal to follow that can come behind it. -/
def Closed (g : Grammar) (S : Set Item) : Prop :=
  ∀ it ∈ S, ∀ p rest, (g.body it.production).drop it.dot = .nonterminal p.lhs :: rest →
    ∀ i, g.Usable i p → ∀ b ∈ g.firstSets.lookaheads rest it.lookahead, ⟨i, 0, b⟩ ∈ S

/-- The least closed set that holds a kernel. -/
def IsClosure (g : Grammar) (kernel S : Set Item) : Prop := IsLeast {T | kernel ⊆ T ∧ g.Closed T} S

theorem Closed.predictions {S : Set Item} (h : g.Closed S) {it it' : Item} (hit : it ∈ S)
    (hit' : it' ∈ g.closureTable.predictions it) : it' ∈ S := by
  obtain ⟨p, rest, hdrop, hp, hdot, hb⟩ := mem_predictions.1 hit'
  have hmem := h it hit p rest hdrop _ hp _ hb
  rwa [← hdot] at hmem

theorem Closed.of_reaches {S : Set Item} (h : g.Closed S) {it it' : Item} (hit : it ∈ S)
    (hr : Exploration.Reaches g.closureTable.predictions it it') : it' ∈ S := by
  induction hr with
  | refl => exact hit
  | tail _ hstep ih => exact h.predictions ih hstep

theorem isClosure_closure (hstart : g.Declares (.nonterminal g.start)) {kernel : List Item}
    (hk : ∀ it ∈ kernel, g.Admits it) :
    g.IsClosure {it | it ∈ kernel} {it | it ∈ g.closureTable.closure kernel} := by
  constructor
  · constructor
    · exact fun it hit => kernel_subset_closure hstart hk hit
    · intro it hit p rest hdrop i hp b hb
      exact predictions_closure hstart hk hit
        (mem_predictions.2 ⟨p, rest, hdrop, hp, rfl, hb⟩)
  · rintro T ⟨hkernel, hclosed⟩ it hit
    obtain ⟨k, hkm, hr⟩ := (mem_closure hstart hk).1 hit
    exact hclosed.of_reaches (hkernel hkm) hr

/-! ### Kernels and their closed sets -/

theorem Kernel.not_begins {kernel : List Item} (h : g.Kernel kernel) {it : Item}
    (hit : it ∈ kernel) : ¬(it.dot = 0 ∧ ∃ p, g.Usable it.production p) := by
  rintro ⟨hdot, p, hp⟩
  rcases h.marked with rfl | ⟨-, hmoved⟩
  · rw [startKernel, List.mem_singleton] at hit
    subst hit
    exact absurd (lt_length_of_usable hp) (Nat.lt_irrefl _)
  · exact hmoved it hit hdot

/-- The kernel is what does not begin a declared production. -/
theorem Kernel.mem_iff (hstart : g.Declares (.nonterminal g.start)) {kernel : List Item}
    (h : g.Kernel kernel) {it : Item} :
    it ∈ kernel ↔ it ∈ g.closureTable.closure kernel ∧
      ¬(it.dot = 0 ∧ ∃ p, g.Usable it.production p) := by
  constructor
  · exact fun hit => ⟨kernel_subset_closure hstart h.admits hit, h.not_begins hit⟩
  · rintro ⟨hit, hnot⟩
    exact (mem_kernel_or_begins hstart h.admits hit).resolve_right hnot

theorem Kernel.eq_of_closure (hstart : g.Declares (.nonterminal g.start))
    {kernel kernel' : List Item} (h : g.Kernel kernel) (h' : g.Kernel kernel')
    (heq : g.closureTable.closure kernel = g.closureTable.closure kernel') : kernel = kernel' := by
  apply Ascending.eq_of_pairwise h.ascending h'.ascending
  intro it
  rw [h.mem_iff hstart, h'.mem_iff hstart, heq]

/-! ### The work list over sets of items -/

/-- The sets of items to which the edges of a set lead, in the order of their symbols. -/
def nextItemSets (g : Grammar) (items : List Item) : List (List Item) :=
  (g.closureTable.kernels items).map fun p => g.closureTable.closure p.2

theorem map_items_canonicalLr (g : Grammar) :
    g.canonicalLr.states.map LrState.items =
      (g.lrKernels g.closureTable).map g.closureTable.closure := by
  rw [canonicalLr, List.map_map]
  rfl

/-- The set of items is the closure of the kernel. -/
structure Closes (g : Grammar) (kernel items : List Item) : Prop where
  is_kernel : g.Kernel kernel
  items_eq : items = g.closureTable.closure kernel

/-- The states of an automaton are the closed sets that the added production leads to, and its edges
move the mark. -/
structure Collection (g : Grammar) (a : LrAutomaton) : Prop where
  /-- The work list over sets of items ends with these states, however long it may go on. -/
  ends : ∃ layers, ∀ more, Exploration.breadthFirst g.nextItemSets (layers + more)
    [g.closureTable.closure g.startKernel] = a.states.map LrState.items
  distinct : ∀ {s t}, s < a.states.length → t < a.states.length →
    (∀ it, a.Holds s it ↔ a.Holds t it) → s = t
  reachable : ∀ {s}, s < a.states.length → ∃ ss γ, LrAutomaton.Stack a (s :: ss) γ
  enters : ∀ {s x t}, a.Edge s x t → t < a.states.length ∧ t ≠ 0
  start : g.IsClosure {⟨g.augmented, 0, g.eof⟩} {it | a.Holds 0 it}
  edge_iff : ∀ {s x}, (∃ t, a.Edge s x t) ↔
    ∃ it, a.Holds s it ∧ (g.body it.production)[it.dot]? = some x
  target : ∀ {s x t}, a.Edge s x t →
    g.IsClosure {it' | ∃ it, a.Holds s it ∧ (g.body it.production)[it.dot]? = some x ∧
      it.advance = it'} {it | a.Holds t it}

section Declared

variable (hstart : g.Declares (.nonterminal g.start))

include hstart

theorem closes_biUnique : Relator.BiUnique g.Closes := by
  constructor
  · rintro kernel kernel' items ⟨h, rfl⟩ ⟨h', heq⟩
    exact h.eq_of_closure hstart h' heq
  · rintro kernel items items' ⟨-, rfl⟩ ⟨-, rfl⟩
    rfl

theorem Closes.next {kernel items : List Item} (h : g.Closes kernel items) :
    List.Forall₂ g.Closes (g.nextKernels kernel) (g.nextItemSets items) := by
  obtain ⟨hkernel, rfl⟩ := h
  rw [nextKernels, nextItemSets, List.forall₂_map_left_iff, List.forall₂_map_right_iff,
    List.forall₂_same]
  intro p hp
  exact ⟨hkernel.next hstart (List.mem_map_of_mem hp), rfl⟩

/-- The work list ends: with layers enough for all kernels it finds the states, and nothing more
with any number of further layers. -/
theorem breadthFirst_nextItemSets (more : Nat) :
    Exploration.breadthFirst g.nextItemSets (2 ^ g.itemCount + more)
      [g.closureTable.closure g.startKernel] = g.canonicalLr.states.map LrState.items := by
  -- kernels and closed sets correspond one to one, so the two searches note and expand alike
  have hseeds : List.Forall₂ g.Closes [g.startKernel] [g.closureTable.closure g.startKernel] :=
    .cons ⟨kernel_startKernel g, rfl⟩ .nil
  have hfound := Exploration.forall₂_breadthFirst (closes_biUnique hstart)
    (fun _ _ h => Closes.next hstart h) (2 ^ g.itemCount + more) hseeds
  rw [← lrKernels_eq_breadthFirst hstart] at hfound
  rw [map_items_canonicalLr, ← List.forall₂_eq_eq_eq, List.forall₂_map_right_iff]
  exact (hfound.imp fun _ _ h => h.items_eq).flip

/-! ### States -/

theorem eq_of_holds_iff {s t : Nat} (hs : s < g.canonicalLr.states.length)
    (ht : t < g.canonicalLr.states.length)
    (h : ∀ it, g.canonicalLr.Holds s it ↔ g.canonicalLr.Holds t it) : s = t := by
  have hq := List.getElem?_eq_getElem hs
  have hr := List.getElem?_eq_getElem ht
  obtain ⟨kernel, hi, hkernel, hitems, -⟩ := exists_kernel hstart hq
  obtain ⟨kernel', hi', hkernel', hitems', -⟩ := exists_kernel hstart hr
  have heq : kernel = kernel' := by
    apply hkernel.eq_of_closure hstart hkernel'
    apply Ascending.eq_of_pairwise (Ascending.pairwise_ofList _) (Ascending.pairwise_ofList _)
    intro it
    change it ∈ g.closureTable.closure kernel ↔ it ∈ g.closureTable.closure kernel'
    rw [← hitems, ← hitems', ← LrAutomaton.holds_iff_mem hq, ← LrAutomaton.holds_iff_mem hr, h]
  rw [← heq] at hi'
  exact lrKernels_inj hi hi'

theorem exists_stack_of_lt {s : Nat} (hs : s < g.canonicalLr.states.length) :
    ∃ ss γ, LrAutomaton.Stack g.canonicalLr (s :: ss) γ := by
  obtain ⟨kernel, hi, -⟩ := exists_kernel hstart (List.getElem?_eq_getElem hs)
  exact exists_stack_of_reaches hstart ((mem_lrKernels hstart).1 (List.mem_of_getElem? hi)) hi

theorem isClosure_start :
    g.IsClosure {⟨g.augmented, 0, g.eof⟩} {it | g.canonicalLr.Holds 0 it} := by
  obtain ⟨q, hq, hitems⟩ := exists_state g.getElem?_zero_lrKernels
  have hclosure := isClosure_closure hstart (kernel_startKernel g).admits
  simpa only [LrAutomaton.holds_iff_mem hq, hitems, startKernel, List.mem_singleton,
    Set.ofPred_eq_eq_singleton] using hclosure

theorem isClosure_of_edge {s t : Nat} {x : Symbol} (he : g.canonicalLr.Edge s x t) :
    g.IsClosure {it' | ∃ it, g.canonicalLr.Holds s it ∧
        (g.body it.production)[it.dot]? = some x ∧ it.advance = it'}
      {it | g.canonicalLr.Holds t it} := by
  obtain ⟨q, r, kernel, hq, hr, -, hkernel, rfl, -, hitems⟩ := exists_of_edge hstart he
  have hclosure := isClosure_closure hstart hkernel.admits
  simpa only [LrAutomaton.holds_iff_mem hq, LrAutomaton.holds_iff_mem hr, hitems,
    mem_advanced] using hclosure

theorem collection_canonicalLr : g.Collection g.canonicalLr where
  ends := ⟨2 ^ g.itemCount, breadthFirst_nextItemSets hstart⟩
  distinct := eq_of_holds_iff hstart
  reachable := exists_stack_of_lt hstart
  enters := (faithful_canonicalLr hstart).enters
  start := isClosure_start hstart
  edge_iff := by
    intro s x
    constructor
    · rintro ⟨t, he⟩
      exact (faithful_canonicalLr hstart).carries he
    · rintro ⟨it, hit, hx⟩
      obtain ⟨t, he, -⟩ := exists_edge_canonicalLr hstart hit hx
      exact ⟨t, he⟩
  target := isClosure_of_edge hstart

end Declared

/-- The grammar `L ::= L a | ε`. -/
def repetition : Grammar where
  terminals := ["a"]
  nonterminals := ["L"]
  start := 0
  productions := [⟨.normal, 0, [.nonterminal 0, .terminal 0], none⟩, ⟨.normal, 0, [], none⟩]

/-- Its three states, of which the first is closed from the added production. -/
theorem collection_canonicalLr_repetition :
    (∃ layers, ∀ more, Exploration.breadthFirst repetition.nextItemSets (layers + more)
      [repetition.closureTable.closure repetition.startKernel] =
        [[⟨0, 0, 0⟩, ⟨0, 0, 1⟩, ⟨1, 0, 0⟩, ⟨1, 0, 1⟩, ⟨2, 0, 1⟩],
          [⟨0, 1, 0⟩, ⟨0, 1, 1⟩, ⟨2, 1, 1⟩], [⟨0, 2, 0⟩, ⟨0, 2, 1⟩]]) ∧
      (∃ ss γ, LrAutomaton.Stack repetition.canonicalLr (2 :: ss) γ) ∧
      repetition.IsClosure {⟨2, 0, 1⟩}
        {it | it ∈ [⟨0, 0, 0⟩, ⟨0, 0, 1⟩, ⟨1, 0, 0⟩, ⟨1, 0, 1⟩, ⟨2, 0, 1⟩]} := by
  have hstart : repetition.Declares (.nonterminal 0) := by decide
  have hitems : repetition.canonicalLr.states.map LrState.items =
      [[⟨0, 0, 0⟩, ⟨0, 0, 1⟩, ⟨1, 0, 0⟩, ⟨1, 0, 1⟩, ⟨2, 0, 1⟩],
        [⟨0, 1, 0⟩, ⟨0, 1, 1⟩, ⟨2, 1, 1⟩], [⟨0, 2, 0⟩, ⟨0, 2, 1⟩]] := by
    decide +kernel
  have hlength : repetition.canonicalLr.states.length = 3 := by
    simpa using congrArg List.length hitems
  have hfirst : repetition.canonicalLr.states[0]?.map LrState.items =
      some [⟨0, 0, 0⟩, ⟨0, 0, 1⟩, ⟨1, 0, 0⟩, ⟨1, 0, 1⟩, ⟨2, 0, 1⟩] := by
    rw [← List.getElem?_map, hitems]
    rfl
  obtain ⟨q, hq, hqitems⟩ := Option.map_eq_some_iff.1 hfirst
  have hcollection := collection_canonicalLr hstart
  have hends := hcollection.ends
  have hclosure := hcollection.start
  rw [hitems] at hends
  simp only [LrAutomaton.holds_iff_mem hq, hqitems] at hclosure
  exact ⟨hends, hcollection.reachable (by omega), hclosure⟩

end SyntaxTables.Grammar
