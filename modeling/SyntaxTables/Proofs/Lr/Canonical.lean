import SyntaxTables.Proofs.Lr.Automaton

/-!
# The canonical automaton

A kernel is an ascending list of items, of which a grammar has finitely many, so the search for
kernels is given enough layers and finds all of them. Each state is the closure of its kernel, and
its edges lead to the states of the kernels in which the mark has moved on.
-/

namespace SyntaxTables.Grammar

variable {g : Grammar}

/-! ### The number of items -/

/-- All items that fit, and some of ill-formed productions. -/
def allItems (g : Grammar) : List Item :=
  (List.range (g.augmented + 1)).flatMap fun i =>
    (List.range ((g.body i).length + 1)).flatMap fun d =>
      (List.range g.width).map fun a => ⟨i, d, a⟩

theorem Admits.mem_allItems {it : Item} (h : g.Admits it) : it ∈ g.allItems := by
  obtain ⟨hproduction, hdot, hlookahead⟩ := h
  obtain ⟨i, d, a⟩ := it
  have hi : i < g.augmented + 1 := by
    rcases hproduction with hi | ⟨p, hp⟩
    · exact Nat.lt_succ_of_le (Nat.le_of_eq hi)
    · exact Nat.lt_succ_of_lt (lt_length_of_usable hp)
  simp only [allItems, List.mem_flatMap, List.mem_map, List.mem_range]
  exact ⟨i, hi, d, Nat.lt_succ_of_le hdot, a, hlookahead, rfl⟩

theorem foldl_rhs_length (ps : List Production) (n : Nat) :
    ps.foldl (fun n p => n + p.rhs.length + 1) n =
      n + (ps.map fun p => p.rhs.length + 1).sum := by
  induction ps generalizing n with
  | nil => rfl
  | cons p ps ih =>
    rw [List.foldl_cons, ih, List.map_cons, List.sum_cons]
    omega

theorem map_body_length (g : Grammar) :
    (List.range g.augmented).map (fun i => (g.body i).length + 1) =
      g.productions.map fun p => p.rhs.length + 1 := by
  apply List.ext_getElem
  · simp [augmented]
  · intro i hi hi'
    have hlt : i < g.productions.length := by simpa using hi'
    simp [body, List.getElem?_eq_getElem hlt]

theorem length_allItems (g : Grammar) : g.allItems.length = g.itemCount := by
  have hlengths : (List.range (g.augmented + 1)).map (fun i => (g.body i).length + 1) =
      (g.productions.map fun p => p.rhs.length + 1) ++ [2] := by
    rw [List.range_succ, List.map_append, map_body_length]
    simp [body_augmented]
  have hrow : ∀ i, ((List.range ((g.body i).length + 1)).flatMap fun d =>
      (List.range g.width).map fun a => Item.mk i d a).length =
        ((g.body i).length + 1) * g.width := by
    intro i
    simp [List.length_flatMap]
  rw [allItems, List.length_flatMap, itemCount, foldl_rhs_length]
  simp only [hrow]
  rw [List.sum_map_mul_right, hlengths, List.sum_append]
  simp [Nat.add_comm]

theorem length_subsets_allItems_le (g : Grammar) :
    (Ascending.subsets g.allItems).length ≤ 2 ^ g.itemCount := by
  rw [← length_allItems]
  exact Ascending.length_subsets_le _

/-! ### Kernels -/

def nextKernels (g : Grammar) (kernel : List Item) : List (List Item) :=
  (g.closureTable.kernels (g.closureTable.closure kernel)).map Prod.snd

theorem mem_nextKernels {kernel next : List Item} :
    next ∈ g.nextKernels kernel ↔
      ∃ x, next = g.advanced (g.closureTable.closure kernel) x ∧ next ≠ [] := by
  simp only [nextKernels, List.mem_map, Prod.exists, exists_eq_right, mem_kernels]
  constructor
  · rintro ⟨x, rfl, hne⟩
    exact ⟨x, rfl, hne⟩
  · rintro ⟨x, rfl, hne⟩
    exact ⟨x, rfl, hne⟩

/-- What all kernels have in common. The mark has moved in all items or in none. -/
structure Kernel (g : Grammar) (kernel : List Item) : Prop where
  ascending : kernel.Pairwise fun a b => compare a b = .lt
  admits : ∀ it ∈ kernel, g.Admits it
  marked : kernel = g.startKernel ∨ kernel ≠ [] ∧ ∀ it ∈ kernel, it.dot ≠ 0

theorem kernel_startKernel (g : Grammar) : g.Kernel g.startKernel := by
  refine ⟨List.pairwise_singleton _ _, ?_, Or.inl rfl⟩
  intro it hit
  rw [startKernel, List.mem_singleton] at hit
  subst hit
  exact ⟨Or.inl rfl, Nat.zero_le _, Nat.lt_succ_self _⟩

theorem advanced_ne_startKernel (items : List Item) (x : Symbol) :
    g.advanced items x ≠ g.startKernel := by
  intro he
  have hmem : (⟨g.augmented, 0, g.eof⟩ : Item) ∈ g.advanced items x := by
    rw [he]
    exact List.mem_singleton_self _
  obtain ⟨it, -, -, hit⟩ := mem_advanced.1 hmem
  have hdot := congrArg Item.dot hit
  simp [Item.advance] at hdot

theorem getElem?_zero_lrKernels (g : Grammar) :
    (g.lrKernels g.closureTable)[0]? = some g.startKernel :=
  Exploration.getElem?_zero_breadthFirst _ _

theorem nodup_lrKernels (g : Grammar) : (g.lrKernels g.closureTable).Nodup :=
  Exploration.nodup_breadthFirst _ _

theorem lrKernels_inj {i j : Nat} {kernel : List Item}
    (hi : (g.lrKernels g.closureTable)[i]? = some kernel)
    (hj : (g.lrKernels g.closureTable)[j]? = some kernel) : i = j :=
  (List.getElem?_inj (List.getElem?_eq_some_iff.1 hi).1 g.nodup_lrKernels).1 (hi.trans hj.symm)

theorem exists_state {i : Nat} {kernel : List Item}
    (h : (g.lrKernels g.closureTable)[i]? = some kernel) :
    ∃ q, g.canonicalLr.states[i]? = some q ∧ q.items = g.closureTable.closure kernel := by
  refine ⟨g.closureTable.lrState (Exploration.numbers (g.lrKernels g.closureTable)) kernel, ?_, rfl⟩
  simp [canonicalLr, h]

section Declared

variable (hstart : g.Declares (.nonterminal g.start))

include hstart

theorem Kernel.next {kernel next : List Item} (h : g.Kernel kernel)
    (hnext : next ∈ g.nextKernels kernel) : g.Kernel next := by
  obtain ⟨x, rfl, hne⟩ := mem_nextKernels.1 hnext
  refine ⟨pairwise_advanced (Ascending.pairwise_ofList _) x, ?_, Or.inr ⟨hne, ?_⟩⟩
  · intro it' hit'
    obtain ⟨it, hit, hx, rfl⟩ := mem_advanced.1 hit'
    exact (admits_closure hstart h.admits hit).advance hx
  · intro it' hit'
    obtain ⟨it, -, -, rfl⟩ := mem_advanced.1 hit'
    exact Nat.succ_ne_zero _

theorem kernel_of_reaches {kernel : List Item}
    (hr : Exploration.Reaches g.nextKernels g.startKernel kernel) : g.Kernel kernel := by
  induction hr with
  | refl => exact kernel_startKernel g
  | tail _ hnext ih => exact ih.next hstart hnext

theorem mem_subsets_of_reaches {kernel : List Item}
    (hr : Exploration.Reaches g.nextKernels g.startKernel kernel) :
    kernel ∈ Ascending.subsets g.allItems := by
  have hkernel := kernel_of_reaches hstart hr
  exact Ascending.mem_subsets hkernel.ascending fun it hit => (hkernel.admits it hit).mem_allItems

theorem mem_lrKernels {kernel : List Item} :
    kernel ∈ g.lrKernels g.closureTable ↔
      Exploration.Reaches g.nextKernels g.startKernel kernel := by
  change kernel ∈ Exploration.breadthFirst g.nextKernels (2 ^ g.itemCount) [g.startKernel] ↔ _
  rw [Exploration.mem_breadthFirst_of_length_le _ _ g.length_subsets_allItems_le]
  · simp
  · intro s hs kernel hr _
    rw [List.mem_singleton.1 hs] at hr
    exact mem_subsets_of_reaches hstart hr

/-- More layers than the search is given would change nothing. -/
theorem lrKernels_eq_breadthFirst (more : Nat) :
    g.lrKernels g.closureTable =
      Exploration.breadthFirst g.nextKernels (2 ^ g.itemCount + more) [g.startKernel] := by
  apply Exploration.breadthFirst_eq_of_length_le _ _ g.length_subsets_allItems_le
    (Nat.le_add_right _ more)
  intro s hs kernel hr _
  rw [List.mem_singleton.1 hs] at hr
  exact mem_subsets_of_reaches hstart hr

theorem exists_kernel {i : Nat} {q : LrState} (hq : g.canonicalLr.states[i]? = some q) :
    ∃ kernel, (g.lrKernels g.closureTable)[i]? = some kernel ∧ g.Kernel kernel ∧
      q.items = g.closureTable.closure kernel ∧ (q.edges.map Prod.fst).Nodup ∧
      ∀ x j, q.target? x = some j ↔
        g.advanced q.items x ≠ [] ∧
          (g.lrKernels g.closureTable)[j]? = some (g.advanced q.items x) := by
  obtain ⟨kernel, hkernel, rfl⟩ : ∃ kernel, (g.lrKernels g.closureTable)[i]? = some kernel ∧
      g.closureTable.lrState (Exploration.numbers (g.lrKernels g.closureTable)) kernel = q := by
    simpa [canonicalLr] using hq
  have hreach := (mem_lrKernels hstart).1 (List.mem_of_getElem? hkernel)
  have hkeys := nodup_keys_kernels (g := g) (g.closureTable.closure kernel)
  refine ⟨kernel, hkernel, kernel_of_reaches hstart hreach, rfl, ?_, ?_⟩
  · rw [ClosureTable.lrState, List.map_map]
    exact hkeys
  · intro x j
    have hnumber : ∀ next, next = g.advanced (g.closureTable.closure kernel) x → next ≠ [] →
        (g.lrKernels g.closureTable)[(Exploration.numbers (g.lrKernels g.closureTable)).getD
          next 0]? = some next := by
      intro next hnext hne
      apply Exploration.getElem?_numbers
      exact (mem_lrKernels hstart).2 (hreach.tail (mem_nextKernels.2 ⟨x, hnext, hne⟩))
    have htarget : (g.closureTable.lrState (Exploration.numbers (g.lrKernels g.closureTable))
        kernel).target? x = ((g.closureTable.kernels (g.closureTable.closure kernel)).lookup x).map
          fun next => (Exploration.numbers (g.lrKernels g.closureTable)).getD next 0 :=
      lookup_map_snd (fun next =>
        (Exploration.numbers (g.lrKernels g.closureTable)).getD next 0) _ x
    rw [htarget, Option.map_eq_some_iff]
    simp only [lookup_eq_some_iff_mem hkeys, mem_kernels]
    constructor
    · rintro ⟨next, ⟨rfl, hne⟩, rfl⟩
      exact ⟨hne, hnumber _ rfl hne⟩
    · rintro ⟨hne, hj⟩
      exact ⟨_, ⟨rfl, hne⟩, lrKernels_inj (hnumber _ rfl hne) hj⟩

theorem exists_of_edge {s t : Nat} {x : Symbol} (he : g.canonicalLr.Edge s x t) :
    ∃ q r kernel, g.canonicalLr.states[s]? = some q ∧ g.canonicalLr.states[t]? = some r ∧
      (g.lrKernels g.closureTable)[t]? = some kernel ∧ g.Kernel kernel ∧
      kernel = g.advanced q.items x ∧ kernel ≠ [] ∧ r.items = g.closureTable.closure kernel := by
  obtain ⟨q, hq, ht⟩ := he
  obtain ⟨-, -, -, -, -, htarget⟩ := exists_kernel hstart hq
  obtain ⟨hne, hkernel⟩ := (htarget x t).1 ht
  obtain ⟨r, hr, hitems⟩ := exists_state hkernel
  have hreach := (mem_lrKernels hstart).1 (List.mem_of_getElem? hkernel)
  exact ⟨q, r, _, hq, hr, hkernel, kernel_of_reaches hstart hreach, rfl, hne, hitems⟩

theorem exists_edge_canonicalLr {s : Nat} {it : Item} {x : Symbol} (h : g.canonicalLr.Holds s it)
    (hx : (g.body it.production)[it.dot]? = some x) :
    ∃ t, g.canonicalLr.Edge s x t ∧ g.canonicalLr.Holds t it.advance := by
  obtain ⟨q, hq, hit⟩ := h
  obtain ⟨kernel, hi, hkernel, hitems, -, htarget⟩ := exists_kernel hstart hq
  have hmem : it.advance ∈ g.advanced q.items x := mem_advanced.2 ⟨it, hit, hx, rfl⟩
  have hne := List.ne_nil_of_mem hmem
  have hnext : g.advanced q.items x ∈ g.nextKernels kernel :=
    mem_nextKernels.2 ⟨x, by rw [hitems], hne⟩
  have hreach := (mem_lrKernels hstart).1 (List.mem_of_getElem? hi)
  obtain ⟨t, ht⟩ := List.mem_iff_getElem?.1 ((mem_lrKernels hstart).2 (hreach.tail hnext))
  obtain ⟨r, hr, hritems⟩ := exists_state ht
  refine ⟨t, ⟨q, hq, (htarget x t).2 ⟨hne, ht⟩⟩, r, hr, ?_⟩
  rw [hritems]
  exact kernel_subset_closure hstart (hkernel.next hstart hnext).admits hmem

/-- An item whose mark is not at the beginning comes from one in the state before. -/
theorem exists_holds_of_edge {s t d : Nat} {it : Item} {x : Symbol} (he : g.canonicalLr.Edge s x t)
    (h : g.canonicalLr.Holds t it) (hd : it.dot = d + 1) :
    (g.body it.production)[d]? = some x ∧ ∃ b, g.canonicalLr.Holds s ⟨it.production, d, b⟩ := by
  obtain ⟨r, hr, hit⟩ := h
  obtain ⟨q, r', kernel, hq, hr', -, hkernel, heq, -, hitems⟩ := exists_of_edge hstart he
  obtain rfl := Option.some.inj (hr.symm.trans hr')
  rw [hitems] at hit
  rcases mem_kernel_or_begins hstart hkernel.admits hit with hit | ⟨hzero, -⟩
  · rw [heq] at hit
    obtain ⟨it', hit', hx, rfl⟩ := mem_advanced.1 hit
    obtain rfl : it'.dot = d := Nat.succ.inj hd
    exact ⟨hx, it'.lookahead, q, hq, hit'⟩
  · omega

theorem eq_zero_of_holds_start {s : Nat} {it : Item} (h : g.canonicalLr.Holds s it)
    (hcore : it.core = ⟨g.augmented, 0⟩) : s = 0 := by
  obtain ⟨q, hq, hit⟩ := h
  obtain ⟨kernel, hkernel, hspec, hitems, -⟩ := exists_kernel hstart hq
  obtain ⟨hproduction, hdot⟩ : it.production = g.augmented ∧ it.dot = 0 := by
    simpa [Item.core] using hcore
  rw [hitems] at hit
  rcases mem_kernel_or_begins hstart hspec.admits hit with hit | ⟨-, p, hp⟩
  · rcases hspec.marked with rfl | ⟨-, hmoved⟩
    · exact lrKernels_inj hkernel g.getElem?_zero_lrKernels
    · exact absurd hdot (hmoved it hit)
  · have hlt := lt_length_of_usable hp
    rw [hproduction] at hlt
    exact absurd hlt (Nat.lt_irrefl _)

theorem faithful_canonicalLr : LrAutomaton.Faithful g g.canonicalLr where
  augmented := rfl
  ascending := by
    intro q hq
    obtain ⟨i, hi⟩ := List.mem_iff_getElem?.1 hq
    obtain ⟨kernel, -, -, hitems, -⟩ := exists_kernel hstart hi
    rw [hitems]
    exact Ascending.pairwise_ofList _
  keys := by
    intro q hq
    obtain ⟨i, hi⟩ := List.mem_iff_getElem?.1 hq
    obtain ⟨-, -, -, -, hkeys, -⟩ := exists_kernel hstart hi
    exact hkeys
  start := by
    obtain ⟨q, hq, hitems⟩ := exists_state g.getElem?_zero_lrKernels
    refine ⟨q, hq, ?_⟩
    rw [hitems]
    exact kernel_subset_closure hstart (kernel_startKernel g).admits (List.mem_singleton_self _)
  admits := by
    rintro s it ⟨q, hq, hit⟩
    obtain ⟨kernel, -, hkernel, hitems, -⟩ := exists_kernel hstart hq
    exact admits_closure hstart hkernel.admits (hitems ▸ hit)
  predicts := by
    rintro s it it' ⟨q, hq, hit⟩ hit'
    obtain ⟨kernel, -, hkernel, hitems, -⟩ := exists_kernel hstart hq
    rw [hitems] at hit
    refine ⟨q, hq, ?_⟩
    rw [hitems]
    exact predictions_closure hstart hkernel.admits hit hit'
  advances := exists_edge_canonicalLr hstart
  enters := by
    intro s x t he
    obtain ⟨q, r, kernel, -, hr, hkernel, -, heq, -⟩ := exists_of_edge hstart he
    refine ⟨(List.getElem?_eq_some_iff.1 hr).1, ?_⟩
    rintro rfl
    rw [getElem?_zero_lrKernels, Option.some.injEq, heq] at hkernel
    exact advanced_ne_startKernel _ _ hkernel.symm
  carries := by
    intro s x t he
    obtain ⟨q, r, kernel, hq, -, -, -, rfl, hne, -⟩ := exists_of_edge hstart he
    obtain ⟨it', hit'⟩ := List.exists_mem_of_ne_nil _ hne
    obtain ⟨it, hit, hx, -⟩ := mem_advanced.1 hit'
    exact ⟨it, ⟨q, hq, hit⟩, hx⟩
  retreats := exists_holds_of_edge hstart
  begins := by
    rintro it ⟨q, hq, hit⟩
    obtain ⟨kernel, hkernel, hspec, hitems, -⟩ := exists_kernel hstart hq
    obtain rfl := Option.some.inj (g.getElem?_zero_lrKernels.symm.trans hkernel)
    rw [hitems] at hit
    rcases mem_kernel_or_begins hstart hspec.admits hit with hit | ⟨hdot, -⟩
    · rw [startKernel, List.mem_singleton] at hit
      rw [hit]
    · exact hdot
  only_start := eq_zero_of_holds_start hstart

/-- Targets of states with the same cores over the same symbol have the same cores, too. -/
theorem coresIn_of_edge {s s' t t' : Nat} {x : Symbol} {q q' r r' : LrState}
    (hq : g.canonicalLr.states[s]? = some q) (hq' : g.canonicalLr.states[s']? = some q')
    (hr : g.canonicalLr.states[t]? = some r) (hr' : g.canonicalLr.states[t']? = some r')
    (he : q.target? x = some t) (he' : q'.target? x = some t') (h : CoresIn q.items q'.items) :
    CoresIn r.items r'.items := by
  obtain ⟨p, u, kernel, hp, hu, -, hkernel, hadvanced, -, hitems⟩ :=
    exists_of_edge hstart ⟨q, hq, he⟩
  obtain ⟨p', u', kernel', hp', hu', -, hkernel', hadvanced', -, hitems'⟩ :=
    exists_of_edge hstart ⟨q', hq', he'⟩
  obtain rfl := Option.some.inj (hq.symm.trans hp)
  obtain rfl := Option.some.inj (hq'.symm.trans hp')
  obtain rfl := Option.some.inj (hr.symm.trans hu)
  obtain rfl := Option.some.inj (hr'.symm.trans hu')
  rw [hitems, hitems']
  apply CoresIn.closure hstart hkernel.admits hkernel'.admits
  rw [hadvanced, hadvanced']
  exact h.advanced x

end Declared

end SyntaxTables.Grammar
