import SyntaxTables.Lr
import SyntaxTables.Proofs.Grammar.First

/-!
# Closed sets of items

The closure of a kernel holds what is predicted from the kernel in any number of steps; items that
come in this way begin a declared production, so there are few enough of them for the bound on the
layers. Whether a production is predicted depends on the cores alone, for what can follow it is
never empty or always so.
-/

namespace SyntaxTables

theorem Item.compare_advance (it it' : Item) : compare it.advance it'.advance = compare it it' := by
  obtain ⟨p, d, a⟩ := it
  obtain ⟨p', d', a'⟩ := it'
  have hdot : compare (d + 1) (d' + 1) = compare d d' := by
    rcases Nat.lt_trichotomy d d' with h | rfl | h
    · rw [Nat.compare_eq_lt.2 h, Nat.compare_eq_lt.2 (Nat.succ_lt_succ h)]
    · simp
    · rw [Nat.compare_eq_gt.2 h, Nat.compare_eq_gt.2 (Nat.succ_lt_succ h)]
  change (compare p p').then ((compare (d + 1) (d' + 1)).then (compare a a')) =
    (compare p p').then ((compare d d').then (compare a a'))
  rw [hdot]

namespace Grammar

variable {g : Grammar}

/-! ### Productions as items see them -/

theorem lt_length_of_usable {i : Nat} {p : Production} (h : g.Usable i p) :
    i < g.productions.length :=
  (List.getElem?_eq_some_iff.1 h.1).1

theorem body_of_usable {i : Nat} {p : Production} (h : g.Usable i p) : g.body i = p.rhs := by
  simp [body, h.1]

theorem body_augmented (g : Grammar) : g.body g.augmented = [.nonterminal g.start] := by
  simp [body, augmented]

theorem mem_alternatives {n i : Nat} : i ∈ g.alternatives n ↔ ∃ p, g.Usable i p ∧ p.lhs = n := by
  simp only [alternatives, List.mem_filterMap, Option.ite_none_right_eq_some, Option.some.injEq,
    Prod.exists, List.mem_zipIdx_iff_getElem?]
  constructor
  · rintro ⟨p, j, hp, ⟨hn, hw⟩, rfl⟩
    exact ⟨p, ⟨hp, hw⟩, hn⟩
  · rintro ⟨p, ⟨hp, hw⟩, hn⟩
    exact ⟨p, i, hp, ⟨hn, hw⟩, rfl⟩

theorem body_closureTable (g : Grammar) (i : Nat) : g.closureTable.body i = g.body i := by
  simp only [ClosureTable.body, closureTable, Array.getD_eq_getD_getElem?, List.getElem?_toArray,
    List.getElem?_map]
  by_cases hi : i < g.augmented + 1
  · simp [hi]
  · have hnone : g.productions[i]? = none := by
      rw [List.getElem?_eq_none_iff]
      unfold augmented at hi
      omega
    have hne : i ≠ g.augmented := by omega
    simp [hi, body, hnone, hne]

theorem getD_alternatives (g : Grammar) (n : Nat) :
    g.closureTable.alternatives.getD n [] = g.alternatives n := by
  simp only [closureTable, Array.getD_eq_getD_getElem?, List.getElem?_toArray, List.getElem?_map]
  by_cases hn : n < g.nonterminals.length
  · simp [hn]
  · have hnil : g.alternatives n = [] := by
      rw [List.eq_nil_iff_forall_not_mem]
      intro i hi
      obtain ⟨p, hp, rfl⟩ := mem_alternatives.1 hi
      exact hn hp.2.1
    simp [hn, hnil]

theorem next_of_drop {i d : Nat} {x : Symbol} {γ : List Symbol} (h : (g.body i).drop d = x :: γ) :
    (g.body i)[d]? = some x ∧ (g.body i).drop (d + 1) = γ := by
  constructor
  · rw [← List.head?_drop, h]
    rfl
  · rw [← List.tail_drop, h]
    rfl

/-- The items that can be told apart: of a usable production or the added one, with a mark inside or
behind the body, and with a terminal or the end of input to follow. -/
structure Admits (g : Grammar) (it : Item) : Prop where
  production : it.production = g.augmented ∨ ∃ p, g.Usable it.production p
  dot : it.dot ≤ (g.body it.production).length
  lookahead : it.lookahead < g.width

theorem Admits.declares (hstart : g.Declares (.nonterminal g.start)) {it : Item} (h : g.Admits it) :
    ∀ s ∈ g.body it.production, g.Declares s := by
  rcases h.production with ha | ⟨p, hp⟩
  · rw [ha, body_augmented]
    simpa using hstart
  · rw [body_of_usable hp]
    exact hp.2.2

theorem lt_width_of_mem_lookaheads {γ : List Symbol} (hγ : ∀ s ∈ γ, g.Declares s) {a b : Nat}
    (ha : a < g.width) (hb : b ∈ g.firstSets.lookaheads γ a) : b < g.width := by
  rcases FirstSets.mem_lookaheads.1 hb with hb | ⟨-, rfl⟩
  · exact Nat.lt_succ_of_lt (g.firstSets_spec.1.lt_of_ofSequence hγ hb)
  · exact ha

/-! ### Predictions -/

theorem mem_predictions {it it' : Item} :
    it' ∈ g.closureTable.predictions it ↔
      ∃ p rest, (g.body it.production).drop it.dot = .nonterminal p.lhs :: rest ∧
        g.Usable it'.production p ∧ it'.dot = 0 ∧
        it'.lookahead ∈ g.firstSets.lookaheads rest it.lookahead := by
  unfold ClosureTable.predictions
  rw [body_closureTable]
  split
  next n rest hdrop =>
    rw [getD_alternatives, List.mem_flatMap]
    constructor
    · rintro ⟨i, hi, hit⟩
      obtain ⟨p, hp, rfl⟩ := mem_alternatives.1 hi
      obtain ⟨b, hb, rfl⟩ := List.mem_map.1 hit
      exact ⟨p, rest, hdrop, hp, rfl, hb⟩
    · rintro ⟨p, rest', hdrop', hp, hdot, hb⟩
      rw [hdrop, List.cons.injEq, Symbol.nonterminal.injEq] at hdrop'
      obtain ⟨rfl, rfl⟩ := hdrop'
      refine ⟨_, mem_alternatives.2 ⟨p, hp, rfl⟩, List.mem_map.2 ⟨_, hb, ?_⟩⟩
      rw [← hdot]
  next hnone =>
    constructor
    · intro h
      simp at h
    · rintro ⟨p, rest, hdrop, -⟩
      exact absurd hdrop (hnone _ _)

theorem Admits.predictions (hstart : g.Declares (.nonterminal g.start)) {it it' : Item}
    (h : g.Admits it) (hit : it' ∈ g.closureTable.predictions it) : g.Admits it' := by
  obtain ⟨p, rest, hdrop, hp, hdot, hb⟩ := mem_predictions.1 hit
  refine ⟨Or.inr ⟨p, hp⟩, by simp [hdot], ?_⟩
  refine lt_width_of_mem_lookaheads (fun s hs => ?_) h.lookahead hb
  apply h.declares hstart s
  apply List.mem_of_mem_drop (i := it.dot)
  rw [hdrop]
  exact List.mem_cons_of_mem _ hs

/-- A terminal can come behind the mark of an item. -/
def Expects (g : Grammar) (it : Item) (x : Nat) : Prop :=
  x ∈ g.firstSets.lookaheads ((g.body it.production).drop it.dot) it.lookahead

theorem expects_terminal {it : Item} {x : Nat}
    (hx : (g.body it.production)[it.dot]? = some (.terminal x)) : g.Expects it x := by
  obtain ⟨hlt, hget⟩ := List.getElem?_eq_some_iff.1 hx
  rw [Expects, List.drop_eq_getElem_cons hlt, hget]
  exact FirstSets.mem_lookaheads.2 (Or.inl (by simp))

/-- Behind what derives nothing the lookahead can come. -/
theorem Forest.expects {i d x : Nat} {js : List Nat} (h : g.Forest ((g.body i).drop d) [] js) :
    g.Expects ⟨i, d, x⟩ x :=
  FirstSets.mem_lookaheads.2 (Or.inr ⟨h.has_first, rfl⟩)

theorem expects_lookahead (i x : Nat) : g.Expects ⟨i, (g.body i).length, x⟩ x :=
  Forest.expects (by rw [List.drop_length]; exact .nil)

/-- What can come in a predicted item can come in the item that it was predicted from. -/
theorem Expects.of_predicted {it it' : Item} {x : Nat} (hx : g.Expects it' x)
    (hit : it' ∈ g.closureTable.predictions it) : g.Expects it x := by
  obtain ⟨p, rest, hdrop, hp, hdot, hb⟩ := mem_predictions.1 hit
  rw [Expects, body_of_usable hp, hdot, List.drop_zero, FirstSets.mem_lookaheads] at hx
  rw [Expects, hdrop, FirstSets.mem_lookaheads, FirstSets.has_ofSequence_nonterminal,
    FirstSets.has_ofSequence_nonterminal]
  rcases hx with hx | ⟨hnull, rfl⟩
  · exact Or.inl (Or.inl ⟨has_firstSets hp hx, by simp⟩)
  · have hlhs := has_firstSets hp hnull
    rcases FirstSets.mem_lookaheads.1 hb with hb | ⟨hrest, heq⟩
    · exact Or.inl (Or.inr ⟨hlhs, hb⟩)
    · exact Or.inr ⟨Or.inr ⟨hlhs, hrest⟩, heq⟩

theorem mem_predictions_iff {it it' : Item} :
    it' ∈ g.closureTable.predictions it ↔
      ∃ p, (g.body it.production)[it.dot]? = some (.nonterminal p.lhs) ∧
        g.Usable it'.production p ∧ it'.dot = 0 ∧ g.Expects it.advance it'.lookahead := by
  rw [mem_predictions]
  constructor
  · rintro ⟨p, rest, hdrop, hp, hdot, hb⟩
    obtain ⟨hnext, rfl⟩ := next_of_drop hdrop
    exact ⟨p, hnext, hp, hdot, hb⟩
  · rintro ⟨p, hnext, hp, hdot, hb⟩
    obtain ⟨hlt, hget⟩ := List.getElem?_eq_some_iff.1 hnext
    refine ⟨p, (g.body it.production).drop (it.dot + 1), ?_, hp, hdot, hb⟩
    rw [List.drop_eq_getElem_cons hlt, hget]

def beginnings (g : Grammar) : List Item :=
  (List.range g.productions.length).flatMap fun i => (List.range g.width).map fun a => ⟨i, 0, a⟩

theorem length_beginnings (g : Grammar) :
    g.beginnings.length = g.productions.length * g.width := by
  simp [beginnings, List.length_flatMap]

theorem mem_beginnings {it : Item} :
    it ∈ g.beginnings ↔
      it.production < g.productions.length ∧ it.dot = 0 ∧ it.lookahead < g.width := by
  obtain ⟨i, d, a⟩ := it
  simp only [beginnings, List.mem_flatMap, List.mem_map, List.mem_range, Item.mk.injEq]
  constructor
  · rintro ⟨i, hi, a, ha, rfl, rfl, rfl⟩
    exact ⟨hi, rfl, ha⟩
  · rintro ⟨hi, rfl, ha⟩
    exact ⟨i, hi, a, ha, rfl, rfl, rfl⟩

theorem Admits.of_reaches (hstart : g.Declares (.nonterminal g.start)) {it it' : Item}
    (h : g.Admits it) (hr : Exploration.Reaches g.closureTable.predictions it it') :
    g.Admits it' := by
  induction hr with
  | refl => exact h
  | tail _ hstep ih => exact ih.predictions hstart hstep

/-- An item comes in as the beginning of a usable production. -/
theorem begins_of_reaches {it it' : Item}
    (hr : Exploration.Reaches g.closureTable.predictions it it') (hne : it' ≠ it) :
    it'.dot = 0 ∧ ∃ p, g.Usable it'.production p := by
  cases hr with
  | refl => exact absurd rfl hne
  | tail _ hstep =>
    obtain ⟨p, -, -, hp, hdot, -⟩ := mem_predictions.1 hstep
    exact ⟨hdot, p, hp⟩

/-! ### Closing -/

section Closure

variable (hstart : g.Declares (.nonterminal g.start)) {kernel : List Item}
  (hk : ∀ it ∈ kernel, g.Admits it)

include hstart hk

theorem mem_closure {it : Item} :
    it ∈ g.closureTable.closure kernel ↔
      ∃ k ∈ kernel, Exploration.Reaches g.closureTable.predictions k it := by
  unfold ClosureTable.closure
  rw [Ascending.mem_ofList]
  apply Exploration.mem_breadthFirst g.beginnings
  · intro k hkm it hr hnew _
    have hne : it ≠ k := fun he => hnew (he ▸ hkm)
    obtain ⟨hdot, p, hp⟩ := begins_of_reaches hr hne
    have hadmits := (hk k hkm).of_reaches hstart hr
    exact mem_beginnings.2 ⟨lt_length_of_usable hp, hdot, hadmits.lookahead⟩
  · rw [length_beginnings]
    exact Nat.lt_succ_self _

theorem kernel_subset_closure {it : Item} (hit : it ∈ kernel) :
    it ∈ g.closureTable.closure kernel :=
  (mem_closure hstart hk).2 ⟨it, hit, .refl⟩

theorem admits_closure {it : Item} (hit : it ∈ g.closureTable.closure kernel) : g.Admits it := by
  obtain ⟨k, hkm, hr⟩ := (mem_closure hstart hk).1 hit
  exact (hk k hkm).of_reaches hstart hr

theorem predictions_closure {it it' : Item} (hit : it ∈ g.closureTable.closure kernel)
    (hit' : it' ∈ g.closureTable.predictions it) : it' ∈ g.closureTable.closure kernel := by
  obtain ⟨k, hkm, hr⟩ := (mem_closure hstart hk).1 hit
  exact (mem_closure hstart hk).2 ⟨k, hkm, hr.tail hit'⟩

theorem mem_kernel_or_begins {it : Item} (hit : it ∈ g.closureTable.closure kernel) :
    it ∈ kernel ∨ it.dot = 0 ∧ ∃ p, g.Usable it.production p := by
  obtain ⟨k, hkm, hr⟩ := (mem_closure hstart hk).1 hit
  by_cases he : it = k
  · exact Or.inl (he ▸ hkm)
  · exact Or.inr (begins_of_reaches hr he)

end Closure

/-! ### Cores -/

/-- An item of another core is predicted from items of this core, too. -/
theorem exists_prediction {it it' next : Item} (hcore : it.core = it'.core)
    (hnext : next ∈ g.closureTable.predictions it) :
    ∃ next' ∈ g.closureTable.predictions it', next'.core = next.core := by
  obtain ⟨p, rest, hdrop, hp, hdot, hb⟩ := mem_predictions.1 hnext
  obtain ⟨hprod, hd⟩ : it.production = it'.production ∧ it.dot = it'.dot := by
    simpa [Item.core] using hcore
  have hb' : ∃ b, b ∈ g.firstSets.lookaheads rest it'.lookahead := by
    rcases FirstSets.mem_lookaheads.1 hb with hb | ⟨hnull, -⟩
    · exact ⟨_, FirstSets.mem_lookaheads.2 (Or.inl hb)⟩
    · exact ⟨_, FirstSets.mem_lookaheads.2 (Or.inr ⟨hnull, rfl⟩)⟩
  obtain ⟨b, hb'⟩ := hb'
  rw [hprod, hd] at hdrop
  exact ⟨⟨next.production, 0, b⟩, mem_predictions.2 ⟨p, rest, hdrop, hp, rfl, hb'⟩, by
    simp [Item.core, hdot]⟩

theorem exists_core_of_reaches {it it' next : Item} (hcore : it.core = it'.core)
    (hr : Exploration.Reaches g.closureTable.predictions it next) :
    ∃ next', Exploration.Reaches g.closureTable.predictions it' next' ∧
      next'.core = next.core := by
  induction hr with
  | refl => exact ⟨it', .refl, hcore.symm⟩
  | tail _ hstep ih =>
    obtain ⟨mid, hmid, hcmid⟩ := ih
    obtain ⟨next', hnext', hc⟩ := exists_prediction hcmid.symm hstep
    exact ⟨next', hmid.tail hnext', hc⟩

def CoresIn (items items' : List Item) : Prop :=
  ∀ it ∈ items, ∃ it' ∈ items', it'.core = it.core

/-- The cores of a closed set depend on the cores of its kernel only. -/
theorem CoresIn.closure (hstart : g.Declares (.nonterminal g.start)) {kernel kernel' : List Item}
    (hk : ∀ it ∈ kernel, g.Admits it) (hk' : ∀ it ∈ kernel', g.Admits it)
    (h : CoresIn kernel kernel') :
    CoresIn (g.closureTable.closure kernel) (g.closureTable.closure kernel') := by
  intro it hit
  obtain ⟨k, hkm, hr⟩ := (mem_closure hstart hk).1 hit
  obtain ⟨k', hkm', hcore⟩ := h k hkm
  obtain ⟨it', hr', hc⟩ := exists_core_of_reaches hcore.symm hr
  exact ⟨it', (mem_closure hstart hk').2 ⟨k', hkm', hr'⟩, hc⟩

/-! ### Moving the mark -/

theorem nextSymbol?_closureTable (g : Grammar) (it : Item) :
    g.closureTable.nextSymbol? it = (g.body it.production)[it.dot]? := by
  rw [ClosureTable.nextSymbol?, body_closureTable]

/-- The items of a set that have a symbol behind the mark, with the mark moved over it. -/
def advanced (g : Grammar) (items : List Item) (s : Symbol) : List Item :=
  (items.filter fun it => (g.body it.production)[it.dot]? = some s).map Item.advance

theorem mem_advanced {items : List Item} {s : Symbol} {it : Item} :
    it ∈ g.advanced items s ↔
      ∃ it' ∈ items, (g.body it'.production)[it'.dot]? = some s ∧ it'.advance = it := by
  simp [advanced, and_assoc]

theorem pairwise_advanced {items : List Item} (h : items.Pairwise fun a b => compare a b = .lt)
    (s : Symbol) : (g.advanced items s).Pairwise fun a b => compare a b = .lt :=
  List.pairwise_map.2 ((h.filter _).imp fun {a b} hab => (Item.compare_advance a b).trans hab)

theorem mem_kernels {items : List Item} {s : Symbol} {kernel : List Item} :
    (s, kernel) ∈ g.closureTable.kernels items ↔
      kernel = g.advanced items s ∧ g.advanced items s ≠ [] := by
  unfold ClosureTable.kernels
  rw [Ascending.mem_groups]
  have hvalues : ((items.filterMap fun it =>
      (g.closureTable.nextSymbol? it).map fun s => (s, it.advance)).filter
        fun p => p.1 = s).map Prod.snd = g.advanced items s := by
    unfold advanced
    induction items with
    | nil => rfl
    | cons it items ih =>
      rw [List.filterMap_cons, List.filter_cons, ← nextSymbol?_closureTable]
      cases g.closureTable.nextSymbol? it with
      | none => simpa using ih
      | some s' =>
        by_cases hs : s' = s
        · simpa [hs] using ih
        · simpa [hs] using ih
  have hnonempty : (∃ p ∈ items.filterMap fun it =>
      (g.closureTable.nextSymbol? it).map fun s => (s, it.advance), p.1 = s) ↔
        g.advanced items s ≠ [] := by
    rw [← hvalues]
    simp only [ne_eq, List.map_eq_nil_iff, List.filter_eq_nil_iff, decide_eq_true_eq, not_forall,
      not_not, exists_prop]
  rw [hvalues, hnonempty]

theorem nodup_keys_kernels (items : List Item) :
    ((g.closureTable.kernels items).map Prod.fst).Nodup :=
  Ascending.nodup_keys_groups _

theorem CoresIn.advanced {items items' : List Item} (h : CoresIn items items') (s : Symbol) :
    CoresIn (g.advanced items s) (g.advanced items' s) := by
  intro next hnext
  obtain ⟨it, hit, hs, rfl⟩ := mem_advanced.1 hnext
  obtain ⟨it', hit', hcore⟩ := h it hit
  obtain ⟨hprod, hdot⟩ : it'.production = it.production ∧ it'.dot = it.dot := by
    simpa [Item.core] using hcore
  refine ⟨it'.advance, mem_advanced.2 ⟨it', hit', ?_, rfl⟩, ?_⟩
  · rw [hprod, hdot]
    exact hs
  · simp [Item.core, Item.advance, hprod, hdot]

theorem Admits.advance {it : Item} (h : g.Admits it) {s : Symbol}
    (hs : (g.body it.production)[it.dot]? = some s) : g.Admits it.advance :=
  ⟨h.production, (List.getElem?_eq_some_iff.1 hs).1, h.lookahead⟩

end Grammar

end SyntaxTables
