import SyntaxTables.Proofs.Grammar.Renumbering
import SyntaxTables.ParseTable.Fill
import SyntaxTables.Proofs.Lr.Merge

/-!
# Automata of renumbered productions

Where numbers of productions are related, so are items, and closed sets, and what follows them on a
symbol. The searches for kernels find related kernels in the same order, because that order goes by
symbols and not by productions. So the states have the same numbers and the same edges, and they
differ in the numbers of the productions in their items only. Merging keeps this up.
-/

namespace SyntaxTables

variable {r : Nat → Nat → Prop}

/-- Items that differ in the number of their production only. -/
structure Item.Alike (r : Nat → Nat → Prop) (it it' : Item) : Prop where
  production : r it.production it'.production
  dot : it'.dot = it.dot
  lookahead : it'.lookahead = it.lookahead

structure ItemCore.Alike (r : Nat → Nat → Prop) (c c' : ItemCore) : Prop where
  production : r c.production c'.production
  dot : c'.dot = c.dot

theorem Item.biUnique_alike (hr : Relator.BiUnique r) : Relator.BiUnique (Item.Alike r) := by
  constructor
  · rintro ⟨i, d, x⟩ it ⟨k, f, z⟩ h h'
    rw [Item.mk.injEq]
    exact ⟨hr.1 h.production h'.production, h.dot.symm.trans h'.dot,
      h.lookahead.symm.trans h'.lookahead⟩
  · rintro it ⟨j, e, y⟩ ⟨k, f, z⟩ h h'
    rw [Item.mk.injEq]
    exact ⟨hr.2 h.production h'.production, h.dot.trans h'.dot.symm,
      h.lookahead.trans h'.lookahead.symm⟩

theorem ItemCore.biUnique_alike (hr : Relator.BiUnique r) :
    Relator.BiUnique (ItemCore.Alike r) := by
  constructor
  · rintro ⟨i, d⟩ c ⟨k, f⟩ h h'
    rw [ItemCore.mk.injEq]
    exact ⟨hr.1 h.production h'.production, h.dot.symm.trans h'.dot⟩
  · rintro c ⟨j, e⟩ ⟨k, f⟩ h h'
    rw [ItemCore.mk.injEq]
    exact ⟨hr.2 h.production h'.production, h.dot.trans h'.dot.symm⟩

theorem Item.Alike.advance {it it' : Item} (h : Item.Alike r it it') :
    Item.Alike r it.advance it'.advance :=
  ⟨h.production, congrArg (· + 1) h.dot, h.lookahead⟩

theorem Item.Alike.core {it it' : Item} (h : Item.Alike r it it') :
    ItemCore.Alike r it.core it'.core :=
  ⟨h.production, h.dot⟩

namespace Grammar

variable {g h : Grammar}

/-- Items of the productions that take part in both grammars. -/
abbrev ItemsAlike (g h : Grammar) (r : Nat → Nat → Prop) : Item → Item → Prop :=
  Item.Alike (g.Matching h r)

theorem itemsAlike_flip {it it' : Item} :
    h.ItemsAlike g (flip r) it' it ↔ g.ItemsAlike h r it it' := by
  constructor
  · rintro ⟨hp, hd, hl⟩
    exact ⟨hp.imp id And.symm, hd.symm, hl.symm⟩
  · rintro ⟨hp, hd, hl⟩
    exact ⟨hp.imp id And.symm, hd.symm, hl.symm⟩

namespace Renumbered

section Steps

variable (hr : g.Renumbered h r)

include hr

theorem biUnique_itemsAlike : Relator.BiUnique (g.ItemsAlike h r) :=
  Item.biUnique_alike hr.biUnique_matching

theorem getElem?_body {it it' : Item} (hit : g.ItemsAlike h r it it') :
    (h.body it'.production)[it'.dot]? = (g.body it.production)[it.dot]? := by
  rw [hr.body_eq hit.production, hit.dot]

theorem exists_prediction {it it' next : Item} (hit : g.ItemsAlike h r it it')
    (hnext : next ∈ g.closureTable.predictions it) :
    ∃ next', g.ItemsAlike h r next next' ∧ next' ∈ h.closureTable.predictions it' := by
  obtain ⟨p, rest, hdrop, hp, hdot, hb⟩ := mem_predictions.1 hnext
  obtain ⟨j, hij, hp'⟩ := hr.exists_usable hp
  refine ⟨⟨j, 0, next.lookahead⟩, ⟨Or.inl hij, hdot.symm, rfl⟩,
    mem_predictions.2 ⟨p, rest, ?_, hp', rfl, ?_⟩⟩
  · rw [hr.body_eq hit.production, hit.dot, hdrop]
  · rwa [hr.mem_lookaheads_iff, hit.lookahead]

theorem exists_of_reaches {it it' next : Item} (hit : g.ItemsAlike h r it it')
    (hreach : Exploration.Reaches g.closureTable.predictions it next) :
    ∃ next', g.ItemsAlike h r next next' ∧
      Exploration.Reaches h.closureTable.predictions it' next' := by
  induction hreach with
  | refl => exact ⟨it', hit, .refl⟩
  | tail _ hstep ih =>
    obtain ⟨mid', hmid, hreach'⟩ := ih
    obtain ⟨next', hnext, hstep'⟩ := hr.exists_prediction hmid hstep
    exact ⟨next', hnext, hreach'.tail hstep'⟩

theorem exists_mem_closure (hstart : g.Declares (.nonterminal g.start)) {kernel kernel' : List Item}
    (hk : ∀ it ∈ kernel, g.Admits it) (hk' : ∀ it ∈ kernel', h.Admits it)
    (halike : ∀ it ∈ kernel, ∃ it' ∈ kernel', g.ItemsAlike h r it it') {it : Item}
    (hit : it ∈ g.closureTable.closure kernel) :
    ∃ it' ∈ h.closureTable.closure kernel', g.ItemsAlike h r it it' := by
  obtain ⟨k, hkm, hreach⟩ := (mem_closure hstart hk).1 hit
  obtain ⟨k', hkm', hkk⟩ := halike k hkm
  obtain ⟨it', hit', hreach'⟩ := hr.exists_of_reaches hkk hreach
  exact ⟨it', (mem_closure (hr.declares_start hstart) hk').2 ⟨k', hkm', hreach'⟩, hit'⟩

theorem exists_mem_advanced {items items' : List Item}
    (halike : ∀ it ∈ items, ∃ it' ∈ items', g.ItemsAlike h r it it') {x : Symbol} {next : Item}
    (hnext : next ∈ g.advanced items x) :
    ∃ next' ∈ h.advanced items' x, g.ItemsAlike h r next next' := by
  obtain ⟨it, hit, hx, rfl⟩ := mem_advanced.1 hnext
  obtain ⟨it', hit', hiit⟩ := halike it hit
  exact ⟨it'.advance, mem_advanced.2 ⟨it', hit', (hr.getElem?_body hiit).trans hx, rfl⟩,
    hiit.advance⟩

end Steps

/-! ### Sets of items -/

open Ascending (Matched)

section Sets

variable (hr : g.Renumbered h r)

include hr

theorem matched_closure (hstart : g.Declares (.nonterminal g.start)) {kernel kernel' : List Item}
    (hk : ∀ it ∈ kernel, g.Admits it) (hk' : ∀ it ∈ kernel', h.Admits it)
    (hkernel : Matched (g.ItemsAlike h r) kernel kernel') :
    Matched (g.ItemsAlike h r) (g.closureTable.closure kernel)
      (h.closureTable.closure kernel') where
  left_ascending := Ascending.pairwise_ofList _
  right_ascending := Ascending.pairwise_ofList _
  left := fun _ hit => hr.exists_mem_closure hstart hk hk' hkernel.left hit
  right := by
    intro it' hit'
    obtain ⟨it, hit, halike⟩ := hr.symm.exists_mem_closure (hr.declares_start hstart) hk' hk
      (fun k' hkm' => by simpa only [itemsAlike_flip] using hkernel.right k' hkm') hit'
    exact ⟨it, hit, itemsAlike_flip.1 halike⟩

theorem matched_advanced {items items' : List Item}
    (hitems : Matched (g.ItemsAlike h r) items items') (x : Symbol) :
    Matched (g.ItemsAlike h r) (g.advanced items x) (h.advanced items' x) where
  left_ascending := pairwise_advanced hitems.left_ascending x
  right_ascending := pairwise_advanced hitems.right_ascending x
  left := fun _ hnext => hr.exists_mem_advanced hitems.left hnext
  right := by
    intro next' hnext'
    obtain ⟨next, hnext, halike⟩ := hr.symm.exists_mem_advanced
      (fun it' hit' => by simpa only [itemsAlike_flip] using hitems.right it' hit') hnext'
    exact ⟨next, hnext, itemsAlike_flip.1 halike⟩

end Sets

end Renumbered

/-! ### Searching alike -/

open Ascending (Matched)

/-- The kernels of both grammars that correspond. -/
structure KernelsAlike (g h : Grammar) (r : Nat → Nat → Prop) (kernel kernel' : List Item) :
    Prop where
  left : g.Kernel kernel
  right : h.Kernel kernel'
  matched : Matched (g.ItemsAlike h r) kernel kernel'

/-- The kernels that follow, by the symbols on which they do. -/
theorem nextKernels_eq_map (kernel : List Item) :
    g.nextKernels kernel =
      ((g.closureTable.kernels (g.closureTable.closure kernel)).map Prod.fst).map
        (g.advanced (g.closureTable.closure kernel)) := by
  rw [nextKernels, List.map_map]
  refine List.map_congr_left ?_
  rintro ⟨x, next⟩ hp
  exact (mem_kernels.1 hp).1

theorem mem_keys_kernels {items : List Item} {x : Symbol} :
    x ∈ (g.closureTable.kernels items).map Prod.fst ↔ g.advanced items x ≠ [] := by
  rw [List.mem_map]
  constructor
  · rintro ⟨⟨_, kernel⟩, hp, rfl⟩
    exact (mem_kernels.1 hp).2
  · intro hne
    exact ⟨(x, _), mem_kernels.2 ⟨rfl, hne⟩, rfl⟩

section Search

variable (hr : g.Renumbered h r) (hstart : g.Declares (.nonterminal g.start))

include hr

theorem biUnique_kernelsAlike : Relator.BiUnique (g.KernelsAlike h r) := by
  have hunique := Ascending.biUnique_matched hr.biUnique_itemsAlike
  exact ⟨fun _ _ _ hk hk' => hunique.1 hk.matched hk'.matched,
    fun _ _ _ hk hk' => hunique.2 hk.matched hk'.matched⟩

theorem keys_kernels_eq {items items' : List Item}
    (hitems : Matched (g.ItemsAlike h r) items items') :
    (h.closureTable.kernels items').map Prod.fst =
      (g.closureTable.kernels items).map Prod.fst := by
  apply Ascending.eq_of_pairwise (List.pairwise_map.2 (Ascending.pairwise_groups _))
    (List.pairwise_map.2 (Ascending.pairwise_groups _))
  intro x
  change x ∈ (h.closureTable.kernels items').map Prod.fst ↔
    x ∈ (g.closureTable.kernels items).map Prod.fst
  rw [mem_keys_kernels, mem_keys_kernels, ne_eq, ne_eq, (hr.matched_advanced hitems x).eq_nil_iff]

include hstart

theorem KernelsAlike.closure {kernel kernel' : List Item} (hk : g.KernelsAlike h r kernel kernel') :
    Matched (g.ItemsAlike h r) (g.closureTable.closure kernel)
      (h.closureTable.closure kernel') :=
  hr.matched_closure hstart hk.left.admits hk.right.admits hk.matched

/-- What follows kernels alike on the symbols in order are kernels alike. -/
theorem KernelsAlike.next {kernel kernel' : List Item} (hk : g.KernelsAlike h r kernel kernel') :
    List.Forall₂ (g.KernelsAlike h r) (g.nextKernels kernel) (h.nextKernels kernel') := by
  have hclosure := hk.closure hr hstart
  have hkeys := keys_kernels_eq hr hclosure
  rw [nextKernels_eq_map, nextKernels_eq_map, hkeys, List.forall₂_map_left_iff,
    List.forall₂_map_right_iff, List.forall₂_same]
  intro x hx
  have hmatched := hr.matched_advanced hclosure x
  have hne := mem_keys_kernels.1 hx
  exact ⟨hk.left.next hstart (mem_nextKernels.2 ⟨x, rfl, hne⟩),
    hk.right.next (hr.declares_start hstart)
      (mem_nextKernels.2 ⟨x, rfl, mt hmatched.eq_nil_iff.2 hne⟩), hmatched⟩

theorem forall₂_lrKernels :
    List.Forall₂ (g.KernelsAlike h r) (g.lrKernels g.closureTable)
      (h.lrKernels h.closureTable) := by
  have hseed : g.KernelsAlike h r g.startKernel h.startKernel := by
    refine ⟨kernel_startKernel g, kernel_startKernel h, List.pairwise_singleton _ _,
      List.pairwise_singleton _ _, ?_, ?_⟩
    all_goals
      simp only [startKernel, List.mem_singleton, forall_eq, exists_eq_left]
      exact ⟨Or.inr ⟨rfl, rfl⟩, rfl, hr.eof_eq⟩
  -- with layers enough for both grammars
  rw [lrKernels_eq_breadthFirst hstart (2 ^ h.itemCount),
    lrKernels_eq_breadthFirst (hr.declares_start hstart) (2 ^ g.itemCount),
    Nat.add_comm (2 ^ h.itemCount)]
  exact Exploration.forall₂_breadthFirst (biUnique_kernelsAlike hr)
    (fun _ _ hk => hk.next hr hstart) _ (.cons hseed .nil)

end Search

end Grammar

/-! ### Automata alike -/

namespace LrAutomaton

/-- The states of two automata have the same edges and items alike. -/
structure Alike (r : Nat → Nat → Prop) (a b : LrAutomaton) : Prop where
  length : b.states.length = a.states.length
  left : ∀ {s it}, a.Holds s it → ∃ it', Item.Alike r it it' ∧ b.Holds s it'
  right : ∀ {s it'}, b.Holds s it' → ∃ it, Item.Alike r it it' ∧ a.Holds s it
  edge_iff : ∀ {s x t}, b.Edge s x t ↔ a.Edge s x t

namespace Alike

open Ascending (Matched)

variable {a b : LrAutomaton}

theorem exists_state (halike : Alike r a b) {s : Nat} {q : LrState} (hq : a.states[s]? = some q) :
    ∃ q', b.states[s]? = some q' := by
  have hs := (List.getElem?_eq_some_iff.1 hq).1
  rw [← halike.length] at hs
  exact ⟨_, List.getElem?_eq_getElem hs⟩

section States

variable {g h : Grammar} (ha : Faithful g a) (hb : Faithful h b) (halike : Alike r a b)

include ha hb halike

theorem matched_items {s : Nat} {q q' : LrState} (hq : a.states[s]? = some q)
    (hq' : b.states[s]? = some q') : Matched (Item.Alike r) q.items q'.items where
  left_ascending := ha.ascending q (List.mem_of_getElem? hq)
  right_ascending := hb.ascending q' (List.mem_of_getElem? hq')
  left := by
    intro it hit
    obtain ⟨it', hiit, hit'⟩ := halike.left ((holds_iff_mem hq).2 hit)
    exact ⟨it', (holds_iff_mem hq').1 hit', hiit⟩
  right := by
    intro it' hit'
    obtain ⟨it, hiit, hit⟩ := halike.right ((holds_iff_mem hq').2 hit')
    exact ⟨it, (holds_iff_mem hq).1 hit, hiit⟩

theorem matched_core {s : Nat} {q q' : LrState} (hq : a.states[s]? = some q)
    (hq' : b.states[s]? = some q') : Matched (ItemCore.Alike r) q.core q'.core := by
  have hitems := matched_items ha hb halike hq hq'
  refine ⟨LrState.pairwise_core hitems.left_ascending, LrState.pairwise_core hitems.right_ascending,
    ?_, ?_⟩
  · simp only [LrState.core, Exploration.mem_distinct, List.mem_map]
    rintro _ ⟨it, hit, rfl⟩
    obtain ⟨it', hit', hiit⟩ := hitems.left it hit
    exact ⟨_, ⟨it', hit', rfl⟩, hiit.core⟩
  · simp only [LrState.core, Exploration.mem_distinct, List.mem_map]
    rintro _ ⟨it', hit', rfl⟩
    obtain ⟨it, hit, hiit⟩ := hitems.right it' hit'
    exact ⟨_, ⟨it, hit, rfl⟩, hiit.core⟩

variable (hr : Relator.BiUnique r)

include hr

theorem forall₂_cores : List.Forall₂ (Matched (ItemCore.Alike r)) a.cores b.cores := by
  apply Exploration.forall₂_distinct (Ascending.biUnique_matched (ItemCore.biUnique_alike hr))
  rw [List.forall₂_map_left_iff, List.forall₂_map_right_iff]
  apply List.forall₂_of_length_eq_of_get halike.length.symm
  intro s hs hs'
  exact matched_core ha hb halike (List.getElem?_eq_getElem hs) (List.getElem?_eq_getElem hs')

/-- A state goes into the merged state of the same number. -/
theorem place_eq {s : Nat} {q : LrState} (hq : a.states[s]? = some q) : b.place s = a.place s := by
  obtain ⟨q', hq'⟩ := halike.exists_state hq
  have hcore : a.cores[a.place s]? = some q.core := by
    rw [LrAutomaton.place_eq hq]
    exact getElem?_cores (List.mem_of_getElem? hq)
  obtain ⟨core, hcore', hmatched⟩ :=
    Exploration.exists_getElem?_of_forall₂ (forall₂_cores ha hb halike hr) hcore
  have hunique := Ascending.biUnique_matched (ItemCore.biUnique_alike hr)
  rw [hunique.2 hmatched (matched_core ha hb halike hq hq')] at hcore'
  rw [LrAutomaton.place_eq hq', number_eq_iff (List.mem_of_getElem? hq')]
  exact hcore'

theorem mergeCores (hua : a.Uniform) (hub : b.Uniform) : Alike r a.mergeCores b.mergeCores where
  length := by
    rw [length_mergeCores, length_mergeCores]
    exact (forall₂_cores ha hb halike hr).length_eq.symm
  left := by
    intro m it hit
    obtain ⟨s, hs, rfl⟩ := holds_mergeCores.1 hit
    obtain ⟨it', hiit, hs'⟩ := halike.left hs
    obtain ⟨q, hq, -⟩ := hs
    exact ⟨it', hiit, holds_mergeCores.2 ⟨s, hs', place_eq ha hb halike hr hq⟩⟩
  right := by
    intro m it' hit'
    obtain ⟨s, hs', rfl⟩ := holds_mergeCores.1 hit'
    obtain ⟨it, hiit, hs⟩ := halike.right hs'
    obtain ⟨q, hq, -⟩ := id hs
    exact ⟨it, hiit, holds_mergeCores.2 ⟨s, hs, (place_eq ha hb halike hr hq).symm⟩⟩
  edge_iff := by
    intro m x n
    rw [edge_mergeCores ha hua, edge_mergeCores hb hub]
    refine exists_congr fun s => exists_congr fun t => ?_
    rw [halike.edge_iff]
    refine and_congr_right fun he => ?_
    obtain ⟨q, hq, -⟩ := id he
    rw [place_eq ha hb halike hr hq,
      place_eq ha hb halike hr (List.getElem?_eq_getElem (ha.enters he).1)]

end States

end Alike

end LrAutomaton

namespace Grammar.Renumbered

variable {g h : Grammar}

section Canonical

variable (hr : g.Renumbered h r) (hstart : g.Declares (.nonterminal g.start))

include hr hstart

theorem exists_holds_canonicalLr {s : Nat} {it : Item} (hit : g.canonicalLr.Holds s it) :
    ∃ it', g.ItemsAlike h r it it' ∧ h.canonicalLr.Holds s it' := by
  obtain ⟨q, hq, hit⟩ := hit
  obtain ⟨kernel, hkernel, -, hitems, -⟩ := exists_kernel hstart hq
  obtain ⟨kernel', hkernel', halike⟩ :=
    Exploration.exists_getElem?_of_forall₂ (forall₂_lrKernels hr hstart) hkernel
  obtain ⟨q', hq', hitems'⟩ := exists_state hkernel'
  obtain ⟨it', hit', hiit⟩ := (halike.closure hr hstart).left it (hitems ▸ hit)
  exact ⟨it', hiit, q', hq', hitems' ▸ hit'⟩

theorem edge_canonicalLr {s t : Nat} {x : Symbol} (he : g.canonicalLr.Edge s x t) :
    h.canonicalLr.Edge s x t := by
  obtain ⟨q, hq, ht⟩ := he
  obtain ⟨kernel, hkernel, -, hitems, -, htarget⟩ := exists_kernel hstart hq
  obtain ⟨hne, hnext⟩ := (htarget x t).1 ht
  have hall := forall₂_lrKernels hr hstart
  obtain ⟨kernel', hkernel', halike⟩ := Exploration.exists_getElem?_of_forall₂ hall hkernel
  obtain ⟨next', hnext', hnexts⟩ := Exploration.exists_getElem?_of_forall₂ hall hnext
  obtain ⟨q', hq', hitems'⟩ := exists_state hkernel'
  obtain ⟨-, -, -, -, -, htarget'⟩ := exists_kernel (hr.declares_start hstart) hq'
  have hmatched := hr.matched_advanced (halike.closure hr hstart) x
  rw [← hitems, ← hitems'] at hmatched
  have heq : next' = h.advanced q'.items x :=
    (Ascending.biUnique_matched hr.biUnique_itemsAlike).2 hnexts.matched hmatched
  refine ⟨q', hq', (htarget' x t).2 ⟨mt hmatched.eq_nil_iff.2 hne, ?_⟩⟩
  rw [← heq]
  exact hnext'

theorem alike_canonicalLr : LrAutomaton.Alike (g.Matching h r) g.canonicalLr h.canonicalLr where
  length := by
    simpa [canonicalLr] using (forall₂_lrKernels hr hstart).length_eq.symm
  left := exists_holds_canonicalLr hr hstart
  right := by
    intro s it' hit'
    obtain ⟨it, halike, hit⟩ := exists_holds_canonicalLr hr.symm (hr.declares_start hstart) hit'
    exact ⟨it, itemsAlike_flip.1 halike, hit⟩
  edge_iff := ⟨edge_canonicalLr hr.symm (hr.declares_start hstart), edge_canonicalLr hr hstart⟩

end Canonical

theorem alike_lrAutomaton (hr : g.Renumbered h r) (hstart : g.Declares (.nonterminal g.start))
    (settings : ParserSettings) :
    LrAutomaton.Alike (g.Matching h r) (g.lrAutomaton settings) (h.lrAutomaton settings) := by
  have hstart' := hr.declares_start hstart
  have halike := hr.alike_canonicalLr hstart
  unfold lrAutomaton
  split_ifs
  · exact halike.mergeCores (faithful_canonicalLr hstart) (faithful_canonicalLr hstart')
      hr.biUnique_matching (uniform_canonicalLr hstart) (uniform_canonicalLr hstart')
  · exact halike

end Grammar.Renumbered

end SyntaxTables
