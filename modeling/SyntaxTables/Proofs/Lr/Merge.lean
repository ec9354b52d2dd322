import SyntaxTables.Lr.Merge
import SyntaxTables.Proofs.Lr.Canonical

/-!
# The merged automaton

States with the same core have edges on the same symbols, which lead to states of one core again. So
an item or an edge of a merged state is one of some state that went into it, and the merged
automaton serves to parse whenever the given one does.
-/

namespace SyntaxTables

/-! ### Cores of states -/

theorem LrState.coresIn_of_core_eq {q r : LrState} (h : q.core = r.core) :
    Grammar.CoresIn q.items r.items := by
  intro it hit
  have hmem : it.core ∈ q.core := by simpa [LrState.core] using ⟨it, hit, rfl⟩
  rw [h] at hmem
  simpa [LrState.core] using hmem

theorem Item.compare_core_ne_gt {it it' : Item} (h : compare it it' = .lt) :
    compare it.core it'.core ≠ .gt := by
  change (compare it.production it'.production).then
    ((compare it.dot it'.dot).then (compare it.lookahead it'.lookahead)) = .lt at h
  change (compare it.production it'.production).then (compare it.dot it'.dot) ≠ .gt
  cases hp : compare it.production it'.production <;>
    cases hd : compare it.dot it'.dot <;> simp_all [Ordering.then]

theorem LrState.pairwise_core {q : LrState}
    (h : q.items.Pairwise fun a b => compare a b = .lt) :
    q.core.Pairwise fun a b => compare a b = .lt := by
  have hsub : q.core.Sublist (q.items.map Item.core) := Exploration.distinct_sublist _
  have hle : q.core.Pairwise fun a b => compare a b ≠ .gt :=
    (List.pairwise_map.2 (h.imp Item.compare_core_ne_gt)).sublist hsub
  apply (hle.and (Exploration.nodup_distinct _)).imp
  rintro a b ⟨hne, hab⟩
  cases hc : compare a b with
  | lt => rfl
  | eq => exact absurd (Std.LawfulEqOrd.eq_of_compare hc) hab
  | gt => exact absurd hc hne

theorem LrState.core_eq_of_coresIn {q r : LrState}
    (hq : q.items.Pairwise fun a b => compare a b = .lt)
    (hr : r.items.Pairwise fun a b => compare a b = .lt)
    (hqr : Grammar.CoresIn q.items r.items) (hrq : Grammar.CoresIn r.items q.items) :
    q.core = r.core := by
  apply Ascending.eq_of_pairwise (pairwise_core hq) (pairwise_core hr)
  intro c
  simp only [LrState.core, Exploration.mem_distinct, List.mem_map]
  constructor
  · rintro ⟨it, hit, rfl⟩
    exact hqr it hit
  · rintro ⟨it, hit, rfl⟩
    exact hrq it hit

namespace LrAutomaton

variable {g : Grammar} {a : LrAutomaton}

def place (a : LrAutomaton) (s : Nat) : Nat := a.mergedStates.getD s 0

theorem place_eq {s : Nat} {q : LrState} (hq : a.states[s]? = some q) :
    a.place s = (Exploration.numbers a.cores).getD q.core 0 := by
  simp [place, mergedStates, Array.getD_eq_getD_getElem?, hq]

theorem mem_cores {q : LrState} (hq : q ∈ a.states) : q.core ∈ a.cores := by
  simpa [cores] using ⟨q, hq, rfl⟩

theorem getElem?_cores {q : LrState} (hq : q ∈ a.states) :
    a.cores[(Exploration.numbers a.cores).getD q.core 0]? = some q.core :=
  Exploration.getElem?_numbers (mem_cores hq) 0

theorem number_eq_iff {q : LrState} (hq : q ∈ a.states) {m : Nat} :
    (Exploration.numbers a.cores).getD q.core 0 = m ↔ a.cores[m]? = some q.core := by
  constructor
  · rintro rfl
    exact getElem?_cores hq
  · intro hm
    have hnodup : a.cores.Nodup := Exploration.nodup_distinct _
    have hlt := (List.getElem?_eq_some_iff.1 hm).1
    exact ((List.getElem?_inj hlt hnodup).1 (hm.trans (getElem?_cores hq).symm)).symm

theorem place_eq_place_iff {s t : Nat} {q r : LrState} (hq : a.states[s]? = some q)
    (hr : a.states[t]? = some r) : a.place s = a.place t ↔ q.core = r.core := by
  rw [place_eq hq, place_eq hr, number_eq_iff (List.mem_of_getElem? hq),
    getElem?_cores (List.mem_of_getElem? hr), Option.some.injEq, eq_comm]

theorem place_lt {s : Nat} {q : LrState} (hq : a.states[s]? = some q) :
    a.place s < a.cores.length := by
  rw [place_eq hq]
  exact (List.getElem?_eq_some_iff.1 (getElem?_cores (List.mem_of_getElem? hq))).1

theorem exists_number_eq {m : Nat} (hm : m < a.cores.length) :
    ∃ q ∈ a.states, (Exploration.numbers a.cores).getD q.core 0 = m := by
  have hcore : a.cores[m] ∈ a.states.map LrState.core :=
    Exploration.mem_distinct.1 (List.getElem_mem hm)
  obtain ⟨q, hq, hqc⟩ := List.mem_map.1 hcore
  refine ⟨q, hq, (number_eq_iff hq).2 ?_⟩
  rw [hqc, List.getElem?_eq_getElem hm]

def mergedGroups (a : LrAutomaton) : List (Nat × List LrState) :=
  Ascending.groups (a.states.map fun q => ((Exploration.numbers a.cores).getD q.core 0, q))

theorem keys_mergedGroups (a : LrAutomaton) :
    a.mergedGroups.map Prod.fst = List.range a.cores.length := by
  apply Ascending.eq_of_pairwise (List.pairwise_map.2 (Ascending.pairwise_groups _))
  · exact List.pairwise_lt_range.imp Nat.compare_eq_lt.2
  · intro m
    rw [Ascending.mem_keys_groups, List.mem_range]
    constructor
    · rintro ⟨p, hp, rfl⟩
      obtain ⟨q, hq, rfl⟩ := List.mem_map.1 hp
      exact (List.getElem?_eq_some_iff.1 (getElem?_cores hq)).1
    · intro hm
      obtain ⟨q, hq, hnumber⟩ := exists_number_eq hm
      exact ⟨_, List.mem_map_of_mem hq, hnumber⟩

theorem length_mergedGroups (a : LrAutomaton) : a.mergedGroups.length = a.cores.length := by
  simpa using congrArg List.length a.keys_mergedGroups

theorem getElem?_mergedGroups {m : Nat} {p : Nat × List LrState}
    (hp : a.mergedGroups[m]? = some p) :
    p.2 = a.states.filter fun q => (Exploration.numbers a.cores).getD q.core 0 = m := by
  have hkey : (a.mergedGroups.map Prod.fst)[m]? = some p.1 := by simp [hp]
  rw [keys_mergedGroups] at hkey
  obtain rfl : m = p.1 := by
    have hlt := (List.getElem?_eq_some_iff.1 hkey).1
    simpa [List.getElem?_eq_getElem hlt] using hkey
  exact (Ascending.mem_groups_map (List.mem_of_getElem? hp)).1

theorem states_mergeCores (a : LrAutomaton) :
    a.mergeCores.states = a.mergedGroups.map fun p => unite a.place p.2 := by
  have hzip : a.mergedStates.toList.zip a.states =
      a.states.map fun q => ((Exploration.numbers a.cores).getD q.core 0, q) := by
    rw [mergedStates, List.map_prod_right_eq_zip]
  change (Ascending.groups (a.mergedStates.toList.zip a.states)).map _ = _
  rw [hzip]
  rfl

theorem length_mergeCores (a : LrAutomaton) :
    a.mergeCores.states.length = a.cores.length := by
  rw [states_mergeCores, List.length_map, length_mergedGroups]

theorem getElem?_mergeCores {m : Nat} {q : LrState} :
    a.mergeCores.states[m]? = some q ↔
      m < a.cores.length ∧ q = unite a.place
        (a.states.filter fun r => (Exploration.numbers a.cores).getD r.core 0 = m) := by
  rw [states_mergeCores, List.getElem?_map, Option.map_eq_some_iff]
  constructor
  · rintro ⟨p, hp, rfl⟩
    rw [getElem?_mergedGroups hp, ← length_mergedGroups]
    exact ⟨(List.getElem?_eq_some_iff.1 hp).1, rfl⟩
  · rintro ⟨hm, rfl⟩
    rw [← length_mergedGroups] at hm
    have hget := List.getElem?_eq_getElem hm
    exact ⟨_, hget, by rw [getElem?_mergedGroups hget]⟩

theorem holds_mergeCores {m : Nat} {it : Item} :
    a.mergeCores.Holds m it ↔ ∃ s, a.Holds s it ∧ a.place s = m := by
  constructor
  · rintro ⟨q, hq, hit⟩
    obtain ⟨-, rfl⟩ := getElem?_mergeCores.1 hq
    obtain ⟨r, hr, hit⟩ : ∃ r ∈ a.states,
        (Exploration.numbers a.cores).getD r.core 0 = m ∧ it ∈ r.items := by
      simpa [unite, and_assoc] using hit
    obtain ⟨s, hs⟩ := List.mem_iff_getElem?.1 hr
    exact ⟨s, ⟨r, hs, hit.2⟩, (place_eq hs).trans hit.1⟩
  · rintro ⟨s, ⟨r, hr, hit⟩, rfl⟩
    have hmem := List.mem_of_getElem? hr
    refine ⟨_, getElem?_mergeCores.2 ⟨place_lt hr, rfl⟩, ?_⟩
    have hin : ∃ r ∈ a.states,
        (Exploration.numbers a.cores).getD r.core 0 = a.place s ∧ it ∈ r.items :=
      ⟨r, hmem, (place_eq hr).symm, hit⟩
    simpa [unite, and_assoc] using hin

/-- The core of a target depends on the core of the state and on the symbol only. -/
def Uniform (a : LrAutomaton) : Prop :=
  ∀ {s s' t t' : Nat} {x : Symbol} {q q' r r' : LrState}, a.states[s]? = some q →
    a.states[s']? = some q' → a.states[t]? = some r → a.states[t']? = some r' →
    q.target? x = some t → q'.target? x = some t' → q.core = q'.core → r.core = r'.core

/-- Of the edges on one symbol, in all states that go into a merged one, the last stays. -/
theorem mem_edges_unite {place : Nat → Nat} {members : List LrState} {x : Symbol} {n : Nat} :
    (x, n) ∈ (unite place members).edges ↔
      ∃ t, (((members.flatMap LrState.edges).filter fun e => e.1 = x).map Prod.snd).getLast? =
        some t ∧ place t = n := by
  simp only [unite, List.mem_filterMap, Prod.exists, Option.map_eq_some_iff, Prod.mk.injEq,
    Ascending.mem_groups]
  constructor
  · rintro ⟨_, _, ⟨rfl, -⟩, t, ht, rfl, rfl⟩
    exact ⟨t, ht, rfl⟩
  · rintro ⟨t, ht, rfl⟩
    obtain ⟨e, he, rfl⟩ := List.mem_map.1 (List.mem_of_getLast? ht)
    obtain ⟨hmem, hx⟩ := List.mem_filter.1 he
    exact ⟨x, _, ⟨rfl, e.1, e.2, hmem, of_decide_eq_true hx⟩, e.2, ht, rfl, rfl⟩

theorem nodup_keys_unite (place : Nat → Nat) (members : List LrState) :
    ((unite place members).edges.map Prod.fst).Nodup := by
  rw [unite, List.map_filterMap]
  apply (List.pairwise_map.1 (Ascending.nodup_keys_groups _)).filterMap _
  rintro ⟨x, ts⟩ ⟨y, us⟩ hxy e he f hf rfl
  simp only [Option.map_eq_some_iff] at he hf
  obtain ⟨_, ⟨_, -, rfl⟩, rfl⟩ := he
  obtain ⟨_, ⟨_, -, rfl⟩, hyx⟩ := hf
  exact hxy hyx.symm

theorem Faithful.exists_edge_of_mergeCores (h : Faithful g a) {m n : Nat} {x : Symbol}
    (he : a.mergeCores.Edge m x n) : ∃ s t, a.Edge s x t ∧ a.place s = m ∧ a.place t = n := by
  obtain ⟨q, hq, hn⟩ := he
  obtain ⟨-, rfl⟩ := getElem?_mergeCores.1 hq
  obtain ⟨t, ht, rfl⟩ :=
    mem_edges_unite.1 ((lookup_eq_some_iff_mem (nodup_keys_unite _ _)).1 hn)
  obtain ⟨r, hr, hplace, hedge⟩ : ∃ r ∈ a.states,
      (Exploration.numbers a.cores).getD r.core 0 = m ∧ (x, t) ∈ r.edges := by
    simpa [and_assoc] using List.mem_of_getLast? ht
  obtain ⟨s, hs⟩ := List.mem_iff_getElem?.1 hr
  exact ⟨s, t, ⟨r, hs, (lookup_eq_some_iff_mem (h.keys r hr)).2 hedge⟩,
    (place_eq hs).trans hplace, rfl⟩

theorem Faithful.exists_mergeCores_edge (h : Faithful g a) {s t : Nat} {x : Symbol}
    (he : a.Edge s x t) : ∃ n, a.mergeCores.Edge (a.place s) x n := by
  obtain ⟨r, hr, ht⟩ := he
  have hmem := List.mem_of_getElem? hr
  have hedge := (lookup_eq_some_iff_mem (h.keys r hmem)).1 ht
  have htargets : t ∈ ((((a.states.filter fun q =>
      (Exploration.numbers a.cores).getD q.core 0 = a.place s).flatMap LrState.edges).filter
        fun e => e.1 = x).map Prod.snd) := by
    simpa [and_assoc] using ⟨r, hmem, (place_eq hr).symm, hedge⟩
  have hlast := List.getLast?_eq_some_getLast (List.ne_nil_of_mem htargets)
  have hmerged : (x, a.place _) ∈ (unite a.place _).edges := mem_edges_unite.2 ⟨_, hlast, rfl⟩
  exact ⟨_, _, getElem?_mergeCores.2 ⟨place_lt hr, rfl⟩,
    (lookup_eq_some_iff_mem (nodup_keys_unite a.place _)).2 hmerged⟩

/-- An edge on a symbol is there in all states of one core. -/
theorem Faithful.exists_edge (h : Faithful g a) {s s' t : Nat} {x : Symbol} (he : a.Edge s x t)
    {q q' : LrState} (hq : a.states[s]? = some q) (hq' : a.states[s']? = some q')
    (hcore : q.core = q'.core) : ∃ t', a.Edge s' x t' := by
  obtain ⟨it, ⟨p, hp, hit⟩, hx⟩ := h.carries he
  obtain rfl := Option.some.inj (hq.symm.trans hp)
  obtain ⟨it', hit', hc⟩ := LrState.coresIn_of_core_eq hcore it hit
  obtain ⟨hproduction, hdot⟩ : it'.production = it.production ∧ it'.dot = it.dot := by
    simpa [Item.core] using hc
  obtain ⟨t', he', -⟩ := h.advances ⟨q', hq', hit'⟩ (by rw [hproduction, hdot]; exact hx)
  exact ⟨t', he'⟩

theorem Faithful.place_zero (h : Faithful g a) : a.place 0 = 0 := by
  obtain ⟨q, hq, -⟩ := h.start
  rw [place_eq hq, number_eq_iff (List.mem_of_getElem? hq)]
  cases hs : a.states with
  | nil => simp [hs] at hq
  | cons r rest =>
    obtain rfl : r = q := by simpa [hs] using hq
    have hfirst := Exploration.getElem?_zero_distinct r.core (rest.map LrState.core)
    rwa [cores, hs, List.map_cons]

/-- The other states of a core hold an item as well, perhaps with another lookahead. -/
theorem exists_holds_of_place {s t : Nat} {it : Item} (hit : a.Holds s it)
    (hplace : a.place s = a.place t) (ht : t < a.states.length) :
    ∃ b, a.Holds t ⟨it.production, it.dot, b⟩ := by
  obtain ⟨q, hq, hit⟩ := hit
  have hr := List.getElem?_eq_getElem ht
  obtain ⟨it', hit', hcore⟩ :=
    LrState.coresIn_of_core_eq ((place_eq_place_iff hq hr).1 hplace) it hit
  obtain ⟨hproduction, hdot⟩ : it'.production = it.production ∧ it'.dot = it.dot := by
    simpa [Item.core] using hcore
  exact ⟨it'.lookahead, _, hr, by rwa [← hproduction, ← hdot]⟩

section Faithful

variable (h : Faithful g a) (hu : a.Uniform)

include h hu

/-- An edge of one state is there in every state of the same core, up to cores. -/
theorem exists_edge_of_place {s s' t' : Nat} {x : Symbol} (he : a.Edge s' x t')
    (hplace : a.place s' = a.place s) (hs : s < a.states.length) :
    ∃ t, a.Edge s x t ∧ a.place t = a.place t' := by
  obtain ⟨q', hq', ht'⟩ := he
  have hq := List.getElem?_eq_getElem hs
  have hcore := (place_eq_place_iff hq' hq).1 hplace
  obtain ⟨t, p, hp, ht⟩ := h.exists_edge ⟨q', hq', ht'⟩ hq' hq hcore
  obtain rfl := Option.some.inj (hq.symm.trans hp)
  have hr := List.getElem?_eq_getElem (h.enters ⟨_, hq, ht⟩).1
  have hr' := List.getElem?_eq_getElem (h.enters ⟨q', hq', ht'⟩).1
  exact ⟨t, ⟨_, hq, ht⟩, (place_eq_place_iff hr hr').2 (hu hq hq' hr hr' ht ht' hcore.symm)⟩

/-- States of one core agree on where an edge leads, so no edge gets lost. -/
theorem edge_mergeCores {m n : Nat} {x : Symbol} :
    a.mergeCores.Edge m x n ↔ ∃ s t, a.Edge s x t ∧ a.place s = m ∧ a.place t = n := by
  constructor
  · exact h.exists_edge_of_mergeCores
  · rintro ⟨s, t, he, rfl, rfl⟩
    obtain ⟨n, hmerged⟩ := h.exists_mergeCores_edge he
    obtain ⟨s', t', he', hplace, rfl⟩ := h.exists_edge_of_mergeCores hmerged
    obtain ⟨r, hr, -⟩ := id he
    obtain ⟨u, heu, hu⟩ := exists_edge_of_place h hu he' hplace (List.getElem?_eq_some_iff.1 hr).1
    rwa [he.unique heu, hu]

theorem Faithful.mergeCores : Faithful g a.mergeCores where
  augmented := h.augmented
  ascending := by
    intro q hq
    obtain ⟨m, hm⟩ := List.mem_iff_getElem?.1 hq
    obtain ⟨-, rfl⟩ := getElem?_mergeCores.1 hm
    exact Ascending.pairwise_ofList _
  keys := by
    intro q hq
    obtain ⟨m, hm⟩ := List.mem_iff_getElem?.1 hq
    obtain ⟨-, rfl⟩ := getElem?_mergeCores.1 hm
    exact nodup_keys_unite _ _
  start := holds_mergeCores.2 ⟨0, h.start, h.place_zero⟩
  admits := by
    intro m it hmerged
    obtain ⟨s, hit, -⟩ := holds_mergeCores.1 hmerged
    exact h.admits hit
  predicts := by
    intro m it it' hmerged hit'
    obtain ⟨s, hit, hm⟩ := holds_mergeCores.1 hmerged
    exact holds_mergeCores.2 ⟨s, h.predicts hit hit', hm⟩
  advances := by
    intro m it x hmerged hx
    obtain ⟨s, hit, hm⟩ := holds_mergeCores.1 hmerged
    obtain ⟨t, he, ht⟩ := h.advances hit hx
    exact ⟨a.place t, (edge_mergeCores h hu).2 ⟨s, t, he, hm, rfl⟩,
      holds_mergeCores.2 ⟨t, ht, rfl⟩⟩
  enters := by
    intro m x n hmerged
    obtain ⟨s, t, he, -, rfl⟩ := (edge_mergeCores h hu).1 hmerged
    obtain ⟨hlt, hne⟩ := h.enters he
    constructor
    · rw [length_mergeCores]
      exact place_lt (List.getElem?_eq_getElem hlt)
    · intro hzero
      obtain ⟨b, hit⟩ := exists_holds_of_place h.start (h.place_zero.trans hzero.symm) hlt
      exact hne (h.only_start hit rfl)
  carries := by
    intro m x n hmerged
    obtain ⟨s, t, he, rfl, -⟩ := (edge_mergeCores h hu).1 hmerged
    obtain ⟨it, hit, hx⟩ := h.carries he
    exact ⟨it, holds_mergeCores.2 ⟨s, hit, rfl⟩, hx⟩
  retreats := by
    intro m x n it d hedge hmerged hd
    obtain ⟨s, t, he, rfl, rfl⟩ := (edge_mergeCores h hu).1 hedge
    obtain ⟨t', hit, hplace⟩ := holds_mergeCores.1 hmerged
    obtain ⟨b', hit'⟩ := exists_holds_of_place hit hplace (h.enters he).1
    obtain ⟨hx, b, hb⟩ := h.retreats he hit' hd
    exact ⟨hx, b, holds_mergeCores.2 ⟨s, hb, rfl⟩⟩
  begins := by
    intro it hmerged
    obtain ⟨s, hit, hzero⟩ := holds_mergeCores.1 hmerged
    obtain ⟨q, hq, -⟩ := h.start
    obtain ⟨b, hit'⟩ := exists_holds_of_place hit (hzero.trans h.place_zero.symm)
      (List.getElem?_eq_some_iff.1 hq).1
    have hdot := h.begins hit'
    exact hdot
  only_start := by
    intro m it hmerged hcore
    obtain ⟨s, hit, rfl⟩ := holds_mergeCores.1 hmerged
    rw [h.only_start hit hcore]
    exact h.place_zero

end Faithful

end LrAutomaton

theorem Grammar.uniform_canonicalLr {g : Grammar} (hstart : g.Declares (.nonterminal g.start)) :
    g.canonicalLr.Uniform := by
  have hascending := (faithful_canonicalLr hstart).ascending
  intro s s' t t' x q q' r r' hq hq' hr hr' ht ht' hcore
  apply LrState.core_eq_of_coresIn (hascending r (List.mem_of_getElem? hr))
    (hascending r' (List.mem_of_getElem? hr'))
  · exact coresIn_of_edge hstart hq hq' hr hr' ht ht' (LrState.coresIn_of_core_eq hcore)
  · exact coresIn_of_edge hstart hq' hq hr' hr ht' ht (LrState.coresIn_of_core_eq hcore.symm)

end SyntaxTables
