import SyntaxTables.Proofs.Dfa.Subset
import SyntaxTables.Proofs.Exploration.Queue
import SyntaxTables.Proofs.Nfa.Word

/-!
# Runs of the subset construction

A run on a word of symbols leads to the state of the set of places that paths along the word lead
to. Different states have different sets, so two words lead to one state exactly if paths along them
lead to the same places. The work list of sets ends, because there are finitely many sets of places.
-/

namespace SyntaxTables.Nfa

variable {alphabet : Alphabet} {a : Nfa} {places : List Nat}

/-- The states of a deterministic automaton are the sets of places that words lead to. -/
structure DeterminizedBy (a : Nfa) (d : Dfa) : Prop where
  start : d.start = 0
  reachable : ∀ i < d.size, ∃ word, d.run 0 word = some i
  run_iff : ∀ word, (∃ i, d.run 0 word = some i) ↔ word = [] ∨ ∃ s, a.WordPath a.start word s
  /-- The token of a state is that of the best label on the places, if any of them has one. -/
  token : ∀ {word i}, d.run 0 word = some i → ∃ best, d.token? i = best.map Label.token ∧
    Label.IsBest (fun l => ∃ s, a.WordPath a.start word s ∧ (a.state s).label = some l) best
  same_iff : ∀ {v w i j}, d.run 0 v = some i → d.run 0 w = some j →
    (i = j ↔ ∀ s, a.WordPath a.start v s ↔ a.WordPath a.start w s)

theorem ClosedSet.pairwise (h : a.ClosedSet places) :
    places.Pairwise fun s t => compare s t = .lt := by
  obtain ⟨seeds, -, rfl⟩ := h
  exact Ascending.pairwise_ofList _

theorem getElem?_reachableSets_inj {i j : Nat} (hi : a.reachableSets[i]? = some places)
    (hj : a.reachableSets[j]? = some places) : i = j :=
  (List.getElem?_inj (List.getElem?_eq_some_iff.1 hi).1 (Exploration.nodup_breadthFirst _ _)).1
    (hi.trans hj.symm)

/-- The places that paths along a word lead to from the start are those that they lead to from its
closure. -/
theorem exists_wordPath_closure_iff {word : List Nat} {s : Nat} :
    (∃ p ∈ a.closure [a.start], a.WordPath p word s) ↔ a.WordPath a.start word s := by
  constructor
  · rintro ⟨p, hp, hps⟩
    obtain ⟨r, hr, hrp⟩ := mem_closure.1 hp
    rw [List.mem_singleton.1 hr] at hrp
    exact (path_nil_iff.2 hrp).trans hps
  · exact fun h => ⟨a.start, mem_closure.2 ⟨a.start, List.mem_singleton_self _, .refl⟩, h⟩

section Contained

variable (hclosed : a.Closed (· < a.size)) (hstart : a.start < a.size)

include hclosed hstart

/-- The work list of sets ends with the sets that become the states. -/
theorem drains_reachableSets :
    Exploration.Drains (fun places => (a.moves places).map Prod.snd) [] [a.closure [a.start]]
      a.reachableSets := by
  have hdrains := Exploration.drains_breadthFirst _
    (fun seed hseed set hset _ => mem_subsets_of_reaches hclosed hstart hseed hset)
    (length_subsets_range_le a)
  have hseeds : Exploration.distinct [a.closure [a.start]] = [a.closure [a.start]] := by
    simp [Exploration.distinct, Exploration.fresh, Exploration.Findings.note]
  rwa [hseeds] at hdrains

theorem lt_of_reaches {s : Nat} (h : Exploration.Reaches a.successors a.start s) :
    s < a.size := by
  induction h with
  | refl => exact hstart
  | tail _ hst ih => exact hclosed _ ih _ hst

theorem toDfaChecked_eq : a.toDfaChecked alphabet = .ok (a.toDfa alphabet) := by
  have hinside : (Exploration.breadthFirst a.successors a.size [a.start]).find?
      (fun s => a.size ≤ s) = none := by
    rw [List.find?_eq_none]
    intro s hs
    obtain ⟨r, hr, hrs⟩ := Exploration.exists_of_mem_breadthFirst hs
    rw [List.mem_singleton.1 hr] at hrs
    simpa using lt_of_reaches hclosed hstart hrs
  rw [toDfaChecked, hinside]

/-- From the state of a set, a word leads to the state of the places that paths along it lead to
from the set, unless there are none. -/
theorem run_toDfa_cases {i : Nat} (hi : a.reachableSets[i]? = some places) (word : List Nat) :
    ((a.toDfa alphabet).run i word = none ∧ ∀ p ∈ places, ∀ s, ¬ a.WordPath p word s) ∨
      ∃ j set, (a.toDfa alphabet).run i word = some j ∧ a.reachableSets[j]? = some set ∧
        ∀ s, s ∈ set ↔ ∃ p ∈ places, a.WordPath p word s := by
  have hset := closedSet_of_mem hclosed hstart (List.mem_of_getElem? hi)
  induction word generalizing i places with
  | nil =>
    refine Or.inr ⟨i, places, rfl, hi, fun s => ?_⟩
    constructor
    · exact fun hs => ⟨s, hs, .nil s⟩
    · rintro ⟨p, hp, hps⟩
      exact hset.mem_of_path hp hps
  | cons x word ih =>
    have hpaths : ∀ s, (∃ p ∈ places, a.WordPath p (x :: word) s) ↔
        ∃ q ∈ a.closure (a.targets places x), a.WordPath q word s :=
      fun s => hset.path_cons_iff fun y => eq_comm
    rw [Dfa.run]
    rcases target?_toDfa_cases hclosed hstart hi x with ⟨ht, hnone⟩ | ⟨j, ht, hj⟩
    · refine Or.inl ⟨by rw [ht]; rfl, fun p hp s hps => ?_⟩
      obtain ⟨q, hq, -⟩ := (hpaths s).1 ⟨p, hp, hps⟩
      obtain ⟨t, htargets, -⟩ := mem_closure.1 hq
      exact hnone t htargets
    · rw [ht, Option.bind_some]
      rcases ih hj (closedSet_of_mem hclosed hstart (List.mem_of_getElem? hj)) with
        ⟨hrun, hnone⟩ | ⟨k, set, hrun, hk, hmem⟩
      · refine Or.inl ⟨hrun, fun p hp s hps => ?_⟩
        obtain ⟨q, hq, hqs⟩ := (hpaths s).1 ⟨p, hp, hps⟩
        exact hnone q hq s hqs
      · exact Or.inr ⟨k, set, hrun, hk, fun s => (hmem s).trans (hpaths s).symm⟩

theorem getElem?_of_run {word : List Nat} {j : Nat}
    (hrun : (a.toDfa alphabet).run 0 word = some j) :
    ∃ set, a.reachableSets[j]? = some set ∧ ∀ s, s ∈ set ↔ a.WordPath a.start word s := by
  rcases run_toDfa_cases hclosed hstart (getElem?_zero_reachableSets a) word with
    ⟨hnone, -⟩ | ⟨k, set, hrun', hk, hmem⟩
  · rw [hrun] at hnone
    simp at hnone
  · obtain rfl := Option.some.inj (hrun.symm.trans hrun')
    exact ⟨set, hk, fun s => (hmem s).trans exists_wordPath_closure_iff⟩

theorem exists_mem_of_mem_reachableSets (h : places ∈ a.reachableSets) : ∃ s, s ∈ places := by
  rcases Relation.ReflTransGen.cases_tail ((mem_reachableSets hclosed hstart).1 h) with
    rfl | ⟨before, -, hstep⟩
  · exact ⟨a.start, mem_closure.2 ⟨a.start, List.mem_singleton_self _, .refl⟩⟩
  · obtain ⟨⟨x, set⟩, hmove, rfl⟩ := List.mem_map.1 hstep
    obtain ⟨rfl, t, ht⟩ := mem_moves.1 hmove
    exact ⟨t, mem_closure.2 ⟨t, ht, .refl⟩⟩

theorem exists_run_iff (word : List Nat) :
    (∃ i, (a.toDfa alphabet).run 0 word = some i) ↔
      word = [] ∨ ∃ s, a.WordPath a.start word s := by
  constructor
  · rintro ⟨i, hrun⟩
    obtain ⟨set, hi, hset⟩ := getElem?_of_run hclosed hstart hrun
    obtain ⟨s, hs⟩ := exists_mem_of_mem_reachableSets hclosed hstart (List.mem_of_getElem? hi)
    exact Or.inr ⟨s, (hset s).1 hs⟩
  · rintro (rfl | ⟨s, hs⟩)
    · exact ⟨0, rfl⟩
    · obtain ⟨p, hp, hps⟩ := exists_wordPath_closure_iff.2 hs
      rcases run_toDfa_cases hclosed hstart (getElem?_zero_reachableSets a) word with
        ⟨-, hnone⟩ | ⟨j, set, hrun, -, -⟩
      · exact absurd hps (hnone p hp s)
      · exact ⟨j, hrun⟩

theorem exists_run_of_reaches {i j : Nat} {set : List Nat} (hi : a.reachableSets[i]? = some places)
    (hj : a.reachableSets[j]? = some set)
    (h : Exploration.Reaches (fun places => (a.moves places).map Prod.snd) places set) :
    ∃ word, (a.toDfa alphabet).run i word = some j := by
  induction h using Relation.ReflTransGen.head_induction_on generalizing i with
  | refl => exact ⟨[], by rw [getElem?_reachableSets_inj hi hj]; rfl⟩
  | head hstep _ ih =>
    obtain ⟨⟨x, next⟩, hmove, rfl⟩ := List.mem_map.1 hstep
    obtain ⟨word, hrun⟩ := ih (getElem?_number hclosed hstart (List.mem_of_getElem? hi) hmove)
    refine ⟨x :: word, ?_⟩
    rw [Dfa.run, (target?_toDfa_eq_some_iff hi).2 ⟨next, hmove, rfl⟩]
    exact hrun

theorem determinizedBy_toDfa : a.DeterminizedBy (a.toDfa alphabet) where
  start := rfl
  reachable := by
    intro i hi
    rw [size_toDfa] at hi
    have hset := List.getElem?_eq_getElem hi
    exact exists_run_of_reaches hclosed hstart (getElem?_zero_reachableSets a) hset
      ((mem_reachableSets hclosed hstart).1 (List.mem_of_getElem? hset))
  run_iff := exists_run_iff hclosed hstart
  token := by
    intro word i hrun
    obtain ⟨set, hset, hmem⟩ := getElem?_of_run hclosed hstart hrun
    refine ⟨_, token?_toDfa hset, (Label.isBest_best? _).congr fun l => ?_⟩
    simp only [List.mem_filterMap, hmem]
  same_iff := by
    intro v w i j hv hw
    obtain ⟨set, hi, hset⟩ := getElem?_of_run hclosed hstart hv
    obtain ⟨set', hj, hset'⟩ := getElem?_of_run hclosed hstart hw
    have hsame : set = set' ↔ ∀ s, s ∈ set ↔ s ∈ set' := by
      constructor
      · rintro rfl
        exact fun s => Iff.rfl
      · exact Ascending.eq_of_pairwise
          (closedSet_of_mem hclosed hstart (List.mem_of_getElem? hi)).pairwise
          (closedSet_of_mem hclosed hstart (List.mem_of_getElem? hj)).pairwise
    simp only [← hset, ← hset', ← hsame]
    constructor
    · rintro rfl
      exact Option.some.inj (hi.symm.trans hj)
    · rintro rfl
      exact getElem?_reachableSets_inj hi hj

end Contained

/-- In an arena that no edge leaves, the work list of sets ends with one set per state, and the
states are the sets of places that words lead to. -/
theorem toDfa_determinizes (a : Nfa) (alphabet : Alphabet) (hclosed : a.Closed (· < a.size))
    (hstart : a.start < a.size) :
    a.toDfaChecked alphabet = .ok (a.toDfa alphabet) ∧
      (∃ sets, Exploration.Drains (fun places => (a.moves places).map Prod.snd) []
          [a.closure [a.start]] sets ∧ (a.toDfa alphabet).size = sets.length) ∧
      a.DeterminizedBy (a.toDfa alphabet) :=
  ⟨toDfaChecked_eq hclosed hstart,
    ⟨a.reachableSets, drains_reachableSets hclosed hstart, size_toDfa a alphabet⟩,
    determinizedBy_toDfa hclosed hstart⟩

/-- A silent ring of two places that one symbol leaves for two labels of the same priority, another
symbol that leads back from one of them, and a place that no edge leads to. -/
def silentRing : Nfa where
  states := #[⟨[(0, 2)], [1], none⟩, ⟨[(0, 3)], [0], none⟩, ⟨[], [], some ⟨5, 1⟩⟩,
    ⟨[(1, 1)], [], some ⟨4, 1⟩⟩, ⟨[(0, 0)], [4], some ⟨0, 0⟩⟩]
  start := 0

/-- The state that the first symbol leads to has the smaller token, also after another round. -/
theorem toDfa_determinizes_silentRing :
    silentRing.Closed (· < silentRing.size) ∧ silentRing.start < silentRing.size ∧
      (silentRing.toDfa ⟨#[]⟩).run 0 [0] = some 1 ∧ (silentRing.toDfa ⟨#[]⟩).token? 1 = some 4 ∧
      (∀ s, silentRing.WordPath 0 [0] s ↔ silentRing.WordPath 0 [0, 1, 0] s) ∧
      ¬ ∃ s, silentRing.WordPath 0 [1] s := by
  have hclosed : silentRing.Closed (· < silentRing.size) := by
    change ∀ s < 5, ∀ t ∈ silentRing.successors s, t < 5
    decide
  obtain ⟨-, -, hd⟩ := toDfa_determinizes silentRing ⟨#[]⟩ hclosed (by decide)
  refine ⟨hclosed, by decide, by decide +kernel, by decide +kernel, ?_, fun hback => ?_⟩
  · refine (hd.same_iff (v := [0]) (w := [0, 1, 0]) (i := 1) (j := 1) ?_ ?_).1 rfl <;>
      decide +kernel
  · obtain ⟨i, hi⟩ := (hd.run_iff [1]).2 (Or.inr hback)
    have hnone : (silentRing.toDfa ⟨#[]⟩).run 0 [1] = none := by decide +kernel
    rw [hnone] at hi
    simp at hi

end SyntaxTables.Nfa
