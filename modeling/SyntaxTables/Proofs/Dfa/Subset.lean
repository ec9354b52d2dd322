import SyntaxTables.Dfa.Subset
import SyntaxTables.Proofs.Nfa.Tokens
import SyntaxTables.Proofs.Scan

/-!
# The subset construction

The state that a text leads to stands for the set of places that paths along the text lead to, so
its token is the best one among the labels of these places. All sets are ascending lists of places,
of which there are few enough for the bound on the search.
-/

namespace SyntaxTables

namespace Label

def IsBest (labels : Label → Prop) : Option Label → Prop
  | none => ∀ l, ¬ labels l
  | some l => labels l ∧ ∀ l', labels l' → preferred l' l = false

theorem preferred_self (l : Label) : preferred l l = false := by simp [preferred]

theorem preferred_asymm {l m : Label} (h : preferred l m = true) : preferred m l = false := by
  simp only [preferred, Bool.or_eq_true, Bool.and_eq_true, decide_eq_true_eq, beq_iff_eq,
    Bool.or_eq_false_iff, Bool.and_eq_false_iff, decide_eq_false_iff_not, beq_eq_false_iff_ne] at *
  omega

theorem preferred_trans {l m n : Label} (h : preferred l m = false) (h' : preferred m n = false) :
    preferred l n = false := by
  simp only [preferred, Bool.or_eq_false_iff, Bool.and_eq_false_iff, decide_eq_false_iff_not,
    beq_eq_false_iff_ne] at *
  omega

theorem isBest_best? (labels : List Label) : IsBest (· ∈ labels) (best? labels) := by
  induction labels with
  | nil => simp [best?, IsBest]
  | cons l labels ih =>
    rw [best?]
    cases hm : best? labels with
    | none =>
      rw [hm] at ih
      refine ⟨List.mem_cons_self, List.forall_mem_cons.2 ⟨preferred_self l, ?_⟩⟩
      exact fun l' hl' => absurd hl' (ih l')
    | some m =>
      rw [hm] at ih
      obtain ⟨hmem, hbest⟩ := ih
      simp only
      split_ifs with hml
      · exact ⟨List.mem_cons_of_mem l hmem,
          List.forall_mem_cons.2 ⟨preferred_asymm hml, hbest⟩⟩
      · refine ⟨List.mem_cons_self, List.forall_mem_cons.2 ⟨preferred_self l, ?_⟩⟩
        exact fun l' hl' => preferred_trans (hbest l' hl') (by simpa using hml)

theorem IsBest.congr {labels labels' : Label → Prop} {best : Option Label}
    (h : IsBest labels best) (hlabels : ∀ l, labels l ↔ labels' l) : IsBest labels' best := by
  obtain rfl : labels = labels' := funext fun l => propext (hlabels l)
  exact h

end Label

namespace Nfa

variable {alphabet : Alphabet} {a : Nfa} {places : List Nat}

/-! ### The sets -/

def targets (a : Nfa) (places : List Nat) (x : Nat) : List Nat :=
  ((places.flatMap fun s => (a.state s).edges).filter fun e => e.1 = x).map Prod.snd

theorem mem_targets {x t : Nat} :
    t ∈ a.targets places x ↔ ∃ s ∈ places, (x, t) ∈ (a.state s).edges := by
  simp [targets, and_comm]

theorem mem_moves {x : Nat} {set : List Nat} :
    (x, set) ∈ a.moves places ↔
      set = a.closure (a.targets places x) ∧ ∃ t, t ∈ a.targets places x := by
  have hsome : (∃ t, t ∈ a.targets places x) ↔
      ∃ e ∈ places.flatMap fun s => (a.state s).edges, e.1 = x := by
    simp [targets]
  rw [hsome, moves, List.mem_map]
  constructor
  · rintro ⟨⟨y, ts⟩, hg, he⟩
    obtain ⟨rfl, rfl⟩ := Prod.mk.inj he
    obtain ⟨rfl, hex⟩ := Ascending.mem_groups.1 hg
    exact ⟨rfl, hex⟩
  · rintro ⟨rfl, hex⟩
    exact ⟨_, Ascending.mem_groups.2 ⟨rfl, hex⟩, rfl⟩

theorem nodup_keys_moves : ((a.moves places).map Prod.fst).Nodup := by
  have hkeys := Ascending.nodup_keys_groups (places.flatMap fun s => (a.state s).edges)
  rwa [moves, List.map_map]

def ClosedSet (a : Nfa) (places : List Nat) : Prop :=
  ∃ seeds : List Nat, (∀ s ∈ seeds, s < a.size) ∧ places = a.closure seeds

theorem ClosedSet.silent_mem (h : a.ClosedSet places) {s t : Nat} (hs : s ∈ places)
    (ht : t ∈ (a.state s).silent) : t ∈ places := by
  obtain ⟨seeds, -, rfl⟩ := h
  rw [mem_closure] at hs ⊢
  obtain ⟨r, hr, hrs⟩ := hs
  exact ⟨r, hr, hrs.tail ht⟩

theorem ClosedSet.mem_of_path (h : a.ClosedSet places) {α : Type} {reads : α → Nat → Prop}
    {p s : Nat} (hp : p ∈ places) (hps : a.Path reads p [] s) : s ∈ places := by
  rw [path_nil_iff] at hps
  induction hps with
  | refl => exact hp
  | tail _ hst ih => exact h.silent_mem ih hst

/-- After a first letter, the paths from a set go on from the set that the letter leads to. -/
theorem ClosedSet.path_cons_iff (h : a.ClosedSet places) {α : Type} {reads : α → Nat → Prop}
    {c : α} {w : List α} {s x : Nat} (hx : ∀ y, reads c y ↔ y = x) :
    (∃ p ∈ places, a.Path reads p (c :: w) s) ↔
      ∃ q ∈ a.closure (a.targets places x), a.Path reads q w s := by
  constructor
  · rintro ⟨p, hp, hps⟩
    obtain ⟨q, y, r, hpq, hqr, hread, hrs⟩ := hps.of_cons
    obtain rfl := (hx y).1 hread
    refine ⟨r, mem_closure.2 ⟨r, ?_, .refl⟩, hrs⟩
    exact mem_targets.2 ⟨q, h.mem_of_path hp hpq, hqr⟩
  · rintro ⟨q, hq, hqs⟩
    obtain ⟨r, hr, hrq⟩ := mem_closure.1 hq
    obtain ⟨p, hp, hpr⟩ := mem_targets.1 hr
    exact ⟨p, hp, .edge hpr ((hx x).2 rfl) ((path_nil_iff.2 hrq).trans hqs)⟩

theorem length_subsets_range_le (a : Nfa) :
    (Ascending.subsets (List.range a.size)).length ≤ Nat.pow 2 a.size := by
  have hle := Ascending.length_subsets_le (List.range a.size)
  rwa [List.length_range] at hle

section Contained

variable (hclosed : a.Closed (· < a.size))

include hclosed

theorem ClosedSet.mem_lt (h : a.ClosedSet places) : ∀ s ∈ places, s < a.size := by
  obtain ⟨seeds, hseeds, rfl⟩ := h
  intro s hs
  obtain ⟨r, hr, hrs⟩ := mem_closure.1 hs
  induction hrs with
  | refl => exact hseeds r hr
  | tail _ hst ih =>
    exact hclosed _ (ih (mem_closure.2 ⟨r, hr, ‹_›⟩)) _ (mem_successors.2 (Or.inr hst))

theorem ClosedSet.mem_subsets (h : a.ClosedSet places) :
    places ∈ Ascending.subsets (List.range a.size) := by
  have hlt := h.mem_lt hclosed
  obtain ⟨seeds, -, rfl⟩ := h
  apply Ascending.mem_subsets (Ascending.pairwise_ofList _)
  intro s hs
  exact List.mem_range.2 (hlt s hs)

theorem ClosedSet.move (h : a.ClosedSet places) {x : Nat} {set : List Nat}
    (hset : (x, set) ∈ a.moves places) : a.ClosedSet set := by
  obtain ⟨rfl, -⟩ := mem_moves.1 hset
  refine ⟨_, fun t ht => ?_, rfl⟩
  obtain ⟨s, hs, hst⟩ := mem_targets.1 ht
  exact hclosed s (h.mem_lt hclosed s hs) t (mem_successors.2 (Or.inl ⟨x, hst⟩))

variable (hstart : a.start < a.size)

include hstart

theorem closedSet_of_reaches
    (h : Exploration.Reaches (fun places => (a.moves places).map Prod.snd) (a.closure [a.start])
      places) : a.ClosedSet places := by
  induction h with
  | refl => exact ⟨[a.start], by simpa using hstart, rfl⟩
  | tail _ hset ih =>
    obtain ⟨⟨x, set⟩, hmove, rfl⟩ := List.mem_map.1 hset
    exact ih.move hclosed hmove

theorem mem_subsets_of_reaches {seed : List Nat} (hseed : seed ∈ [a.closure [a.start]])
    (h : Exploration.Reaches (fun places => (a.moves places).map Prod.snd) seed places) :
    places ∈ Ascending.subsets (List.range a.size) := by
  rw [List.mem_singleton.1 hseed] at h
  exact (closedSet_of_reaches hclosed hstart h).mem_subsets hclosed

theorem mem_reachableSets :
    places ∈ a.reachableSets ↔
      Exploration.Reaches (fun places => (a.moves places).map Prod.snd) (a.closure [a.start])
        places := by
  unfold reachableSets
  rw [Exploration.mem_breadthFirst_of_length_le _
    (fun seed hseed set hset _ => mem_subsets_of_reaches hclosed hstart hseed hset)
    (length_subsets_range_le a)]
  simp

theorem closedSet_of_mem (h : places ∈ a.reachableSets) : a.ClosedSet places :=
  closedSet_of_reaches hclosed hstart ((mem_reachableSets hclosed hstart).1 h)

theorem move_mem_reachableSets {x : Nat} {set : List Nat} (h : places ∈ a.reachableSets)
    (hset : (x, set) ∈ a.moves places) : set ∈ a.reachableSets := by
  rw [mem_reachableSets hclosed hstart] at h ⊢
  exact h.tail (List.mem_map.2 ⟨_, hset, rfl⟩)

end Contained

/-! ### The states of the sets -/

theorem getElem?_zero_reachableSets (a : Nfa) :
    a.reachableSets[0]? = some (a.closure [a.start]) :=
  Exploration.getElem?_zero_breadthFirst _ _

theorem alphabet_toDfa (a : Nfa) (alphabet : Alphabet) :
    (a.toDfa alphabet).alphabet = alphabet := rfl

theorem size_toDfa (a : Nfa) (alphabet : Alphabet) :
    (a.toDfa alphabet).size = a.reachableSets.length := by simp [toDfa, Dfa.size]

theorem state_toDfa {i : Nat} (hi : a.reachableSets[i]? = some places) :
    (a.toDfa alphabet).state i =
      a.subsetState (Exploration.numbers a.reachableSets) places := by
  simp [toDfa, Dfa.state, Array.getD_eq_getD_getElem?, hi]

theorem token?_toDfa {i : Nat} (hi : a.reachableSets[i]? = some places) :
    (a.toDfa alphabet).token? i =
      (Label.best? (places.filterMap fun s => (a.state s).label)).map Label.token := by
  rw [Dfa.token?, state_toDfa hi]
  rfl

theorem target?_toDfa_eq_some_iff {i : Nat} (hi : a.reachableSets[i]? = some places) {x j : Nat} :
    (a.toDfa alphabet).target? i x = some j ↔
      ∃ set, (x, set) ∈ a.moves places ∧ (Exploration.numbers a.reachableSets).getD set 0 = j := by
  rw [Dfa.target?, state_toDfa hi, subsetState, NatMap.get?_ofList, List.mem_map]
  · constructor
    · rintro ⟨⟨y, set⟩, hset, he⟩
      obtain ⟨rfl, rfl⟩ := Prod.mk.inj he
      exact ⟨set, hset, rfl⟩
    · rintro ⟨set, hset, rfl⟩
      exact ⟨(x, set), hset, rfl⟩
  · have hkeys : ((a.moves places).map Prod.fst).Nodup := nodup_keys_moves
    rwa [List.map_map]

section Contained

variable (hclosed : a.Closed (· < a.size)) (hstart : a.start < a.size)

include hclosed hstart

theorem getElem?_number {set : List Nat} {x : Nat} (h : places ∈ a.reachableSets)
    (hset : (x, set) ∈ a.moves places) :
    a.reachableSets[(Exploration.numbers a.reachableSets).getD set 0]? = some set :=
  Exploration.getElem?_numbers (move_mem_reachableSets hclosed hstart h hset) 0

theorem wellFormed_toDfa (hsymbols : ∀ s, ∀ e ∈ (a.state s).edges, e.1 < alphabet.size) :
    (a.toDfa alphabet).WellFormed := by
  constructor
  · rw [size_toDfa]
    exact (List.getElem?_eq_some_iff.1 (getElem?_zero_reachableSets a)).1
  · intro q hq e he
    obtain ⟨places, hplaces, rfl⟩ : ∃ places ∈ a.reachableSets,
        a.subsetState (Exploration.numbers a.reachableSets) places = q := by
      simpa [toDfa] using hq
    obtain ⟨i, hi⟩ := List.mem_iff_getElem?.1 hplaces
    have htarget : (a.toDfa alphabet).target? i e.1 = some e.2 := by
      rw [Dfa.target?, state_toDfa hi]
      exact NatMap.get?_eq_some_iff.2 he
    obtain ⟨set, hset, hnumber⟩ := (target?_toDfa_eq_some_iff hi).1 htarget
    have hnext := getElem?_number hclosed hstart hplaces hset
    rw [hnumber] at hnext
    obtain ⟨-, t, ht⟩ := mem_moves.1 hset
    obtain ⟨s, -, hst⟩ := mem_targets.1 ht
    exact ⟨hsymbols s (e.1, t) hst, by
      rw [size_toDfa]
      exact (List.getElem?_eq_some_iff.1 hnext).1⟩

/-- A symbol leads to the closure of the places it leads to, if there are any. -/
theorem target?_toDfa_cases {i : Nat} (hi : a.reachableSets[i]? = some places) (x : Nat) :
    ((a.toDfa alphabet).target? i x = none ∧ ∀ t, t ∉ a.targets places x) ∨
      ∃ j, (a.toDfa alphabet).target? i x = some j ∧
        a.reachableSets[j]? = some (a.closure (a.targets places x)) := by
  have hplaces := List.mem_of_getElem? hi
  cases ht : (a.toDfa alphabet).target? i x with
  | none =>
    refine Or.inl ⟨rfl, fun t htargets => ?_⟩
    have hsome : (a.toDfa alphabet).target? i x = some _ :=
      (target?_toDfa_eq_some_iff hi).2 ⟨_, mem_moves.2 ⟨rfl, t, htargets⟩, rfl⟩
    rw [ht] at hsome
    simp at hsome
  | some j =>
    obtain ⟨set, hmove, rfl⟩ := (target?_toDfa_eq_some_iff hi).1 ht
    have hnext := getElem?_number hclosed hstart hplaces hmove
    obtain ⟨rfl, -⟩ := mem_moves.1 hmove
    exact Or.inr ⟨_, rfl, hnext⟩

/-- From the state of a set, a text leads to the best label that paths from the set lead to. -/
theorem tokenFrom_toDfa {i : Nat} (hi : a.reachableSets[i]? = some places) (text : List Char) :
    ∃ best, (a.toDfa alphabet).automaton.tokenFrom i text = .ok (best.map Label.token) ∧
      Label.IsBest (fun l => ∃ s, (∃ p ∈ places,
        a.Path alphabet.Reads p (text.map Char.toNat) s) ∧ (a.state s).label = some l) best := by
  have hlt : i < (a.toDfa alphabet).size := by
    rw [size_toDfa]
    exact (List.getElem?_eq_some_iff.1 hi).1
  have hset := closedSet_of_mem hclosed hstart (List.mem_of_getElem? hi)
  induction text generalizing i places with
  | nil =>
    refine ⟨_, (Dfa.automaton_token hlt).trans (congrArg Except.ok (token?_toDfa hi)), ?_⟩
    refine (Label.isBest_best? _).congr fun l => ?_
    rw [List.mem_filterMap]
    constructor
    · rintro ⟨s, hs, hl⟩
      exact ⟨s, ⟨s, hs, .nil s⟩, hl⟩
    · rintro ⟨s, ⟨p, hp, hps⟩, hl⟩
      exact ⟨s, hset.mem_of_path hp hps, hl⟩
  | cons c text ih =>
    rw [Dfa.tokenFrom_cons hlt, alphabet_toDfa, List.map_cons]
    cases hx : alphabet.symbolOf? c.toNat with
    | none =>
      refine ⟨none, rfl, ?_⟩
      rintro l ⟨s, ⟨p, -, hps⟩, -⟩
      obtain ⟨q, x, r, -, -, hread, -⟩ := hps.of_cons
      rw [Alphabet.Reads, hx] at hread
      simp at hread
    | some x =>
      have hreads : ∀ y, alphabet.Reads c.toNat y ↔ y = x := by
        intro y
        rw [Alphabet.Reads, hx, Option.some.injEq, eq_comm]
      rw [Option.bind_some]
      simp only [hset.path_cons_iff hreads]
      rcases target?_toDfa_cases hclosed hstart hi x with ⟨ht, hnone⟩ | ⟨j, ht, hj⟩
      · refine ⟨none, by rw [ht]; rfl, ?_⟩
        rintro l ⟨s, ⟨q, hq, -⟩, -⟩
        obtain ⟨t, htargets, -⟩ := mem_closure.1 hq
        exact hnone t htargets
      · rw [ht]
        exact ih hj (by rw [size_toDfa]; exact (List.getElem?_eq_some_iff.1 hj).1)
          (closedSet_of_mem hclosed hstart (List.mem_of_getElem? hj))

theorem wholeMatch_toDfa (text : List Char) :
    ∃ best, (a.toDfa alphabet).automaton.wholeMatch text = .ok (best.map Label.token) ∧
      Label.IsBest (Accepts alphabet a (text.map Char.toNat)) best := by
  obtain ⟨best, hrun, hbest⟩ :=
    tokenFrom_toDfa hclosed hstart (getElem?_zero_reachableSets a) text
  refine ⟨best, hrun, hbest.congr fun l => ?_⟩
  constructor
  · rintro ⟨s, ⟨p, hp, hps⟩, hl⟩
    obtain ⟨r, hr, hrp⟩ := mem_closure.1 hp
    rw [List.mem_singleton.1 hr] at hrp
    exact ⟨s, (path_nil_iff.2 hrp).trans hps, hl⟩
  · rintro ⟨s, hps, hl⟩
    exact ⟨s, ⟨a.start, mem_closure.2 ⟨a.start, List.mem_singleton_self _, .refl⟩, hps⟩, hl⟩

end Contained

end Nfa

end SyntaxTables
