import SyntaxTables.Dfa.Minimal
import SyntaxTables.Proofs.Dfa.Refinement
import SyntaxTables.Proofs.Exploration
import SyntaxTables.Proofs.Scan

/-!
# The minimal automaton scans alike

A state of the given automaton and the state of its block have the same label and, up to blocks, the
same edges, whichever state the block is drawn like. Only edges into the block of the dead state are
missing in the minimal automaton, and from there no label can be reached. So neither reading a whole
text nor cutting it into tokens can tell the two automata apart.
-/

namespace SyntaxTables.Dfa

/-- What is needed of a partition to merge its blocks: it divides the states and the dead one, and
states of one block have the same token and are led into one block by each symbol. -/
structure Stable (d : Dfa) (p : Partition) : Prop where
  divides : p.Divides (d.size + 1)
  token : ∀ q < d.size + 1, ∀ r < d.size + 1, p.Same q r → d.token? q = d.token? r
  next : ∀ q < d.size + 1, ∀ r < d.size + 1, p.Same q r → ∀ x < d.alphabet.size,
    p.Same (d.next q x) (d.next r x)

theorem stable_partition {d : Dfa} (h : d.WellFormed) : d.Stable d.partition := by
  obtain ⟨hdivides, hsame⟩ := partition_spec h
  exact ⟨hdivides, fun q hq r hr hqr => (hsame q hq r hr hqr).1,
    fun q hq r hr hqr => (hsame q hq r hr hqr).2⟩

variable {d : Dfa} {p : Partition}

theorem state_dead (d : Dfa) : d.state d.dead = {} := by
  simp [state, dead, size, Array.getD]

theorem next_dead (d : Dfa) (x : Nat) : d.next d.dead x = d.dead := by
  simp only [next, target?, state_dead]
  rfl

theorem token?_dead (d : Dfa) : d.token? d.dead = none := by
  simp only [token?, state_dead]

theorem target?_eq_some_iff_next (h : d.WellFormed) {q x t : Nat} :
    d.target? q x = some t ↔ d.next q x = t ∧ t ≠ d.dead := by
  constructor
  · intro ht
    exact ⟨by simp [next, ht], Nat.ne_of_lt (lt_of_target? h ht).2.2⟩
  · rintro ⟨rfl, hne⟩
    unfold next at hne ⊢
    cases ht : d.target? q x with
    | none => simp [ht] at hne
    | some t => rfl

theorem next_lt_size (h : d.WellFormed) {s x : Nat} (hx : ¬ p.Same (d.next s x) d.dead) :
    d.next s x < d.size := by
  have hlt := next_lt h s x
  have hne : d.next s x ≠ d.size := fun he => hx (congrArg p.block he)
  omega

theorem nodup_keys_blockEdges (d : Dfa) (p : Partition) (b : Nat) :
    ((d.blockEdges p b).map Prod.fst).Nodup := by
  have hdrawn : ((d.drawnEdges p b).map Prod.fst).Nodup := by
    unfold drawnEdges
    cases d.representative? p b with
    | none => exact List.nodup_nil
    | some q =>
      refine List.pairwise_map.2 ((d.state q).edges.ascending.imp ?_)
      exact fun hlt => Nat.ne_of_lt hlt
  have hsub := (List.filter_sublist (l := (d.drawnEdges p b).map fun e => (e.1, d.blockOf p e.2))
    (p := fun e => decide (e.2 ≠ d.blockOf p d.dead))).map Prod.fst
  rw [List.map_map] at hsub
  exact hsub.nodup hdrawn

theorem alphabet_merge (d : Dfa) (p : Partition) : (d.merge p).alphabet = d.alphabet := rfl

theorem size_merge (d : Dfa) (p : Partition) : (d.merge p).size = (d.reachableBlocks p).length := by
  simp [merge, size]

theorem state_merge {i b : Nat} (hi : (d.reachableBlocks p)[i]? = some b) :
    (d.merge p).state i =
      d.blockState p (Exploration.numbers (d.reachableBlocks p)) b := by
  simp [merge, state, Array.getD_eq_getD_getElem?, hi]

section Merge

variable (h : d.WellFormed) (hp : d.Stable p)

include hp in
theorem blockOf_eq_block {s : Nat} (hs : s < d.size + 1) : d.blockOf p s = p.block s := by
  simp [blockOf, Partition.block, Array.getD, hp.divides.size_blockOf, hs]

include hp in
theorem exists_representative {s : Nat} (hs : s < d.size) :
    ∃ q < d.size, d.representative? p (p.block s) = some q ∧ p.Same q s := by
  have hmem : s ∈ p.members (p.block s) :=
    (hp.divides.mem_members s _).2 ⟨Nat.lt_succ_of_lt hs, rfl⟩
  have hne : s ≠ d.dead := Nat.ne_of_lt hs
  cases hq : d.representative? p (p.block s) with
  | none =>
    rw [representative?, Array.find?_eq_none] at hq
    exact absurd (decide_eq_true hne) (hq s hmem)
  | some q =>
    have hqd : q ≠ d.dead := by simpa using Array.find?_some hq
    obtain ⟨hqn, hqb⟩ := (hp.divides.mem_members q _).1 (Array.mem_of_find?_eq_some hq)
    have hlt : q < d.size := by
      unfold dead at hqd
      omega
    exact ⟨q, hlt, rfl, hqb⟩

include h hp

/-- The edges of a state's block: wherever a symbol leads, unless it is into the dead block. -/
theorem mem_blockEdges {s x c : Nat} (hs : s < d.size) :
    (x, c) ∈ d.blockEdges p (p.block s) ↔
      x < d.alphabet.size ∧ c = p.block (d.next s x) ∧ c ≠ p.block d.dead := by
  obtain ⟨q, hq, hrep, hqs⟩ := exists_representative hp hs
  have hdead := blockOf_eq_block hp (Nat.lt_succ_self d.size)
  have hnext : ∀ y < d.alphabet.size, p.block (d.next q y) = p.block (d.next s y) :=
    hp.next q (Nat.lt_succ_of_lt hq) s (Nat.lt_succ_of_lt hs) hqs
  have hentry : ∀ t, (x, t) ∈ (d.state q).edges.entries ↔ d.target? q x = some t :=
    fun t => NatMap.get?_eq_some_iff.symm
  have hedges : d.drawnEdges p (p.block s) = (d.state q).edges.entries := by
    simp [drawnEdges, hrep]
  rw [blockEdges, hedges, List.mem_filter, List.mem_map]
  constructor
  · rintro ⟨⟨⟨y, t⟩, ht, he⟩, hc⟩
    obtain ⟨rfl, rfl⟩ := Prod.mk.inj he
    have htarget := (hentry t).1 ht
    obtain ⟨-, hy, htn⟩ := lt_of_target? h htarget
    have hqt := ((target?_eq_some_iff_next h).1 htarget).1
    rw [blockOf_eq_block hp (Nat.lt_succ_of_lt htn)] at hc ⊢
    refine ⟨hy, by rw [← hnext y hy, hqt], ?_⟩
    rw [show d.blockOf p d.dead = p.block d.dead from hdead] at hc
    simpa using hc
  · rintro ⟨hx, rfl, hc⟩
    have hqd : d.next q x ≠ d.dead := by
      intro hqd
      rw [← hnext x hx, hqd] at hc
      exact hc rfl
    refine ⟨⟨(x, d.next q x), (hentry _).2 ((target?_eq_some_iff_next h).2 ⟨rfl, hqd⟩), ?_⟩, ?_⟩
    · exact congrArg (Prod.mk x) ((blockOf_eq_block hp (next_lt h q x)).trans (hnext x hx))
    · rw [show d.blockOf p d.dead = p.block d.dead from hdead]
      simpa using hc

theorem exists_of_reaches {b : Nat}
    (hb : Exploration.Reaches (fun b => (d.blockEdges p b).map Prod.snd) (p.block d.start) b) :
    ∃ s < d.size, b = p.block s := by
  induction hb with
  | refl => exact ⟨d.start, h.start_lt, rfl⟩
  | tail _ hc ih =>
    obtain ⟨s, hs, rfl⟩ := ih
    obtain ⟨⟨x, c⟩, hxc, rfl⟩ := List.mem_map.1 hc
    obtain ⟨-, rfl, hne⟩ := (mem_blockEdges h hp hs).1 hxc
    exact ⟨d.next s x, next_lt_size h hne, rfl⟩

theorem mem_range_of_reaches : ∀ s ∈ [p.block d.start], ∀ b,
    Exploration.Reaches (fun b => (d.blockEdges p b).map Prod.snd) s b →
      (d.blockEdges p b).map Prod.snd ≠ [] → b ∈ List.range p.blocks.size := by
  intro s hs b hb _
  rw [List.mem_singleton.1 hs] at hb
  obtain ⟨t, ht, rfl⟩ := exists_of_reaches h hp hb
  exact List.mem_range.2 (hp.divides.block_lt (Nat.lt_succ_of_lt ht))

/-- More layers than there are blocks find no others. -/
theorem reachableBlocks_eq {layers : Nat} (hl : p.blocks.size ≤ layers) :
    d.reachableBlocks p = Exploration.breadthFirst (fun b => (d.blockEdges p b).map Prod.snd) layers
      [p.block d.start] := by
  rw [reachableBlocks, blockOf_eq_block hp (Nat.lt_succ_of_lt h.start_lt)]
  exact Exploration.breadthFirst_eq_of_length_le _ (mem_range_of_reaches h hp) (by simp) hl

theorem mem_reachableBlocks {b : Nat} :
    b ∈ d.reachableBlocks p ↔
      Exploration.Reaches (fun b => (d.blockEdges p b).map Prod.snd) (p.block d.start) b := by
  rw [reachableBlocks_eq h hp (Nat.le_refl _),
    Exploration.mem_breadthFirst_of_length_le _ (mem_range_of_reaches h hp) (by simp)]
  simp

/-- What a state and the state of its block have in common. -/
theorem merge_simulates {s i : Nat} (hs : s < d.size)
    (hi : (d.reachableBlocks p)[i]? = some (p.block s)) :
    (d.merge p).token? i = d.token? s ∧
      ∀ x,
        if x < d.alphabet.size ∧ ¬ p.Same (d.next s x) d.dead then
          ∃ j, (d.merge p).target? i x = some j ∧
            (d.reachableBlocks p)[j]? = some (p.block (d.next s x))
        else (d.merge p).target? i x = none := by
  obtain ⟨q, hq, hrep, hqs⟩ := exists_representative hp hs
  constructor
  · rw [token?, state_merge hi]
    simp only [blockState, hrep, Option.bind_some]
    exact hp.token q (Nat.lt_succ_of_lt hq) s (Nat.lt_succ_of_lt hs) hqs
  · intro x
    have hedge : ∀ j, (d.merge p).target? i x = some j ↔
        ∃ c, (x, c) ∈ d.blockEdges p (p.block s) ∧
          (Exploration.numbers (d.reachableBlocks p)).getD c 0 = j := by
      intro j
      rw [target?, state_merge hi, blockState, NatMap.get?_ofList, List.mem_map]
      · constructor
        · rintro ⟨⟨y, c⟩, hyc, he⟩
          obtain ⟨rfl, rfl⟩ := Prod.mk.inj he
          exact ⟨c, hyc, rfl⟩
        · rintro ⟨c, hc, rfl⟩
          exact ⟨(x, c), hc, rfl⟩
      · have hkeys := nodup_keys_blockEdges d p (p.block s)
        rwa [List.map_map]
    have hreach : Exploration.Reaches (fun b => (d.blockEdges p b).map Prod.snd)
        (p.block d.start) (p.block s) := (mem_reachableBlocks h hp).1 (List.mem_of_getElem? hi)
    split_ifs with hx
    · have hc := (mem_blockEdges h hp hs).2 ⟨hx.1, rfl, hx.2⟩
      refine ⟨_, (hedge _).2 ⟨_, hc, rfl⟩, Exploration.getElem?_numbers ?_ 0⟩
      exact (mem_reachableBlocks h hp).2 (hreach.tail (List.mem_map.2 ⟨_, hc, rfl⟩))
    · cases ht : (d.merge p).target? i x with
      | none => rfl
      | some j =>
        obtain ⟨c, hc, -⟩ := (hedge j).1 ht
        obtain ⟨hxk, rfl, hne⟩ := (mem_blockEdges h hp hs).1 hc
        exact absurd ⟨hxk, hne⟩ hx

end Merge

/-! ### Scanning -/

theorem tracks_merge (h : d.WellFormed) (hp : d.Stable p) :
    d.automaton.Tracks (d.merge p).automaton
      (fun s i => s < d.size ∧ (d.reachableBlocks p)[i]? = some (p.block s))
      (fun s => s < d.size ∧ p.Same s d.dead) := by
  have hdead : d.dead < d.size + 1 := Nat.lt_succ_self _
  have hmerged : ∀ {i b}, (d.reachableBlocks p)[i]? = some b → i < (d.merge p).size := by
    intro i b hi
    rw [size_merge]
    exact (List.getElem?_eq_some_iff.1 hi).1
  constructor
  · refine ⟨h.start_lt, ?_⟩
    change (d.reachableBlocks p)[0]? = some (p.block d.start)
    rw [← blockOf_eq_block hp (Nat.lt_succ_of_lt h.start_lt)]
    exact Exploration.getElem?_zero_breadthFirst _ _
  · rintro s i ⟨hs, hi⟩
    refine ⟨d.token? s, automaton_token hs, ?_⟩
    rw [automaton_token (hmerged hi), (merge_simulates h hp hs hi).1]
  · rintro s i ⟨hs, hi⟩ c
    rw [automaton_step hs, automaton_step (hmerged hi), alphabet_merge]
    cases d.alphabet.symbolOf? c.toNat with
    | none => exact Or.inr ⟨rfl, Or.inl rfl⟩
    | some x =>
      have hedge := (merge_simulates h hp hs hi).2 x
      simp only [Option.bind_some]
      cases ht : d.target? s x with
      | none =>
        have hnext : d.next s x = d.dead := by simp [next, ht]
        rw [if_neg (by simp [hnext, Partition.Same])] at hedge
        exact Or.inr ⟨by rw [hedge], Or.inl rfl⟩
      | some t =>
        obtain ⟨-, hx, htn⟩ := lt_of_target? h ht
        rw [((target?_eq_some_iff_next h).1 ht).1] at hedge
        split_ifs at hedge with hlive
        · obtain ⟨j, hj, hjb⟩ := hedge
          exact Or.inl ⟨t, j, rfl, by rw [hj], htn, hjb⟩
        · have hsame : p.Same t d.dead := by_contra fun hns => hlive ⟨hx, hns⟩
          exact Or.inr ⟨by rw [hedge], Or.inr ⟨t, rfl, htn, hsame⟩⟩
  · rintro s ⟨hs, hd⟩
    have htoken := hp.token s (Nat.lt_succ_of_lt hs) _ hdead hd
    rw [token?_dead] at htoken
    rw [automaton_token hs, htoken]
  · rintro s ⟨hs, hd⟩ c
    rw [automaton_step hs]
    cases hx : d.alphabet.symbolOf? c.toNat with
    | none => exact Or.inl rfl
    | some x =>
      cases ht : d.target? s x with
      | none => exact Or.inl (by simp [ht])
      | some t =>
        obtain ⟨-, hxk, htn⟩ := lt_of_target? h ht
        have hnext := hp.next s (Nat.lt_succ_of_lt hs) d.dead hdead hd x hxk
        rw [((target?_eq_some_iff_next h).1 ht).1, next_dead] at hnext
        exact Or.inr ⟨t, by simp [ht], htn, hnext⟩

theorem minimize_eq_merge (h : d.WellFormed) : d.minimize = d.merge d.partition := by
  have hpos : d.size ≠ 0 := by
    have := h.start_lt
    omega
  rw [minimize, if_neg hpos]

theorem tracks_minimize (h : d.WellFormed) :
    d.automaton.Tracks d.minimize.automaton
      (fun s i => s < d.size ∧
        (d.reachableBlocks d.partition)[i]? = some (d.partition.block s))
      (fun s => s < d.size ∧ d.partition.Same s d.dead) := by
  rw [minimize_eq_merge h]
  exact tracks_merge h (stable_partition h)

theorem strayTarget?_eq_none (h : d.WellFormed) : d.strayTarget? = none := by
  rw [strayTarget?, List.findSome?_eq_none_iff]
  intro q hq
  rw [Option.map_eq_none_iff, List.find?_eq_none]
  rintro ⟨x, t⟩ he
  obtain ⟨hx, ht⟩ := h.edge_lt q (by simpa using hq) _ he
  have hslot := slot_lt hx (Nat.lt_succ_of_lt ht)
  simp only [Bool.and_eq_true, decide_eq_true_eq, not_and, Nat.not_le]
  exact fun _ => hslot

theorem minimizeChecked_of_wellFormed (h : d.WellFormed) :
    d.minimizeChecked = .ok d.minimize := by
  have hpos : d.size ≠ 0 := by
    have := h.start_lt
    omega
  have hstart : ¬ d.dead < d.start := Nat.not_lt.2 (Nat.le_of_lt h.start_lt)
  have hdrawn : ((d.reachableBlocks d.partition).flatMap (d.drawnEdges d.partition)).find?
      (fun e => d.dead < e.2) = none := by
    rw [List.find?_eq_none]
    intro e he
    obtain ⟨b, -, heb⟩ := List.mem_flatMap.1 he
    unfold drawnEdges at heb
    cases hrep : d.representative? d.partition b with
    | none => simp [hrep] at heb
    | some q =>
      have htarget : d.target? q e.1 = some e.2 :=
        NatMap.get?_eq_some_iff.2 (by simpa [hrep] using heb)
      have hlt := (lt_of_target? h htarget).2.2
      intro hdead
      exact absurd (of_decide_eq_true hdead) (Nat.not_lt.2 (Nat.le_of_lt hlt))
  simp only [minimizeChecked, minimize, if_neg hpos, if_neg hstart, strayTarget?_eq_none h, hdrawn]

/-- Reading a text as one token, matching its longest beginning and cutting it into tokens end alike
on a well-formed automaton and on its minimal one, and none of them is a fault. -/
theorem minimize_indistinguishable (h : d.WellFormed) (skip : Nat → Bool) (text : List Char) :
    d.minimizeChecked = .ok d.minimize ∧
      (∃ k, d.automaton.wholeMatch text = .ok k ∧ d.minimize.automaton.wholeMatch text = .ok k) ∧
      (∃ m, d.automaton.longestMatch text = .ok m ∧
        d.minimize.automaton.longestMatch text = .ok m) ∧
      d.minimize.automaton.scan skip text = d.automaton.scan skip text ∧
      ∀ f, d.automaton.scan skip text ≠ .error (.fault f) := by
  have htracks := tracks_minimize h
  exact ⟨minimizeChecked_of_wellFormed h, htracks.wholeMatch_eq text,
    htracks.longestMatch_eq text, htracks.scan_eq skip text⟩

/-- Texts of an odd number of the letter `a`, counted up to four. -/
def oddLetters : Dfa where
  alphabet := ⟨#[.ofChar 'a']⟩
  states := #[⟨⟨[(0, 1)], by simp⟩, none⟩, ⟨⟨[(0, 2)], by simp⟩, some 7⟩,
    ⟨⟨[(0, 3)], by simp⟩, none⟩, ⟨⟨[(0, 0)], by simp⟩, some 7⟩]
  start := 0

theorem minimize_indistinguishable_oddLetters :
    oddLetters.WellFormed ∧
      oddLetters.minimize.automaton.scan (fun _ => false) ['a', 'a', 'a', 'b'] =
        oddLetters.automaton.scan (fun _ => false) ['a', 'a', 'a', 'b'] := by
  have h : oddLetters.WellFormed := ⟨by decide, by decide⟩
  exact ⟨h, (minimize_indistinguishable h (fun _ => false) ['a', 'a', 'a', 'b']).2.2.2.1⟩

end SyntaxTables.Dfa
