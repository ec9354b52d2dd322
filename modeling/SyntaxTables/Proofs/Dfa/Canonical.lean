import SyntaxTables.Proofs.Dfa.Coarsest

/-!
# The canonical automaton

The states of the result are the classes of alike states that some word reaches and from which some
word has a token, the start's class excepted. What the words tell of a state does not depend on the
automaton it belongs to, so the classes of two automata that give all words the same tokens
correspond to each other one to one. The edges of a class go to corresponding classes by the same
symbols, and the search takes them by ascending symbols, so it comes upon corresponding classes in
the same order. This makes the two results equal.
-/

namespace SyntaxTables.Dfa

variable {d e : Dfa} {p : Partition}

/-- An automaton is determined by the tokens and the targets of its states. -/
theorem eq_of_target?_eq (hk : d.alphabet = e.alphabet) (hs : d.start = e.start)
    (hn : d.size = e.size)
    (h : ∀ i < d.size, d.token? i = e.token? i ∧ ∀ x, d.target? i x = e.target? i x) : d = e := by
  have hstate : ∀ i < d.size, d.state i = e.state i := by
    intro i hi
    obtain ⟨htoken, htargets⟩ := h i hi
    have hedges : (d.state i).edges = (e.state i).edges := NatMap.ext_get? htargets
    exact congrArg₂ DfaState.mk hedges htoken
  obtain ⟨alphabet, states, start⟩ := d
  obtain ⟨alphabet', states', start'⟩ := e
  obtain rfl : alphabet = alphabet' := hk
  obtain rfl : start = start' := hs
  suffices states = states' by rw [this]
  refine Array.ext hn fun i hi hi' => ?_
  simpa [state, Array.getD, hi, hi'] using hstate i hi

theorem WellFormed.of_target? (hs : d.start < d.size)
    (h : ∀ s x t, d.target? s x = some t → x < d.alphabet.size ∧ t < d.size) : d.WellFormed := by
  refine ⟨hs, fun q hq (x, t) he => ?_⟩
  obtain ⟨s, hs, rfl⟩ := Array.mem_iff_getElem.1 hq
  apply h s
  rw [target?, state, Array.getD_eq_getD_getElem?, Array.getElem?_eq_getElem hs]
  exact NatMap.get?_eq_some_iff.2 he

theorem run_append (d : Dfa) (s : Nat) (v w : List Nat) :
    d.run s (v ++ w) = (d.run s v).bind fun t => d.run t w := by
  induction v generalizing s with
  | nil => rfl
  | cons x v ih =>
    rw [List.cons_append, run, run]
    cases d.target? s x with
    | none => rfl
    | some t => exact ih t

/-! ### The states of the result -/

theorem getElem?_reachableBlocks_inj {i j b : Nat} (hi : (d.reachableBlocks p)[i]? = some b)
    (hj : (d.reachableBlocks p)[j]? = some b) : i = j :=
  (List.getElem?_inj (List.getElem?_eq_some_iff.1 hi).1 (Exploration.nodup_breadthFirst _ _)).1
    (hi.trans hj.symm)

/-- No state is superfluous: words tell each two apart and reach every one from the first, and some
word has a token from every one but the first. -/
structure Minimal (m : Dfa) : Prop where
  start_eq : m.start = 0
  told_apart : ∀ q < m.size, ∀ r < m.size, q ≠ r → ∃ word, m.tokenAlong q word ≠ m.tokenAlong r word
  reached : ∀ q < m.size, ∃ word, m.run 0 word = some q
  live : ∀ q < m.size, q ≠ 0 → ∃ word k, m.tokenAlong q word = some k

section Merge

variable (h : d.WellFormed) (hp : d.Stable p)

include h hp

theorem tokenAlong_merge {s i : Nat} (hs : s < d.size)
    (hi : (d.reachableBlocks p)[i]? = some (p.block s)) (word : List Nat) :
    (d.merge p).tokenAlong i word = d.tokenAlong s word := by
  induction word generalizing s i with
  | nil => exact (merge_simulates h hp hs hi).1
  | cons x word ih =>
    have hedge := (merge_simulates h hp hs hi).2 x
    rw [tokenAlong_cons, tokenAlong_cons]
    split_ifs at hedge with hx
    · obtain ⟨j, hj, hjb⟩ := hedge
      have hnext : (d.merge p).next i x = j := by simp [next, hj]
      rw [hnext]
      exact ih (next_lt_size h hx.2) hjb
    · have hnext : (d.merge p).next i x = (d.merge p).dead := by simp [next, hedge]
      rw [hnext, tokenAlong_dead]
      by_cases hxk : x < d.alphabet.size
      · have hsame : p.Same (d.next s x) d.dead := by_contra fun hns => hx ⟨hxk, hns⟩
        have halike := hp.alike h (next_lt h s x) (dead_lt d) hsame word
        rw [halike, tokenAlong_dead]
      · rw [next_eq_dead h hxk, tokenAlong_dead]

theorem getElem?_zero_reachableBlocks : (d.reachableBlocks p)[0]? = some (p.block d.start) := by
  rw [← blockOf_eq_block hp (Nat.lt_succ_of_lt h.start_lt)]
  exact Exploration.getElem?_zero_breadthFirst _ _

theorem exists_block_of_lt {i : Nat} (hi : i < (d.merge p).size) :
    ∃ s < d.size, (d.reachableBlocks p)[i]? = some (p.block s) := by
  rw [size_merge] at hi
  obtain ⟨s, hs, hb⟩ := exists_of_reaches h hp
    ((mem_reachableBlocks h hp).1 (List.getElem_mem hi))
  exact ⟨s, hs, by rw [List.getElem?_eq_getElem hi, hb]⟩

theorem lt_of_target?_merge {i x j : Nat} (hj : (d.merge p).target? i x = some j) :
    x < d.alphabet.size ∧ j < (d.merge p).size := by
  have hi : i < (d.merge p).size := by
    by_contra hlt
    rw [target?, state, Array.getD_eq_getD_getElem?,
      Array.getElem?_eq_none (Nat.le_of_not_lt hlt)] at hj
    simp [NatMap.get?, NatMap.findEntry, EmptyCollection.emptyCollection, NatMap.empty] at hj
  obtain ⟨s, hs, hib⟩ := exists_block_of_lt h hp hi
  have hedge := (merge_simulates h hp hs hib).2 x
  split_ifs at hedge with hx
  · obtain ⟨j', hj', hjb⟩ := hedge
    obtain rfl : j' = j := Option.some.inj (hj'.symm.trans hj)
    rw [size_merge]
    exact ⟨hx.1, (List.getElem?_eq_some_iff.1 hjb).1⟩
  · simp [hj] at hedge

theorem wellFormed_merge : (d.merge p).WellFormed := by
  apply WellFormed.of_target?
  · rw [size_merge]
    exact (List.getElem?_eq_some_iff.1 (getElem?_zero_reachableBlocks h hp)).1
  · exact fun i x j hj => lt_of_target?_merge h hp hj

theorem tokenOfWord_merge (word : List Nat) : (d.merge p).tokenOfWord word = d.tokenOfWord word :=
  tokenAlong_merge h hp h.start_lt (getElem?_zero_reachableBlocks h hp) word

theorem exists_run_merge {b : Nat}
    (hb : Exploration.Reaches (fun b => (d.blockEdges p b).map Prod.snd) (p.block d.start) b) :
    ∃ word i, (d.merge p).run 0 word = some i ∧ (d.reachableBlocks p)[i]? = some b := by
  induction hb with
  | refl => exact ⟨[], 0, rfl, getElem?_zero_reachableBlocks h hp⟩
  | tail hb hc ih =>
    obtain ⟨word, i, hrun, hi⟩ := ih
    obtain ⟨s, hs, rfl⟩ := exists_of_reaches h hp hb
    obtain ⟨⟨x, c⟩, hxc, rfl⟩ := List.mem_map.1 hc
    obtain ⟨hx, rfl, hne⟩ := (mem_blockEdges h hp hs).1 hxc
    have hedge := (merge_simulates h hp hs hi).2 x
    rw [if_pos ⟨hx, hne⟩] at hedge
    obtain ⟨j, hj, hjb⟩ := hedge
    refine ⟨word ++ [x], j, ?_, hjb⟩
    simp [run_append, hrun, run, hj]

end Merge

theorem minimal_minimize (h : d.WellFormed) : d.minimize.Minimal := by
  have hp := stable_partition h
  rw [minimize_eq_merge h]
  constructor
  · rfl
  · intro i hi j hj hij
    obtain ⟨s, hs, hib⟩ := exists_block_of_lt h hp hi
    obtain ⟨t, ht, hjb⟩ := exists_block_of_lt h hp hj
    have hnot : ¬ d.Alike s t := by
      rw [← same_partition_iff h (Nat.lt_succ_of_lt hs) (Nat.lt_succ_of_lt ht)]
      intro hst
      rw [← show d.partition.block s = d.partition.block t from hst] at hjb
      exact hij (getElem?_reachableBlocks_inj hib hjb)
    obtain ⟨word, hword⟩ := not_forall.1 hnot
    refine ⟨word, ?_⟩
    rwa [tokenAlong_merge h hp hs hib, tokenAlong_merge h hp ht hjb]
  · intro i hi
    obtain ⟨s, -, hib⟩ := exists_block_of_lt h hp hi
    obtain ⟨word, j, hrun, hjb⟩ :=
      exists_run_merge h hp ((mem_reachableBlocks h hp).1 (List.mem_of_getElem? hib))
    exact ⟨word, by rw [hrun, getElem?_reachableBlocks_inj hjb hib]⟩
  · intro i hi hi0
    obtain ⟨s, hs, hib⟩ := exists_block_of_lt h hp hi
    have hreach := (mem_reachableBlocks h hp).1 (List.mem_of_getElem? hib)
    -- a block that is not the start's is found as a target, and no edge leads into the dead block
    rcases hreach.cases_tail with hstart | ⟨b, hb, hc⟩
    · rw [hstart] at hib
      exact absurd (getElem?_reachableBlocks_inj hib (getElem?_zero_reachableBlocks h hp)) hi0
    · obtain ⟨t, ht, rfl⟩ := exists_of_reaches h hp hb
      obtain ⟨⟨x, c⟩, hxc, hcs⟩ := List.mem_map.1 hc
      obtain ⟨-, -, hne⟩ := (mem_blockEdges h hp ht).1 hxc
      have hnot : ¬ d.Alike s d.dead := by
        rw [← same_partition_iff h (Nat.lt_succ_of_lt hs) (dead_lt d)]
        intro hsd
        exact hne (hcs.trans hsd)
      obtain ⟨word, hword⟩ := not_forall.1 hnot
      rw [tokenAlong_dead] at hword
      obtain ⟨k, hk⟩ := Option.ne_none_iff_exists'.1 hword
      exact ⟨word, k, by rw [tokenAlong_merge h hp hs hib, hk]⟩

/-! ### Two automata with the same tokens -/

theorem blockEdges_eq (h : d.WellFormed) (hp : d.Stable p) {s : Nat} (hs : s < d.size) :
    d.blockEdges p (p.block s) = (List.range d.alphabet.size).filterMap fun x =>
      if p.Same (d.next s x) d.dead then none else some (x, p.block (d.next s x)) := by
  apply NatMap.eq_of_ascending
  · obtain ⟨q, -, hrep, -⟩ := exists_representative hp hs
    have hdrawn : d.drawnEdges p (p.block s) = (d.state q).edges.entries := by
      simp [drawnEdges, hrep]
    rw [blockEdges, hdrawn]
    exact List.Pairwise.filter _ (List.pairwise_map.2 ((d.state q).edges.ascending.imp id))
  · rw [List.pairwise_filterMap]
    refine List.pairwise_lt_range.imp ?_
    intro x y hxy a ha b hb
    split_ifs at ha hb
    obtain rfl := Option.some.inj ha
    obtain rfl := Option.some.inj hb
    exact hxy
  · rintro ⟨x, c⟩
    rw [mem_blockEdges h hp hs, List.mem_filterMap]
    constructor
    · rintro ⟨hx, rfl, hne⟩
      exact ⟨x, List.mem_range.2 hx, if_neg hne⟩
    · rintro ⟨y, hy, he⟩
      split_ifs at he with hne
      obtain ⟨rfl, rfl⟩ := Prod.mk.inj (Option.some.inj he)
      exact ⟨List.mem_range.1 hy, rfl, hne⟩

/-- No word tells the states of two automata apart. -/
def Corresponds (d e : Dfa) (s t : Nat) : Prop :=
  s < d.size ∧ t < e.size ∧ ∀ word, d.tokenAlong s word = e.tokenAlong t word

def BlocksCorrespond (d e : Dfa) (b c : Nat) : Prop :=
  ∃ s t, d.Corresponds e s t ∧ d.partition.block s = b ∧ e.partition.block t = c

theorem Corresponds.blocks {s t : Nat} (h : d.Corresponds e s t) :
    d.BlocksCorrespond e (d.partition.block s) (e.partition.block t) :=
  ⟨s, t, h, rfl, rfl⟩

section Correspond

variable (hd : d.WellFormed) (he : e.WellFormed)

include hd he in
theorem biUnique_blocksCorrespond : Relator.BiUnique (d.BlocksCorrespond e) := by
  constructor
  · rintro _ b _ ⟨s, t, ⟨hs, ht, hst⟩, rfl, rfl⟩ ⟨s', t', ⟨hs', ht', hst'⟩, rfl, htt⟩
    refine (same_partition_iff hd (Nat.lt_succ_of_lt hs) (Nat.lt_succ_of_lt hs')).2 fun word => ?_
    have halike := (same_partition_iff he (Nat.lt_succ_of_lt ht') (Nat.lt_succ_of_lt ht)).1 htt word
    rw [hst, hst', halike]
  · rintro b _ _ ⟨s, t, ⟨hs, ht, hst⟩, rfl, rfl⟩ ⟨s', t', ⟨hs', ht', hst'⟩, hss, rfl⟩
    refine (same_partition_iff he (Nat.lt_succ_of_lt ht) (Nat.lt_succ_of_lt ht')).2 fun word => ?_
    have halike := (same_partition_iff hd (Nat.lt_succ_of_lt hs') (Nat.lt_succ_of_lt hs)).1 hss word
    rw [← hst, ← hst', halike]

include hd he in
/-- A symbol leads corresponding states to corresponding states, or neither of them anywhere from
where a token can be reached. -/
theorem Corresponds.next {s t : Nat} (h : d.Corresponds e s t) (x : Nat) :
    (d.partition.Same (d.next s x) d.dead ↔ e.partition.Same (e.next t x) e.dead) ∧
      (¬ d.partition.Same (d.next s x) d.dead →
        d.Corresponds e (d.next s x) (e.next t x)) := by
  obtain ⟨hs, ht, hst⟩ := h
  have hword : ∀ word, d.tokenAlong (d.next s x) word = e.tokenAlong (e.next t x) word := by
    intro word
    simpa using hst (x :: word)
  have hiff : d.partition.Same (d.next s x) d.dead ↔ e.partition.Same (e.next t x) e.dead := by
    rw [same_partition_iff hd (next_lt hd s x) (dead_lt d),
      same_partition_iff he (next_lt he t x) (dead_lt e)]
    simp only [Alike, tokenAlong_dead, hword]
  refine ⟨hiff, fun hlive => ⟨next_lt_size hd hlive, next_lt_size he (mt hiff.2 hlive), hword⟩⟩

include hd he in
theorem forall₂_blockEdges (hk : e.alphabet = d.alphabet) {b c : Nat}
    (h : d.BlocksCorrespond e b c) :
    List.Forall₂ (fun u v => u.1 = v.1 ∧ d.BlocksCorrespond e u.2 v.2)
      (d.blockEdges d.partition b) (e.blockEdges e.partition c) := by
  obtain ⟨s, t, hst, rfl, rfl⟩ := h
  rw [blockEdges_eq hd (stable_partition hd) hst.1, blockEdges_eq he (stable_partition he) hst.2.1,
    hk]
  have hsame : List.Forall₂ (· = ·) (List.range d.alphabet.size) (List.range d.alphabet.size) :=
    List.forall₂_refl _
  refine List.rel_filterMap ?_ hsame
  rintro x _ rfl
  obtain ⟨hiff, hnext⟩ := hst.next hd he x
  by_cases hdead : d.partition.Same (d.next s x) d.dead
  · simp only [if_pos hdead, if_pos (hiff.1 hdead)]
    exact .none
  · simp only [if_neg hdead, if_neg (mt hiff.2 hdead)]
    apply Option.Rel.some
    dsimp only
    exact ⟨rfl, (hnext hdead).blocks⟩

include hd he in
/-- The searches find corresponding blocks in the same order. -/
theorem forall₂_reachableBlocks (hk : e.alphabet = d.alphabet)
    (hstart : d.Corresponds e d.start e.start) :
    List.Forall₂ (d.BlocksCorrespond e) (d.reachableBlocks d.partition)
      (e.reachableBlocks e.partition) := by
  rw [reachableBlocks_eq hd (stable_partition hd) (Nat.le_max_left _ e.partition.blocks.size),
    reachableBlocks_eq he (stable_partition he) (Nat.le_max_right d.partition.blocks.size _)]
  apply Exploration.forall₂_breadthFirst (biUnique_blocksCorrespond hd he)
  · intro b c hbc
    exact List.rel_map (fun _ _ huv => huv.2) (forall₂_blockEdges hd he hk hbc)
  · exact .cons hstart.blocks .nil

include hd he in
theorem BlocksCorrespond.corresponds {s t : Nat} (hs : s < d.size) (ht : t < e.size)
    (h : d.BlocksCorrespond e (d.partition.block s) (e.partition.block t)) :
    d.Corresponds e s t := by
  obtain ⟨s', t', ⟨hs', ht', hst⟩, hss, htt⟩ := h
  refine ⟨hs, ht, fun word => ?_⟩
  have hd' := (same_partition_iff hd (Nat.lt_succ_of_lt hs') (Nat.lt_succ_of_lt hs)).1 hss word
  have he' := (same_partition_iff he (Nat.lt_succ_of_lt ht') (Nat.lt_succ_of_lt ht)).1 htt word
  rw [← hd', hst, he']

include hd he in
/-- States at the same place in the order of discovery have the same token and the same edges. -/
theorem target?_merge_eq (hk : e.alphabet = d.alphabet) (hstart : d.Corresponds e d.start e.start)
    {i : Nat} (hi : i < (d.merge d.partition).size) :
    (e.merge e.partition).token? i = (d.merge d.partition).token? i ∧
      ∀ x, (e.merge e.partition).target? i x = (d.merge d.partition).target? i x := by
  have hdp := stable_partition hd
  have hep := stable_partition he
  have hall := forall₂_reachableBlocks hd he hk hstart
  obtain ⟨s, hs, his⟩ := exists_block_of_lt hd hdp hi
  obtain ⟨c, hic, hsc⟩ := Exploration.exists_getElem?_of_forall₂ hall his
  obtain ⟨t, ht, hit⟩ := exists_block_of_lt he hep (i := i) (by
    rw [size_merge]
    exact (List.getElem?_eq_some_iff.1 hic).1)
  obtain rfl : c = e.partition.block t := Option.some.inj (hic.symm.trans hit)
  have hst := hsc.corresponds hd he hs ht
  obtain ⟨htoken, hedges⟩ := merge_simulates hd hdp hs his
  obtain ⟨htoken', hedges'⟩ := merge_simulates he hep ht hit
  constructor
  · rw [htoken, htoken']
    exact (hst.2.2 []).symm
  · intro x
    have hedge := hedges x
    have hedge' := hedges' x
    obtain ⟨hiff, hnext⟩ := hst.next hd he x
    simp only [hk, ← hiff] at hedge'
    split_ifs at hedge hedge' with hx
    · obtain ⟨j, hj, hjb⟩ := hedge
      obtain ⟨j', hj', hjb'⟩ := hedge'
      obtain ⟨c, hjc, hbc⟩ := Exploration.exists_getElem?_of_forall₂ hall hjb
      obtain rfl : c = e.partition.block (e.next t x) :=
        (biUnique_blocksCorrespond hd he).2 hbc (hnext hx.2).blocks
      rw [hj, hj', getElem?_reachableBlocks_inj hjc hjb']
    · rw [hedge, hedge']

end Correspond

/-- Automata that give every word the same token have the same minimal automaton. -/
theorem minimize_eq_of_tokenOfWord_eq (hd : d.WellFormed) (he : e.WellFormed)
    (hk : e.alphabet = d.alphabet)
    (htokens : ∀ word, (∀ x ∈ word, x < d.alphabet.size) →
      e.tokenOfWord word = d.tokenOfWord word) :
    e.minimize = d.minimize := by
  have hstart : d.Corresponds e d.start e.start := by
    refine ⟨hd.start_lt, he.start_lt, fun word => ?_⟩
    by_cases hw : ∀ x ∈ word, x < d.alphabet.size
    · exact (htokens word hw).symm
    · have hd' : d.tokenAlong d.start word = none :=
        Option.eq_none_iff_forall_ne_some.2 fun k h => hw (lt_of_tokenAlong hd h)
      have he' : e.tokenAlong e.start word = none :=
        Option.eq_none_iff_forall_ne_some.2 fun k h => hw (hk ▸ lt_of_tokenAlong he h)
      rw [hd', he']
  have hsize : (e.merge e.partition).size = (d.merge d.partition).size := by
    rw [size_merge, size_merge, (forall₂_reachableBlocks hd he hk hstart).length_eq]
  have halphabet : (e.merge e.partition).alphabet = (d.merge d.partition).alphabet := by
    rw [alphabet_merge, alphabet_merge, hk]
  rw [minimize_eq_merge hd, minimize_eq_merge he]
  apply eq_of_target?_eq halphabet rfl hsize
  intro i hi
  rw [hsize] at hi
  exact target?_merge_eq hd he hk hstart hi

/-- The refinement of a well-formed automaton ends. The result has no superfluous state and depends
on nothing but the alphabet and the tokens of words, so minimizing it once more changes nothing. -/
theorem minimize_canonical (h : d.WellFormed) :
    (d.partition.queue = [] ∧
      ∃ steps, ∀ more,
        d.refineWithin d.predecessors (steps + more) d.tokenBlocks = d.partition) ∧
      d.minimize.Minimal ∧
      (∀ e : Dfa, e.WellFormed → e.alphabet = d.alphabet →
        (∀ word, (∀ x ∈ word, x < d.alphabet.size) → e.tokenOfWord word = d.tokenOfWord word) →
        e.minimize = d.minimize) ∧
      d.minimize.minimize = d.minimize := by
  refine ⟨partition_ends h, minimal_minimize h,
    fun e he hk htokens => minimize_eq_of_tokenOfWord_eq h he hk htokens, ?_⟩
  have hp := stable_partition h
  have hmerged := minimize_eq_merge h
  apply minimize_eq_of_tokenOfWord_eq h
  · rw [hmerged]
    exact wellFormed_merge h hp
  · rw [hmerged, alphabet_merge]
  · intro word _
    rw [hmerged]
    exact tokenOfWord_merge h hp word

/-- The automaton of `oddLetters` with two states less, and with two more that no word reaches or
that lead to no token. -/
def oddLettersRedrawn : Dfa where
  alphabet := ⟨#[.ofChar 'a']⟩
  states := #[⟨.ofList [(0, 3)], some 7⟩, ⟨.ofList [(0, 2)], some 5⟩, ⟨.ofList [(0, 2)], none⟩,
    ⟨.ofList [(0, 0)], none⟩]
  start := 3

theorem tokenAlong_oddLettersRedrawn (word : List Nat) (hw : ∀ x ∈ word, x < 1) :
    ∀ s ∈ [(0, 3), (1, 0), (2, 3), (3, 0)],
      oddLettersRedrawn.tokenAlong s.2 word = oddLetters.tokenAlong s.1 word := by
  induction word with
  | nil => decide
  | cons x word ih =>
    intro s hs
    obtain ⟨hx, hword⟩ := List.forall_mem_cons.1 hw
    obtain rfl : x = 0 := by omega
    have hnext : ∀ s ∈ [(0, 3), (1, 0), (2, 3), (3, 0)],
        (oddLetters.next s.1 0, oddLettersRedrawn.next s.2 0) ∈
          [(0, 3), (1, 0), (2, 3), (3, 0)] := by decide
    simpa using ih hword _ (hnext s hs)

theorem minimize_canonical_oddLetters :
    oddLetters.WellFormed ∧ oddLettersRedrawn.minimize = oddLetters.minimize ∧
      oddLetters.minimize.minimize = oddLetters.minimize := by
  have h : oddLetters.WellFormed := ⟨by decide, by decide⟩
  have hcanonical := (minimize_canonical h).2.2
  refine ⟨h, hcanonical.1 oddLettersRedrawn ⟨by decide, by decide⟩ rfl ?_, hcanonical.2⟩
  exact fun word hw => tokenAlong_oddLettersRedrawn word hw (0, 3) (by decide)

end SyntaxTables.Dfa
