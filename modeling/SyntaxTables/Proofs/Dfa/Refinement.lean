import SyntaxTables.Proofs.Dfa.Partition

/-!
# The final partition

The refinement ends with every two states of one block having the same token and being led into one
block again by each symbol. While it runs, two states of one block may still be led into different
blocks, but then one of these blocks waits, or the splitter at hand has yet to be used with that
symbol and tells the targets apart. That only the smaller half of a split block has to wait rests on
this: a block that does not wait has already been told apart from every other one that does not.
-/

namespace SyntaxTables

namespace Partition

/-! ### Blocks given by lists -/

/-- Notes the blocks of the members of some numbered blocks. -/
def noted (places : Array Nat) (blocks : List (List Nat × Nat)) : Array Nat :=
  blocks.foldl (fun places (members, b) =>
    members.foldl (fun places q => places.setIfInBounds q b) places) places

theorem noted_cons (places : Array Nat) (bs : List Nat) (b : Nat)
    (blocks : List (List Nat × Nat)) :
    noted places ((bs, b) :: blocks) =
      noted (bs.foldl (fun places q => places.setIfInBounds q b) places) blocks := rfl

theorem size_noted (places : Array Nat) (blocks : List (List Nat × Nat)) :
    (noted places blocks).size = places.size := by
  induction blocks generalizing places with
  | nil => rfl
  | cons b blocks ih => rw [noted_cons, ih, size_foldl_place]

theorem getD_noted_of_not_mem {blocks : List (List Nat)} {q : Nat} (k : Nat) (places : Array Nat)
    (h : ∀ bs ∈ blocks, q ∉ bs) :
    (noted places (blocks.zipIdx k)).getD q 0 = places.getD q 0 := by
  induction blocks generalizing k places with
  | nil => rfl
  | cons bs blocks ih =>
    rw [List.zipIdx_cons, noted_cons, ih _ _ fun cs hcs => h cs (List.mem_cons_of_mem bs hcs),
      getD_foldl_place, if_neg fun hq => h bs (by simp) hq.1]

theorem getD_noted_of_mem {blocks : List (List Nat)} {bs : List Nat} {q j : Nat} (k : Nat)
    {places : Array Nat} (hq : q < places.size) (hd : blocks.Pairwise List.Disjoint)
    (hj : blocks[j]? = some bs) (hqb : q ∈ bs) :
    (noted places (blocks.zipIdx k)).getD q 0 = k + j := by
  induction blocks generalizing k places j with
  | nil => simp at hj
  | cons cs blocks ih =>
    rw [List.pairwise_cons] at hd
    rw [List.zipIdx_cons, noted_cons]
    cases j with
    | zero =>
      obtain rfl := Option.some.inj hj
      rw [getD_noted_of_not_mem _ _ fun es hes hqe => hd.1 es hes hqb hqe, getD_foldl_place,
        if_pos ⟨hqb, hq⟩]
      rfl
    | succ j =>
      rw [ih (k + 1) (by rwa [size_foldl_place]) hd.2 (by simpa using hj)]
      omega

/-- Lists that divide the numbers below `n` become the blocks of a partition. -/
theorem divides_ofBlocks {n : Nat} {blocks : List (List Nat)} (hd : blocks.Pairwise List.Disjoint)
    (hmem : ∀ q, q < n ↔ ∃ bs ∈ blocks, q ∈ bs) (hn : ∀ bs ∈ blocks, bs.Nodup ∧ bs ≠ []) :
    (ofBlocks n blocks).Divides n ∧
      ∀ q j bs, blocks[j]? = some bs → q ∈ bs → (ofBlocks n blocks).block q = j := by
  have hblock : ∀ q j bs, blocks[j]? = some bs → q ∈ bs → (ofBlocks n blocks).block q = j := by
    intro q j bs hj hq
    have hqn : q < n := (hmem q).2 ⟨bs, List.mem_of_getElem? hj, hq⟩
    have hplace : q < (Array.replicate n 0).size := by simpa using hqn
    exact (getD_noted_of_mem 0 hplace hd hj hq).trans (Nat.zero_add j)
  have hmembers : ∀ b, (ofBlocks n blocks).members b = (blocks.getD b []).toArray := by
    intro b
    simp only [members, ofBlocks, Array.getD_eq_getD_getElem?, List.getElem?_toArray,
      List.getElem?_map, List.getD_eq_getElem?_getD]
    cases blocks[b]? <;> rfl
  refine ⟨⟨?_, ?_, ?_, ?_, ?_, ?_, ?_⟩, hblock⟩
  · exact (size_noted _ _).trans (by simp)
  · intro q b
    rw [hmembers, List.mem_toArray, List.getD_eq_getElem?_getD]
    constructor
    · intro hq
      cases hb : blocks[b]? with
      | none => simp [hb] at hq
      | some bs =>
        rw [hb] at hq
        exact ⟨(hmem q).2 ⟨bs, List.mem_of_getElem? hb, hq⟩, hblock q b bs hb hq⟩
    · rintro ⟨hq, rfl⟩
      obtain ⟨bs, hbs, hqb⟩ := (hmem q).1 hq
      obtain ⟨j, hj⟩ := List.mem_iff_getElem?.1 hbs
      rw [hblock q j bs hj hqb, hj]
      exact hqb
  · intro b
    rw [hmembers, List.toList_toArray, List.getD_eq_getElem?_getD]
    cases hb : blocks[b]? with
    | none => exact List.nodup_nil
    | some bs => exact (hn bs (List.mem_of_getElem? hb)).1
  · intro b hb
    have hlt : b < blocks.length := by simpa [ofBlocks] using hb
    obtain ⟨q, hq⟩ := List.exists_mem_of_ne_nil _ (hn _ (List.getElem_mem hlt)).2
    exact ⟨q, by simpa [hmembers, hlt] using hq⟩
  · simp [ofBlocks]
  · intro b
    by_cases hb : b < blocks.length <;> simp [ofBlocks, queue, Array.getD, hb]
  · simpa [ofBlocks, queue] using List.nodup_range

section Groups

variable {α : Type} [Ord α] [Std.TransOrd α] [Std.LawfulEqOrd α] [DecidableEq α]
  (label : Nat → α) (n : Nat)

theorem mem_group_iff {g : α × List Nat}
    (hg : g ∈ Ascending.groups ((List.range n).map fun q => (label q, q))) (q : Nat) :
    q ∈ g.2 ↔ q < n ∧ label q = g.1 := by
  rw [(Ascending.mem_groups_map hg).1]
  simp

theorem disjoint_groups :
    ((Ascending.groups ((List.range n).map fun q => (label q, q))).map Prod.snd).Pairwise
      List.Disjoint := by
  rw [List.pairwise_map]
  refine List.Pairwise.imp_of_mem ?_ (Ascending.pairwise_groups _)
  intro g g' hg hg' hlt q hq hq'
  have hlabel := ((mem_group_iff label n hg q).1 hq).2
  have hlabel' := ((mem_group_iff label n hg' q).1 hq').2
  rw [← hlabel, ← hlabel'] at hlt
  simp at hlt

theorem lt_iff_exists_group (q : Nat) :
    q < n ↔ ∃ bs ∈ (Ascending.groups ((List.range n).map fun q => (label q, q))).map Prod.snd,
      q ∈ bs := by
  constructor
  · intro hq
    obtain ⟨g, hg, -, hqg⟩ := Ascending.exists_mem_groups_map label (List.mem_range.2 hq)
    exact ⟨g.2, List.mem_map_of_mem hg, hqg⟩
  · rintro ⟨bs, hbs, hq⟩
    obtain ⟨g, hg, rfl⟩ := List.mem_map.1 hbs
    exact ((mem_group_iff label n hg q).1 hq).1

theorem nodup_group_and_ne_nil {bs : List Nat}
    (hbs : bs ∈ (Ascending.groups ((List.range n).map fun q => (label q, q))).map Prod.snd) :
    bs.Nodup ∧ bs ≠ [] := by
  obtain ⟨g, hg, rfl⟩ := List.mem_map.1 hbs
  obtain ⟨hfilter, hne⟩ := Ascending.mem_groups_map hg
  refine ⟨?_, hne⟩
  rw [hfilter]
  exact List.nodup_range.filter _

theorem divides_ofBlocks_groups :
    (ofBlocks n ((Ascending.groups ((List.range n).map fun q => (label q, q))).map
        Prod.snd)).Divides n ∧
      ∀ q < n, ∀ r < n, (ofBlocks n ((Ascending.groups ((List.range n).map fun q =>
        (label q, q))).map Prod.snd)).Same q r ↔ label q = label r := by
  obtain ⟨hdivides, hblock⟩ := divides_ofBlocks (disjoint_groups label n)
    (lt_iff_exists_group label n) fun _ hbs => nodup_group_and_ne_nil label n hbs
  refine ⟨hdivides, fun q hq r hr => ?_⟩
  obtain ⟨g, hg, hql, hqg⟩ := Ascending.exists_mem_groups_map label (List.mem_range.2 hq)
  obtain ⟨g', hg', hrl, hrg⟩ := Ascending.exists_mem_groups_map label (List.mem_range.2 hr)
  obtain ⟨j, hj⟩ := List.mem_iff_getElem?.1 hg
  obtain ⟨k, hk⟩ := List.mem_iff_getElem?.1 hg'
  have hqj := hblock q j g.2 (by rw [List.getElem?_map, hj]; rfl) hqg
  have hrk := hblock r k g'.2 (by rw [List.getElem?_map, hk]; rfl) hrg
  constructor
  · intro hs
    have hjk : j = k := hqj.symm.trans (hs.trans hrk)
    subst hjk
    obtain rfl := Option.some.inj (hj.symm.trans hk)
    exact hql.symm.trans hrl
  · intro hl
    have hrg : r ∈ g.2 := (mem_group_iff label n hg r).2 ⟨hr, hl ▸ hql.symm⟩
    exact hqj.trans (hblock r j g.2 (by rw [List.getElem?_map, hj]; rfl) hrg).symm

end Groups

/-! ### Taking a block out of the queue -/

@[simp] theorem blocks_moveUp (p : Partition) : p.moveUp.blocks = p.blocks := by
  rcases p with ⟨blocks, blockOf, waits, _ | ⟨b, current⟩, later⟩ <;> rfl

@[simp] theorem waits_moveUp (p : Partition) : p.moveUp.waits = p.waits := by
  rcases p with ⟨blocks, blockOf, waits, _ | ⟨b, current⟩, later⟩ <;> rfl

@[simp] theorem blockOf_moveUp (p : Partition) : p.moveUp.blockOf = p.blockOf := by
  rcases p with ⟨blocks, blockOf, waits, _ | ⟨b, current⟩, later⟩ <;> rfl

@[simp] theorem queue_moveUp (p : Partition) : p.moveUp.queue = p.queue := by
  rcases p with ⟨blocks, blockOf, waits, _ | ⟨b, current⟩, later⟩ <;> simp [moveUp, queue]

theorem queue_moveUp_of_nil {p : Partition} (h : p.moveUp.current = []) : p.moveUp.queue = [] := by
  rcases p with ⟨blocks, blockOf, waits, _ | ⟨b, current⟩, later⟩
  · simpa [moveUp, queue] using h
  · simp [moveUp] at h

@[simp] theorem members_moveUp (p : Partition) (b : Nat) : p.moveUp.members b = p.members b := by
  simp [members]

@[simp] theorem block_moveUp (p : Partition) (q : Nat) : p.moveUp.block q = p.block q := by
  simp [block]

@[simp] theorem same_moveUp (p : Partition) (q r : Nat) : p.moveUp.Same q r ↔ p.Same q r := by
  simp [Same]

@[simp] theorem settled_moveUp (p : Partition) (q r : Nat) :
    p.moveUp.Settled q r ↔ p.Settled q r := by
  simp [Settled, Waiting]

theorem Divides.moveUp {p : Partition} {n : Nat} (h : p.Divides n) : p.moveUp.Divides n := by
  constructor
  · simpa using h.size_blockOf
  · simpa using h.mem_members
  · simpa using h.nodup
  · simpa using h.occupied
  · simpa using h.size_waits
  · simpa using h.waits_iff
  · simpa using h.nodup_queue

def take (p : Partition) (b : Nat) (current : List Nat) : Partition :=
  { p with waits := p.waits.setIfInBounds b false, current := current }

section Take

variable {p : Partition} {n b : Nat} {current : List Nat}

theorem queue_of_current (hc : p.current = b :: current) :
    p.queue = b :: (p.take b current).queue := by
  simp [queue, take, hc]

theorem getD_waits_take (b : Nat) (current : List Nat) (c : Nat) :
    (p.take b current).waits.getD c false = true ↔ p.waits.getD c false = true ∧ c ≠ b := by
  rw [take, getD_setIfInBounds]
  split_ifs with hbc
  · simp [hbc.1]
  · by_cases hcb : c = b
    · subst hcb
      have hc : ¬ c < p.waits.size := fun hlt => hbc ⟨rfl, hlt⟩
      simp [Array.getD, hc]
    · simp [hcb]

theorem Divides.take (h : p.Divides n) (hc : p.current = b :: current) :
    (p.take b current).Divides n := by
  have hq := queue_of_current hc
  have hn := h.nodup_queue
  rw [hq, List.nodup_cons] at hn
  constructor
  · exact h.size_blockOf
  · exact h.mem_members
  · exact h.nodup
  · exact h.occupied
  · simpa [Partition.take] using h.size_waits
  · intro c
    rw [getD_waits_take, h.waits_iff, hq, List.mem_cons]
    constructor
    · rintro ⟨hcq, hcb⟩
      exact hcq.resolve_left hcb
    · intro hcq
      exact ⟨Or.inr hcq, fun hcb => hn.1 (hcb ▸ hcq)⟩
  · exact hn.2

theorem Settled.take {q r : Nat} (hs : p.Settled q r) (hb : p.block q = b ↔ p.block r = b) :
    (p.take b current).Settled q r := by
  by_cases hsame : p.Same q r
  · exact Or.inl hsame
  · right
    unfold Same at hsame
    unfold Waiting
    rw [getD_waits_take, getD_waits_take]
    rcases hs.resolve_left hsame with hw | hw
    · exact Or.inl ⟨hw, fun hqb => hsame (hqb.trans (hb.1 hqb).symm)⟩
    · exact Or.inr ⟨hw, fun hrb => hsame ((hb.2 hrb).trans hrb.symm)⟩

end Take

end Partition

namespace Dfa

variable {d : Dfa}

/-! ### The first partition -/

@[simp] theorem mem_completed {q : Nat} : q ∈ d.completed ↔ q < d.size + 1 := by
  simp [completed]

theorem tokenBlocks_spec (d : Dfa) :
    d.tokenBlocks.Divides (d.size + 1) ∧
      ∀ q < d.size + 1, ∀ r < d.size + 1,
        d.tokenBlocks.Same q r ↔ d.token? q = d.token? r :=
  Partition.divides_ofBlocks_groups d.token? (d.size + 1)

theorem queue_tokenBlocks (d : Dfa) :
    d.tokenBlocks.blocks.size = d.tokenBlocks.queue.length := by
  simp [tokenBlocks, Partition.ofBlocks, Partition.queue]

/-! ### Predecessors -/

theorem lt_of_target? (h : d.WellFormed) {q x t : Nat} (ht : d.target? q x = some t) :
    q < d.size ∧ x < d.alphabet.size ∧ t < d.size := by
  unfold target? state at ht
  rw [NatMap.get?_eq_some_iff] at ht
  by_cases hq : q < d.states.size
  · rw [Array.getD_eq_getD_getElem?, Array.getElem?_eq_getElem hq] at ht
    exact ⟨hq, h.edge_lt _ (Array.getElem_mem hq) _ ht⟩
  · rw [Array.getD_eq_getD_getElem?, Array.getElem?_eq_none (Nat.le_of_not_lt hq)] at ht
    exact absurd ht List.not_mem_nil

theorem next_lt (h : d.WellFormed) (q x : Nat) : d.next q x < d.size + 1 := by
  unfold next dead
  cases ht : d.target? q x with
  | none => exact Nat.lt_succ_self _
  | some t => exact Nat.lt_succ_of_lt (lt_of_target? h ht).2.2

theorem slot_inj {x y s t : Nat} (hs : s < d.size + 1) (ht : t < d.size + 1) :
    d.slot x s = d.slot y t ↔ x = y ∧ s = t := by
  constructor
  · intro h
    unfold slot at h
    have hdiv := congrArg (· / (d.size + 1)) h
    have hmod := congrArg (· % (d.size + 1)) h
    simp only [Nat.mul_comm _ (d.size + 1), Nat.mul_add_div (Nat.succ_pos _),
      Nat.mul_add_mod, Nat.div_eq_of_lt hs, Nat.div_eq_of_lt ht, Nat.mod_eq_of_lt hs,
      Nat.mod_eq_of_lt ht, Nat.add_zero] at hdiv hmod
    exact ⟨hdiv, hmod⟩
  · rintro ⟨rfl, rfl⟩
    rfl

theorem slot_lt {x s : Nat} (hx : x < d.alphabet.size) (hs : s < d.size + 1) :
    d.slot x s < d.slot d.alphabet.size 0 := by
  have h := Nat.mul_le_mul_right (d.size + 1) (Nat.succ_le_of_lt hx)
  rw [Nat.succ_mul] at h
  unfold slot
  omega

theorem foldr_modify {places : Nat → Nat} (q : Nat) (xs : List Nat) (lists : Array (List Nat))
    (hinj : (xs.map places).Nodup) (hlt : ∀ x ∈ xs, places x < lists.size) (i : Nat) :
    (xs.foldr (fun x lists => lists.modify (places x) (q :: ·)) lists).size = lists.size ∧
      (xs.foldr (fun x lists => lists.modify (places x) (q :: ·)) lists).getD i [] =
        if i ∈ xs.map places then q :: lists.getD i [] else lists.getD i [] := by
  induction xs with
  | nil => simp
  | cons x xs ih =>
    rw [List.map_cons, List.nodup_cons] at hinj
    obtain ⟨hsize, hget⟩ := ih hinj.2 fun y hy => hlt y (List.mem_cons_of_mem x hy)
    have hx := hlt x (by simp)
    rw [List.foldr_cons]
    refine ⟨by rw [Array.size_modify, hsize], ?_⟩
    rw [Array.getD_eq_getD_getElem?, Array.getElem?_modify] at *
    by_cases hi : places x = i
    · subst hi
      rw [if_neg hinj.1] at hget
      rw [if_pos rfl, if_pos (by simp), ← hget]
      rw [Array.getElem?_eq_getElem (hsize ▸ hx)]
      rfl
    · have hmem : i ∈ (x :: xs).map places ↔ i ∈ xs.map places := by
        simp [Ne.symm hi]
      rw [if_neg hi]
      simp only [hmem]
      exact hget

theorem nodup_slots (h : d.WellFormed) (q : Nat) :
    ((List.range d.alphabet.size).map fun y => d.slot y (d.next q y)).Nodup := by
  apply List.nodup_range.map_on
  intro y _ z _ hyz
  exact ((slot_inj (next_lt h q y) (next_lt h q z)).1 hyz).1

theorem slot_mem_slots_iff (h : d.WellFormed) {x t : Nat} (hx : x < d.alphabet.size)
    (ht : t < d.size + 1) (q : Nat) :
    d.slot x t ∈ (List.range d.alphabet.size).map (fun y => d.slot y (d.next q y)) ↔
      d.next q x = t := by
  rw [List.mem_map]
  constructor
  · rintro ⟨y, -, hy⟩
    obtain ⟨rfl, hyt⟩ := (slot_inj (next_lt h q y) ht).1 hy
    exact hyt
  · rintro rfl
    exact ⟨x, List.mem_range.2 hx, rfl⟩

/-- What is in a list after some states were put into the lists of their targets. -/
theorem foldr_predecessors (h : d.WellFormed) {x t : Nat} (hx : x < d.alphabet.size)
    (ht : t < d.size + 1) (qs : List Nat) :
    (qs.foldr (fun q lists => (List.range d.alphabet.size).foldr
        (fun y lists => lists.modify (d.slot y (d.next q y)) (q :: ·)) lists)
        (Array.replicate (d.slot d.alphabet.size 0) [])).size = d.slot d.alphabet.size 0 ∧
      (qs.foldr (fun q lists => (List.range d.alphabet.size).foldr
        (fun y lists => lists.modify (d.slot y (d.next q y)) (q :: ·)) lists)
        (Array.replicate (d.slot d.alphabet.size 0) [])).getD (d.slot x t) [] =
        qs.filter fun q => d.next q x = t := by
  induction qs with
  | nil => simp [Array.getD, slot_lt hx ht]
  | cons q qs ih =>
    rw [List.foldr_cons]
    obtain ⟨hsize, hget⟩ := foldr_modify q (List.range d.alphabet.size) _ (nodup_slots h q)
      (fun y hy => by
        rw [ih.1]
        exact slot_lt (List.mem_range.1 hy) (next_lt h q y)) (d.slot x t)
    refine ⟨hsize.trans ih.1, ?_⟩
    rw [hget, ih.2, List.filter_cons]
    by_cases hq : d.next q x = t
    · rw [if_pos ((slot_mem_slots_iff h hx ht q).2 hq), if_pos (decide_eq_true hq)]
    · rw [if_neg fun hm => hq ((slot_mem_slots_iff h hx ht q).1 hm), if_neg (by simpa using hq)]

/-- The list of a symbol and a target holds the states that the symbol leads there, in order. -/
theorem getD_predecessors (h : d.WellFormed) {x t : Nat} (hx : x < d.alphabet.size)
    (ht : t < d.size + 1) :
    d.predecessors.getD (d.slot x t) [] = d.completed.filter fun q => d.next q x = t :=
  (foldr_predecessors h hx ht d.completed).2

/-! ### Refining by a splitter -/

/-- Two states of one block are led to settled targets by each symbol, except that a symbol out of
`xs` may still have to be used with the splitter, which then tells the targets apart. -/
def SettledBut (d : Dfa) (splitter xs : List Nat) (p : Partition) : Prop :=
  ∀ q < d.size + 1, ∀ r < d.size + 1, p.Same q r → ∀ x < d.alphabet.size,
    p.Settled (d.next q x) (d.next r x) ∨
      x ∈ xs ∧ ¬ (d.next q x ∈ splitter ↔ d.next r x ∈ splitter)

def sources (d : Dfa) (splitter : List Nat) (x : Nat) : List Nat :=
  splitter.flatMap fun t => d.predecessors.getD (d.slot x t) []

theorem mem_sources (h : d.WellFormed) {splitter : List Nat}
    (hlt : ∀ t ∈ splitter, t < d.size + 1) {x : Nat} (hx : x < d.alphabet.size) {q : Nat} :
    q ∈ d.sources splitter x ↔ q < d.size + 1 ∧ d.next q x ∈ splitter := by
  unfold sources
  rw [List.mem_flatMap]
  constructor
  · rintro ⟨t, ht, hq⟩
    rw [getD_predecessors h hx (hlt t ht), List.mem_filter, mem_completed, decide_eq_true_eq] at hq
    exact ⟨hq.1, hq.2 ▸ ht⟩
  · rintro ⟨hq, ht⟩
    refine ⟨_, ht, ?_⟩
    rw [getD_predecessors h hx (hlt _ ht), List.mem_filter, mem_completed]
    exact ⟨hq, decide_eq_true rfl⟩

theorem nodup_sources (h : d.WellFormed) {splitter : List Nat} (hn : splitter.Nodup)
    (hlt : ∀ t ∈ splitter, t < d.size + 1) {x : Nat} (hx : x < d.alphabet.size) :
    (d.sources splitter x).Nodup := by
  unfold sources
  rw [List.nodup_flatMap]
  constructor
  · intro t ht
    rw [getD_predecessors h hx (hlt t ht)]
    exact List.Nodup.filter _ List.nodup_range
  · refine List.Pairwise.imp_of_mem ?_ hn
    intro s t hs ht hst q hqs hqt
    simp only [getD_predecessors h hx (hlt s hs), List.mem_filter, decide_eq_true_eq] at hqs
    simp only [getD_predecessors h hx (hlt t ht), List.mem_filter, decide_eq_true_eq] at hqt
    exact hst (hqs.2.symm.trans hqt.2)

def splitOn (d : Dfa) (splitter : List Nat) (p : Partition) (x : Nat) : Partition :=
  if splitter.all fun t => (d.predecessors.getD (d.slot x t) []).isEmpty then p
  else p.splitAll (d.sources splitter x)

theorem splitBy_eq (d : Dfa) (splitter : List Nat) (p : Partition) :
    d.splitBy d.predecessors splitter p =
      (List.range d.alphabet.size).foldl (d.splitOn splitter) p := rfl

variable {n : Nat} {p : Partition} {splitter : List Nat}

theorem splitOn_spec (h : d.WellFormed) (hp : p.Divides (d.size + 1)) (hn : splitter.Nodup)
    (hlt : ∀ t ∈ splitter, t < d.size + 1) {x : Nat} (hx : x < d.alphabet.size) :
    Partition.Refines (d.splitOn splitter p x) p (d.size + 1) ∧
      ∀ q < d.size + 1, ∀ r < d.size + 1, (d.splitOn splitter p x).Same q r ↔
        p.Same q r ∧ (d.next q x ∈ splitter ↔ d.next r x ∈ splitter) := by
  have hmem := fun q => mem_sources h hlt hx (q := q)
  unfold splitOn
  split_ifs with hempty
  · have hnone : ∀ q < d.size + 1, d.next q x ∉ splitter := by
      intro q hq hs
      have hsource := (hmem q).2 ⟨hq, hs⟩
      obtain ⟨t, ht, hqt⟩ := List.mem_flatMap.1 hsource
      have := List.all_eq_true.1 hempty t ht
      rw [List.isEmpty_iff.1 this] at hqt
      simp at hqt
    refine ⟨hp.refines, fun q hq r hr => ?_⟩
    simp [hnone q hq, hnone r hr]
  · obtain ⟨href, hsame⟩ := Partition.splitAll_spec hp (nodup_sources h hn hlt hx)
      fun q hq => ((hmem q).1 hq).1
    refine ⟨href, fun q hq r hr => ?_⟩
    rw [hsame q hq r hr, hmem, hmem]
    simp [hq, hr]

theorem foldl_splitOn (h : d.WellFormed) (hn : splitter.Nodup)
    (hlt : ∀ t ∈ splitter, t < d.size + 1) {xs : List Nat} (hxs : ∀ x ∈ xs, x < d.alphabet.size)
    (hp : p.Divides (d.size + 1)) (hs : d.SettledBut splitter xs p) :
    Partition.Refines (xs.foldl (d.splitOn splitter) p) p (d.size + 1) ∧
      d.SettledBut splitter [] (xs.foldl (d.splitOn splitter) p) := by
  induction xs generalizing p with
  | nil => exact ⟨hp.refines, hs⟩
  | cons x xs ih =>
    obtain ⟨href, hsame⟩ := splitOn_spec h hp hn hlt (hxs x (by simp))
    have hsettled : d.SettledBut splitter xs (d.splitOn splitter p x) := by
      intro q hq r hr hqr y hy
      obtain ⟨hqr', hx⟩ := (hsame q hq r hr).1 hqr
      rcases hs q hq r hr hqr' y hy with hset | ⟨hyx, htell⟩
      · exact Or.inl (href.settled _ (next_lt h q y) _ (next_lt h r y) hset)
      · rcases List.mem_cons.1 hyx with rfl | hyx
        · exact absurd hx htell
        · exact Or.inr ⟨hyx, htell⟩
    obtain ⟨href', hfinal⟩ := ih (fun y hy => hxs y (List.mem_cons_of_mem x hy)) href.divides
      hsettled
    exact ⟨href.trans href', hfinal⟩

/-! ### Taking splitters until none waits -/

/-- Every two states of one block are led to settled targets by each symbol. -/
def SettledTargets (d : Dfa) (p : Partition) : Prop := d.SettledBut [] [] p

theorem settledBut_nil_iff {splitter : List Nat} :
    d.SettledBut splitter [] p ↔ d.SettledTargets p := by
  simp [SettledTargets, SettledBut]

theorem refineWithin_of_nil {lists : Array (List Nat)} {steps : Nat}
    (hc : p.moveUp.current = []) : d.refineWithin lists (steps + 1) p = p.moveUp := by
  rw [refineWithin]
  rcases hm : p.moveUp with ⟨blocks, blockOf, waits, _ | ⟨b, current⟩, later⟩
  · rfl
  · simp [hm] at hc

theorem refineWithin_of_cons {lists : Array (List Nat)} {steps b : Nat} {current : List Nat}
    (hc : p.moveUp.current = b :: current) :
    d.refineWithin lists (steps + 1) p =
      d.refineWithin lists steps
        (d.splitBy lists (p.members b).toList (p.moveUp.take b current)) := by
  rw [refineWithin, ← Partition.members_moveUp]
  rcases hm : p.moveUp with ⟨blocks, blockOf, waits, _ | ⟨b', current'⟩, later⟩
  · simp [hm] at hc
  · simp only [hm, List.cons.injEq] at hc
    obtain ⟨rfl, rfl⟩ := hc
    rfl

/-- The refinement ends with an empty queue, if it may take as many splitters as there can be. -/
theorem refineWithin_spec (h : d.WellFormed) {steps : Nat} (hp : p.Divides (d.size + 1))
    (hs : d.SettledTargets p) (hsteps : d.size + 1 + p.queue.length ≤ steps + p.blocks.size) :
    (d.refineWithin d.predecessors steps p).Divides (d.size + 1) ∧
      (d.refineWithin d.predecessors steps p).queue = [] ∧
      d.SettledTargets (d.refineWithin d.predecessors steps p) ∧
      ∀ q < d.size + 1, ∀ r < d.size + 1,
        (d.refineWithin d.predecessors steps p).Same q r → p.Same q r := by
  induction steps generalizing p with
  | zero =>
    have hle := hp.size_blocks_le
    have hq : p.queue = [] := List.length_eq_zero_iff.1 (by omega)
    exact ⟨hp, hq, hs, fun _ _ _ _ => id⟩
  | succ steps ih =>
    have hp' : p.moveUp.Divides (d.size + 1) := hp.moveUp
    rcases hc : p.moveUp.current with _ | ⟨b, current⟩
    · rw [refineWithin_of_nil hc]
      refine ⟨hp', Partition.queue_moveUp_of_nil hc, ?_, ?_⟩
      · intro q hq r hr hqr x hx
        simpa using hs q hq r hr (by simpa using hqr) x hx
      · exact fun q _ r _ hqr => by simpa using hqr
    · rw [refineWithin_of_cons hc, splitBy_eq]
      have htake := hp'.take hc
      have hqueue := Partition.queue_of_current hc
      have hn : (p.members b).toList.Nodup := hp.nodup b
      have hlt : ∀ t ∈ (p.members b).toList, t < d.size + 1 := fun t ht =>
        ((hp.mem_members t b).1 (by simpa using ht)).1
      -- what is no longer settled when the block stops to wait is told apart by the splitter
      have hbut : d.SettledBut (p.members b).toList (List.range d.alphabet.size)
          (p.moveUp.take b current) := by
        intro q hq r hr hqr x hx
        by_cases hin : d.next q x ∈ (p.members b).toList ↔ d.next r x ∈ (p.members b).toList
        · left
          simp only [Array.mem_toList_iff, hp.mem_members, next_lt h, true_and] at hin
          have hset := (hs q hq r hr ((Partition.same_moveUp p q r).1 hqr) x hx).resolve_right
            (by simp)
          exact ((Partition.settled_moveUp p _ _).2 hset).take (by simpa using hin)
        · exact Or.inr ⟨List.mem_range.2 hx, hin⟩
      obtain ⟨href, hfinal⟩ := foldl_splitOn h hn hlt (fun x hx => List.mem_range.1 hx) htake hbut
      have hbudget := href.budget
      have hblocks : (p.moveUp.take b current).blocks.size = p.blocks.size :=
        congrArg Array.size (Partition.blocks_moveUp p)
      rw [Partition.queue_moveUp] at hqueue
      rw [hqueue, List.length_cons] at hsteps
      obtain ⟨ihd, ihq, ihs, ihsame⟩ := ih href.divides (settledBut_nil_iff.1 hfinal) (by omega)
      refine ⟨ihd, ihq, ihs, fun q hq r hr hqr => ?_⟩
      exact (Partition.same_moveUp p q r).1 (href.same q hq r hr (ihsame q hq r hr hqr))

theorem refineWithin_tokenBlocks (h : d.WellFormed) :
    d.partition.Divides (d.size + 1) ∧ d.partition.queue = [] ∧ d.SettledTargets d.partition ∧
      ∀ q < d.size + 1, ∀ r < d.size + 1, d.partition.Same q r → d.tokenBlocks.Same q r := by
  have hdivides := (tokenBlocks_spec d).1
  have hqueue := queue_tokenBlocks d
  have hall : ∀ q < d.size + 1, d.tokenBlocks.Waiting q := by
    intro q hq
    have hlt := hdivides.block_lt hq
    unfold Partition.Waiting
    rw [hdivides.waits_iff]
    simpa [tokenBlocks, Partition.ofBlocks, Partition.queue] using hlt
  have hsettled : d.SettledTargets d.tokenBlocks :=
    fun q hq r hr _ x hx => Or.inl (Or.inr (Or.inl (hall _ (next_lt h q x))))
  have hsteps : d.size + 1 + d.tokenBlocks.queue.length ≤
      2 * (d.size + 1) * (d.alphabet.size * (d.size + 1) + 1) + d.tokenBlocks.blocks.size := by
    have hpos : 0 < d.alphabet.size * (d.size + 1) + 1 := by omega
    have hmul := Nat.le_mul_of_pos_right (2 * (d.size + 1)) hpos
    omega
  exact refineWithin_spec h hdivides hsettled hsteps

/-- In the final partition two states of one block have the same token, and each symbol leads them
into one block again. -/
theorem partition_spec (h : d.WellFormed) :
    d.partition.Divides (d.size + 1) ∧
      ∀ q < d.size + 1, ∀ r < d.size + 1, d.partition.Same q r →
        d.token? q = d.token? r ∧
          ∀ x < d.alphabet.size, d.partition.Same (d.next q x) (d.next r x) := by
  have hsame := (tokenBlocks_spec d).2
  obtain ⟨hfinal, hempty, htargets, hcoarse⟩ := refineWithin_tokenBlocks h
  have hnone : ∀ s, ¬ d.partition.Waiting s := by
    intro s hs
    have hmem := (hfinal.waits_iff _).1 hs
    rw [hempty] at hmem
    simp at hmem
  refine ⟨hfinal, fun q hq r hr hqr => ⟨(hsame q hq r hr).1 (hcoarse q hq r hr hqr), ?_⟩⟩
  intro x hx
  exact ((htargets q hq r hr hqr x hx).resolve_right (by simp)).resolve_right
    fun hw => hw.elim (hnone _) (hnone _)

end Dfa

end SyntaxTables
