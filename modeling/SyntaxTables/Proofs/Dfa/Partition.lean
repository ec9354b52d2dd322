import Mathlib.Data.List.Nodup
import Mathlib.Data.List.Perm.Subperm
import Mathlib.Tactic.Common
import SyntaxTables.Dfa.Partition
import SyntaxTables.Proofs.Ascending

/-!
# Splitting blocks

A partition divides the numbers below a size: each number lies in the block that is noted for it,
blocks are not empty, and the blocks that wait are those in the queue. Splitting keeps this, and it
keeps two numbers together exactly if they were together and both or neither are hit. Every split
adds one block and one waiting block, which bounds the number of blocks that are ever taken as
splitters.
-/

namespace SyntaxTables.Partition

def block (p : Partition) (q : Nat) : Nat := p.blockOf.getD q 0

def Same (p : Partition) (q r : Nat) : Prop := p.block q = p.block r

instance (p : Partition) (q r : Nat) : Decidable (p.Same q r) :=
  inferInstanceAs (Decidable (p.block q = p.block r))

def Waiting (p : Partition) (q : Nat) : Prop := p.waits.getD (p.block q) false = true

/-- No splitter is needed to tell two numbers apart: they are together, or one of their blocks
waits. -/
def Settled (p : Partition) (q r : Nat) : Prop := p.Same q r ∨ p.Waiting q ∨ p.Waiting r

/-- The blocks waiting, in the order in which they are taken. -/
def queue (p : Partition) : List Nat := p.current ++ p.later.reverse

/-- The blocks divide the numbers below `n`. -/
structure Divides (p : Partition) (n : Nat) : Prop where
  size_blockOf : p.blockOf.size = n
  mem_members : ∀ q b, q ∈ p.members b ↔ q < n ∧ p.block q = b
  nodup : ∀ b, (p.members b).toList.Nodup
  occupied : ∀ b < p.blocks.size, ∃ q, q ∈ p.members b
  size_waits : p.waits.size = p.blocks.size
  waits_iff : ∀ b, p.waits.getD b false = true ↔ b ∈ p.queue
  nodup_queue : p.queue.Nodup

variable {p : Partition} {n b : Nat}

theorem members_eq_empty (h : p.blocks.size ≤ b) : p.members b = #[] := by
  simp [members, h]

namespace Divides

theorem block_lt (h : p.Divides n) {q : Nat} (hq : q < n) : p.block q < p.blocks.size := by
  by_contra hb
  have hm := (h.mem_members q _).2 ⟨hq, rfl⟩
  rw [members_eq_empty (Nat.le_of_not_lt hb)] at hm
  simp at hm

theorem lt_of_mem_queue (h : p.Divides n) (hb : b ∈ p.queue) : b < p.blocks.size := by
  have hw := (h.waits_iff b).2 hb
  rw [← h.size_waits]
  by_contra hlt
  simp [Array.getD, hlt] at hw

theorem size_blocks_le (h : p.Divides n) : p.blocks.size ≤ n := by
  have hsub : List.range p.blocks.size ⊆ (List.range n).map p.block := by
    intro b hb
    obtain ⟨q, hq⟩ := h.occupied b (List.mem_range.1 hb)
    obtain ⟨hqn, hqb⟩ := (h.mem_members q b).1 hq
    exact List.mem_map.2 ⟨q, List.mem_range.2 hqn, hqb⟩
  simpa using (List.subperm_of_subset List.nodup_range hsub).length_le

end Divides

/-! ### Noting blocks -/

theorem getD_setIfInBounds {α : Type} (xs : Array α) (i j : Nat) (v d : α) :
    (xs.setIfInBounds i v).getD j d = if i = j ∧ i < xs.size then v else xs.getD j d := by
  simp only [Array.getD_eq_getD_getElem?, Array.getElem?_setIfInBounds]
  by_cases hij : i = j
  · subst hij
    by_cases hi : i < xs.size <;> simp [hi]
  · simp [hij]

theorem getD_push {α : Type} (xs : Array α) (j : Nat) (v d : α) :
    (xs.push v).getD j d = if j = xs.size then v else xs.getD j d := by
  simp only [Array.getD_eq_getD_getElem?, Array.getElem?_push]
  split_ifs <;> rfl

theorem size_foldl_place (b : Nat) (numbers : List Nat) (blockOf : Array Nat) :
    (numbers.foldl (fun places q => places.setIfInBounds q b) blockOf).size = blockOf.size := by
  induction numbers generalizing blockOf with
  | nil => rfl
  | cons q numbers ih => rw [List.foldl_cons, ih, Array.size_setIfInBounds]

theorem getD_foldl_place (b d : Nat) (numbers : List Nat) (blockOf : Array Nat) (q : Nat) :
    (numbers.foldl (fun places q => places.setIfInBounds q b) blockOf).getD q d =
      if q ∈ numbers ∧ q < blockOf.size then b else blockOf.getD q d := by
  induction numbers generalizing blockOf with
  | nil => simp
  | cons r numbers ih =>
    rw [List.foldl_cons, ih, getD_setIfInBounds, Array.size_setIfInBounds]
    by_cases hrq : r = q
    · subst hrq
      by_cases hr : r < blockOf.size <;> simp [hr]
    · have hqr : q ≠ r := Ne.symm hrq
      simp [hrq, hqr]

@[simp] theorem size_place (b : Nat) (numbers blockOf : Array Nat) :
    (place b numbers blockOf).size = blockOf.size := by
  rw [place, ← Array.foldl_toList, size_foldl_place]

theorem getD_place (b d : Nat) (numbers blockOf : Array Nat) (q : Nat) :
    (place b numbers blockOf).getD q d =
      if q ∈ numbers ∧ q < blockOf.size then b else blockOf.getD q d := by
  rw [place, ← Array.foldl_toList, getD_foldl_place]
  simp only [Array.mem_toList_iff]

/-! ### One split -/

/-- What is split off a block: some of its numbers, listed once each. -/
structure Cuts (p : Partition) (b : Nat) (hits : Array Nat) : Prop where
  nodup : hits.toList.Nodup
  subset : ∀ q ∈ hits, q ∈ p.members b
  nonempty : ∃ q, q ∈ hits

/-- The members of block `b` that are not hit. -/
def rest (p : Partition) (b : Nat) (hits : Array Nat) : Array Nat :=
  (p.members b).filter fun q => (place p.blocks.size hits p.blockOf).getD q p.blocks.size = b

/-- The block that comes to wait in a split. -/
def arrival (p : Partition) (b : Nat) (hits : Array Nat) : Nat :=
  if p.waits.getD b false || (p.rest b hits).size < hits.size then p.blocks.size else b

theorem split_eq_self {hits : Array Nat} (h : hits.size = (p.members b).size) :
    p.split b hits = p := by
  unfold members at h
  simp only [split, if_pos h]

theorem split_of_ne {hits : Array Nat} (h : hits.size ≠ (p.members b).size) :
    p.split b hits =
      ⟨(p.blocks.setIfInBounds b hits).push (p.rest b hits),
        place p.blocks.size (p.rest b hits) (place b hits (place p.blocks.size hits p.blockOf)),
        (p.waits.push false).setIfInBounds (p.arrival b hits) true, p.current,
        p.arrival b hits :: p.later⟩ := by
  unfold members at h
  simp only [split, if_neg h]
  rfl

section Split

variable {hits : Array Nat}

theorem Cuts.lt_size (hc : p.Cuts b hits) : b < p.blocks.size := by
  obtain ⟨q, hq⟩ := hc.nonempty
  by_contra hb
  have hm := hc.subset q hq
  rw [members_eq_empty (Nat.le_of_not_lt hb)] at hm
  simp at hm

theorem Cuts.mem_of_size_eq (hc : p.Cuts b hits) (he : hits.size = (p.members b).size) {q : Nat}
    (hq : q ∈ p.members b) : q ∈ hits := by
  have hsub : hits.toList ⊆ (p.members b).toList := fun r hr => by
    simpa using hc.subset r (by simpa using hr)
  have hperm := (List.subperm_of_subset hc.nodup hsub).perm_of_length_le (by simp [he])
  simpa using (hperm.mem_iff).2 (by simpa using hq)

theorem members_split (hc : p.Cuts b hits) (he : hits.size ≠ (p.members b).size) (c : Nat) :
    (p.split b hits).members c =
      if c = p.blocks.size then p.rest b hits else if c = b then hits else p.members c := by
  have hlt := hc.lt_size
  rw [split_of_ne he]
  simp only [members, getD_push, getD_setIfInBounds, Array.size_setIfInBounds]
  split_ifs with h1 h2 h3 h4
  · rfl
  · rfl
  · omega
  · omega
  · rfl

theorem queue_split (he : hits.size ≠ (p.members b).size) :
    (p.split b hits).queue = p.queue ++ [p.arrival b hits] := by
  rw [split_of_ne he]
  simp [queue]

/-- Each block that a split adds comes with one that waits. -/
theorem size_blocks_split (p : Partition) (b : Nat) (hits : Array Nat) :
    (p.split b hits).blocks.size + p.queue.length =
      p.blocks.size + (p.split b hits).queue.length := by
  by_cases he : hits.size = (p.members b).size
  · rw [split_eq_self he]
  · rw [queue_split he, split_of_ne he]
    simp
    omega

theorem arrival_not_mem_queue (h : p.Divides n) : p.arrival b hits ∉ p.queue := by
  unfold arrival
  split_ifs with hw
  · intro hm
    exact Nat.lt_irrefl _ (h.lt_of_mem_queue hm)
  · intro hm
    rw [(h.waits_iff b).2 hm] at hw
    simp at hw

variable (h : p.Divides n) (hc : p.Cuts b hits)

include h hc

theorem mem_rest {q : Nat} : q ∈ p.rest b hits ↔ q ∈ p.members b ∧ q ∉ hits := by
  simp only [rest, Array.mem_filter, decide_eq_true_eq, getD_place, h.size_blockOf]
  apply and_congr_right
  intro hm
  obtain ⟨hq, hb⟩ := (h.mem_members q b).1 hm
  have hlt := hc.lt_size
  by_cases hh : q ∈ hits
  · simp [hh, hq]
    omega
  · have : p.blockOf.getD q p.blocks.size = p.block q := by
      simp [block, Array.getD, h.size_blockOf, hq]
    simp [hh, this, hb]

/-- Members that are not hit go to a new block, and all other numbers stay. -/
theorem block_split {q : Nat} (hq : q < n) :
    (p.split b hits).block q =
      if p.block q = b ∧ q ∉ hits then p.blocks.size else p.block q := by
  by_cases he : hits.size = (p.members b).size
  · rw [split_eq_self he, if_neg]
    rintro ⟨hb, hh⟩
    exact hh (hc.mem_of_size_eq he ((h.mem_members q b).2 ⟨hq, hb⟩))
  · rw [split_of_ne he]
    simp only [block, getD_place, size_place, h.size_blockOf, hq, and_true, mem_rest h hc,
      h.mem_members, true_and]
    by_cases hh : q ∈ hits
    · have hb := ((h.mem_members q b).1 (hc.subset q hh)).2
      simp only [block] at hb
      simp [hh, hb]
    · simp [hh]

theorem waits_split (he : hits.size ≠ (p.members b).size) (c : Nat) :
    (p.split b hits).waits.getD c false = true ↔
      p.waits.getD c false = true ∨ c = p.arrival b hits := by
  have hlt := hc.lt_size
  have ha : p.arrival b hits < p.waits.size + 1 := by
    rw [h.size_waits]
    unfold arrival
    split_ifs <;> omega
  rw [split_of_ne he]
  simp only [getD_setIfInBounds, getD_push, Array.size_push]
  by_cases hca : p.arrival b hits = c
  · simp [hca, hca ▸ ha]
  · have hac : ¬ c = p.arrival b hits := fun hc => hca hc.symm
    simp only [hca, false_and, if_false, hac, or_false]
    by_cases hcn : c = p.waits.size
    · simp [hcn, Array.getD]
    · simp [hcn]

theorem mem_members_split (he : hits.size ≠ (p.members b).size) (q c : Nat) :
    q ∈ (p.split b hits).members c ↔ q < n ∧ (p.split b hits).block q = c := by
  have hlt := hc.lt_size
  rw [members_split hc he]
  by_cases hq : q < n
  · rw [block_split h hc hq]
    simp only [hq, true_and]
    have hblt := h.block_lt hq
    have hhit : q ∈ hits → p.block q = b :=
      fun hh => ((h.mem_members q b).1 (hc.subset q hh)).2
    split_ifs with h1 h2 h3 h4 h5
    · simp [mem_rest h hc, h.mem_members, hq, h2, h1]
    · rw [mem_rest h hc, h.mem_members]
      constructor
      · rintro ⟨⟨-, hb⟩, hh⟩
        exact absurd ⟨hb, hh⟩ h2
      · omega
    · subst h3
      simp [h4.2]
      omega
    · subst h3
      constructor
      · exact hhit
      · intro hb
        by_contra hh
        exact h4 ⟨hb, hh⟩
    · rw [h.mem_members]
      constructor
      · rintro ⟨-, hb⟩
        exact absurd (hb.symm.trans h5.1) h3
      · omega
    · simp [h.mem_members, hq]
  · simp only [hq, false_and, iff_false]
    split_ifs with h1 h2
    · exact fun hm => hq ((h.mem_members q b).1 ((mem_rest h hc).1 hm).1).1
    · exact fun hm => hq ((h.mem_members q b).1 (hc.subset q hm)).1
    · exact fun hm => hq ((h.mem_members q c).1 hm).1

theorem exists_mem_rest (he : hits.size ≠ (p.members b).size) : ∃ q, q ∈ p.rest b hits := by
  by_contra hnone
  have hhits : hits.toList ⊆ (p.members b).toList := fun r hr => by
    simpa using hc.subset r (by simpa using hr)
  have hmembers : (p.members b).toList ⊆ hits.toList := by
    intro r hr
    by_contra hrh
    exact hnone ⟨r, (mem_rest h hc).2 ⟨by simpa using hr, by simpa using hrh⟩⟩
  apply he
  apply Nat.le_antisymm
  · simpa using (List.subperm_of_subset hc.nodup hhits).length_le
  · simpa using (List.subperm_of_subset (h.nodup b) hmembers).length_le

theorem Divides.split : (p.split b hits).Divides n := by
  by_cases he : hits.size = (p.members b).size
  · rwa [split_eq_self he]
  constructor
  · rw [split_of_ne he]
    simp [h.size_blockOf]
  · exact mem_members_split h hc he
  · intro c
    rw [members_split hc he]
    split_ifs
    · rw [rest, Array.toList_filter]
      exact (h.nodup b).filter _
    · exact hc.nodup
    · exact h.nodup c
  · intro c hcs
    rw [members_split hc he]
    split_ifs with h1 h2
    · exact exists_mem_rest h hc he
    · exact hc.nonempty
    · rw [split_of_ne he] at hcs
      simp only [Array.size_push, Array.size_setIfInBounds] at hcs
      exact h.occupied c (by omega)
  · rw [split_of_ne he]
    simp [h.size_waits]
  · intro c
    rw [waits_split h hc he, queue_split he, h.waits_iff]
    simp
  · rw [queue_split he]
    exact List.nodup_append.2 ⟨h.nodup_queue, by simp, fun x hx y hy hxy =>
      arrival_not_mem_queue h (List.mem_singleton.1 hy ▸ hxy ▸ hx)⟩

theorem same_split {q r : Nat} (hq : q < n) (hr : r < n) :
    (p.split b hits).Same q r ↔ p.Same q r ∧ (p.block q = b → (q ∈ hits ↔ r ∈ hits)) := by
  have hqb := h.block_lt hq
  have hrb := h.block_lt hr
  unfold Same
  rw [block_split h hc hq, block_split h hc hr]
  split_ifs with h1 h2 h2
  · simp [h1, h2]
  · constructor
    · omega
    · rintro ⟨hs, hh⟩
      exact absurd ⟨hs ▸ h1.1, fun hrh => h1.2 ((hh h1.1).2 hrh)⟩ h2
  · constructor
    · omega
    · rintro ⟨hs, hh⟩
      have hqb := hs.trans h2.1
      exact absurd ⟨hqb, fun hqh => h2.2 ((hh hqb).1 hqh)⟩ h1
  · constructor
    · intro hs
      refine ⟨hs, fun hb => ?_⟩
      have hq' : q ∈ hits := by_contra fun hh => h1 ⟨hb, hh⟩
      have hr' : r ∈ hits := by_contra fun hh => h2 ⟨hs ▸ hb, hh⟩
      exact iff_of_true hq' hr'
    · exact fun hs => hs.1

theorem settled_split {q r : Nat} (hq : q < n) (hr : r < n) (hs : p.Settled q r) :
    (p.split b hits).Settled q r := by
  by_cases he : hits.size = (p.members b).size
  · rwa [split_eq_self he]
  have hw : ∀ s < n, p.Waiting s → (p.split b hits).Waiting s := by
    intro s hs hsw
    unfold Waiting at hsw ⊢
    rw [waits_split h hc he, block_split h hc hs]
    split_ifs with hb
    · right
      simp [arrival, ← hb.1, hsw]
    · exact Or.inl hsw
  rcases hs with hs | hs | hs
  · -- the two halves of the split block are the only pair that comes apart, and one of them waits
    have hcases : p.arrival b hits = p.blocks.size ∨ p.arrival b hits = b := by
      unfold arrival
      split_ifs <;> simp
    by_cases hsame : (p.split b hits).Same q r
    · exact Or.inl hsame
    · right
      rw [same_split h hc hq hr] at hsame
      unfold Waiting
      rw [waits_split h hc he, waits_split h hc he, block_split h hc hq, block_split h hc hr]
      unfold Same at hs hsame
      split_ifs with h1 h2 h2
      · exact absurd ⟨hs, fun _ => iff_of_false h1.2 h2.2⟩ hsame
      · rcases hcases with ha | ha
        · exact Or.inl (Or.inr ha.symm)
        · exact Or.inr (Or.inr (by rw [ha, ← hs, h1.1]))
      · rcases hcases with ha | ha
        · exact Or.inr (Or.inr ha.symm)
        · exact Or.inl (Or.inr (by rw [ha, hs, h2.1]))
      · refine absurd ⟨hs, fun hb => ?_⟩ hsame
        exact iff_of_true (by_contra fun hh => h1 ⟨hb, hh⟩)
          (by_contra fun hh => h2 ⟨hs ▸ hb, hh⟩)
  · exact Or.inr (Or.inl (hw q hq hs))
  · exact Or.inr (Or.inr (hw r hr hs))

end Split

/-! ### Splitting all blocks -/

/-- What a sequence of splits may do to a partition. -/
structure Refines (p' p : Partition) (n : Nat) : Prop where
  divides : p'.Divides n
  same : ∀ q < n, ∀ r < n, p'.Same q r → p.Same q r
  settled : ∀ q < n, ∀ r < n, p.Settled q r → p'.Settled q r
  budget : p'.blocks.size + p.queue.length = p.blocks.size + p'.queue.length

theorem Divides.refines (h : p.Divides n) : Refines p p n :=
  ⟨h, fun _ _ _ _ => id, fun _ _ _ _ => id, rfl⟩

theorem Refines.trans {p₁ p₂ p₃ : Partition} (h : Refines p₂ p₁ n) (h' : Refines p₃ p₂ n) :
    Refines p₃ p₁ n := by
  refine ⟨h'.divides, ?_, ?_, ?_⟩
  · exact fun q hq r hr hs => h.same q hq r hr (h'.same q hq r hr hs)
  · exact fun q hq r hr hs => h'.settled q hq r hr (h.settled q hq r hr hs)
  · have := h.budget
    have := h'.budget
    omega

theorem refines_split {hits : Array Nat} (h : p.Divides n) (hc : p.Cuts b hits) :
    Refines (p.split b hits) p n :=
  ⟨h.split hc, fun _ hq _ hr hs => ((same_split h hc hq hr).1 hs).1,
    fun _ hq _ hr => settled_split h hc hq hr, size_blocks_split p _ hits⟩

/-- Splits of different blocks do not disturb each other. -/
theorem foldl_split (h : p.Divides n) {gs : List (Nat × List Nat)} (hk : (gs.map Prod.fst).Nodup)
    (hg : ∀ g ∈ gs, p.Cuts g.1 g.2.toArray) :
    Refines (gs.foldl (fun p g => p.split g.1 g.2.toArray) p) p n ∧
      ∀ q < n, ∀ r < n, (gs.foldl (fun p g => p.split g.1 g.2.toArray) p).Same q r ↔
        p.Same q r ∧ ∀ g ∈ gs, p.block q = g.1 → (q ∈ g.2 ↔ r ∈ g.2) := by
  induction gs generalizing p with
  | nil => exact ⟨h.refines, by simp⟩
  | cons g gs ih =>
    rw [List.map_cons, List.nodup_cons] at hk
    have hcut := hg g (by simp)
    -- a block other than the one split keeps its members
    have hblock : ∀ q < n, ∀ g' ∈ gs, (p.split g.1 g.2.toArray).block q = g'.1 ↔
        p.block q = g'.1 := by
      intro q hq g' hg'
      have hne : g'.1 ≠ g.1 := fun he => hk.1 (he ▸ List.mem_map_of_mem hg')
      have hlt := (hg g' (List.mem_cons_of_mem g hg')).lt_size
      rw [block_split h hcut hq]
      split_ifs with hs
      · omega
      · rfl
    obtain ⟨href, hsame⟩ := ih (h.split hcut) hk.2 (by
      intro g' hg'
      have hc' := hg g' (List.mem_cons_of_mem g hg')
      refine ⟨hc'.nodup, fun q hq => ?_, hc'.nonempty⟩
      obtain ⟨hqn, hqb⟩ := (h.mem_members q _).1 (hc'.subset q hq)
      exact ((h.split hcut).mem_members q _).2 ⟨hqn, (hblock q hqn g' hg').2 hqb⟩)
    rw [List.foldl_cons]
    refine ⟨(refines_split h hcut).trans href, ?_⟩
    intro q hq r hr
    rw [hsame q hq r hr, same_split h hcut hq hr, List.forall_mem_cons, and_assoc]
    simp only [List.mem_toArray]
    refine and_congr_right fun _ => and_congr_right fun _ => ?_
    exact forall₂_congr fun g' hg' => by rw [hblock q hq g' hg']

theorem cuts_of_mem_groups (h : p.Divides n) {hits : List Nat} (hn : hits.Nodup)
    (hlt : ∀ q ∈ hits, q < n) {g : Nat × List Nat}
    (hg : g ∈ Ascending.groups (hits.map fun q => (p.block q, q))) :
    p.Cuts g.1 g.2.toArray ∧ ∀ q, q ∈ g.2 ↔ q ∈ hits ∧ p.block q = g.1 := by
  obtain ⟨hfilter, hne⟩ := Ascending.mem_groups_map hg
  have hmem : ∀ q, q ∈ g.2 ↔ q ∈ hits ∧ p.block q = g.1 := by
    intro q
    simp [hfilter]
  refine ⟨⟨?_, ?_, ?_⟩, hmem⟩
  · simpa [hfilter] using hn.filter _
  · intro q hq
    obtain ⟨hqh, hqb⟩ := (hmem q).1 (by simpa using hq)
    exact (h.mem_members q _).2 ⟨hlt q hqh, hqb⟩
  · obtain ⟨q, hq⟩ := List.exists_mem_of_ne_nil _ hne
    exact ⟨q, by simpa using hq⟩

/-- Splitting by a list of numbers separates those in it from the others, and nothing else. -/
theorem splitAll_spec (h : p.Divides n) {hits : List Nat} (hn : hits.Nodup)
    (hlt : ∀ q ∈ hits, q < n) :
    Refines (p.splitAll hits) p n ∧
      ∀ q < n, ∀ r < n, (p.splitAll hits).Same q r ↔ p.Same q r ∧ (q ∈ hits ↔ r ∈ hits) := by
  have hcuts := fun g hg => cuts_of_mem_groups h hn hlt (g := g) hg
  obtain ⟨href, hsame⟩ := foldl_split h (Ascending.nodup_keys_groups _) fun g hg => (hcuts g hg).1
  refine ⟨href, fun q hq r hr => (hsame q hq r hr).trans (and_congr_right fun hs => ?_)⟩
  constructor
  · intro hall
    have hside : ∀ s, (s = q ∨ s = r) → s ∈ hits → q ∈ hits ∧ r ∈ hits := by
      intro s hsqr hsh
      have hb : p.block s = p.block q := by
        rcases hsqr with rfl | rfl
        · rfl
        · exact hs.symm
      obtain ⟨g, hg, hgs, hsg⟩ := Ascending.exists_mem_groups_map p.block hsh
      have hiff := hall g hg (hb.symm.trans hgs.symm)
      have hmem := (hcuts g hg).2
      have hqr : q ∈ g.2 ∧ r ∈ g.2 := by
        rcases hsqr with rfl | rfl
        · exact ⟨hsg, hiff.1 hsg⟩
        · exact ⟨hiff.2 hsg, hsg⟩
      exact ⟨((hmem q).1 hqr.1).1, ((hmem r).1 hqr.2).1⟩
    exact ⟨fun hq => (hside q (Or.inl rfl) hq).2, fun hr => (hside r (Or.inr rfl) hr).1⟩
  · intro hiff g hg hqb
    rw [(hcuts g hg).2 q, (hcuts g hg).2 r, hiff, ← hs, hqb]

end SyntaxTables.Partition
