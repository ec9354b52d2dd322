import SyntaxTables.Proofs.Dfa.Minimal

/-!
# The coarsest partition

Two states are alike if no word of symbols tells them apart. The states of one block of a stable
partition are alike. The other way round, no split ever separates states that are alike: equal
tokens do not, and if the blocks so far keep alike states together, a block taken as a splitter
holds the targets of both of them or of neither. So the blocks of the final partition are the
classes of states that are alike, in whatever order the splitters were taken.
-/

namespace SyntaxTables.Dfa

variable {d : Dfa} {p : Partition}

def tokenAlong (d : Dfa) (s : Nat) (word : List Nat) : Option Nat := (d.run s word).bind d.token?

@[simp] theorem tokenAlong_nil (d : Dfa) (s : Nat) : d.tokenAlong s [] = d.token? s := rfl

theorem dead_lt (d : Dfa) : d.dead < d.size + 1 := Nat.lt_succ_self _

theorem tokenAlong_dead (d : Dfa) (word : List Nat) : d.tokenAlong d.dead word = none := by
  cases word with
  | nil => exact token?_dead d
  | cons x word =>
    have ht : d.target? d.dead x = none := by
      rw [target?, state_dead]
      rfl
    simp [tokenAlong, run, ht]

@[simp] theorem tokenAlong_cons (d : Dfa) (s x : Nat) (word : List Nat) :
    d.tokenAlong s (x :: word) = d.tokenAlong (d.next s x) word := by
  cases ht : d.target? s x with
  | none =>
    have hnext : d.next s x = d.dead := by simp [next, ht]
    rw [hnext, tokenAlong_dead]
    simp [tokenAlong, run, ht]
  | some t => simp [tokenAlong, run, next, ht]

theorem next_eq_dead (h : d.WellFormed) {x : Nat} (hx : ¬ x < d.alphabet.size) (s : Nat) :
    d.next s x = d.dead := by
  cases ht : d.target? s x with
  | none => simp [next, ht]
  | some t => exact absurd (lt_of_target? h ht).2.1 hx

theorem lt_of_tokenAlong (h : d.WellFormed) {s k : Nat} {word : List Nat}
    (hk : d.tokenAlong s word = some k) : ∀ x ∈ word, x < d.alphabet.size := by
  induction word generalizing s with
  | nil => simp
  | cons x word ih =>
    rw [tokenAlong_cons] at hk
    have hx : x < d.alphabet.size := by
      by_contra hx
      rw [next_eq_dead h hx, tokenAlong_dead] at hk
      simp at hk
    exact List.forall_mem_cons.2 ⟨hx, ih hk⟩

/-- No word tells two states apart. -/
def Alike (d : Dfa) (q r : Nat) : Prop := ∀ word, d.tokenAlong q word = d.tokenAlong r word

theorem Alike.next {q r : Nat} (h : d.Alike q r) (x : Nat) :
    d.Alike (d.next q x) (d.next r x) := by
  intro word
  simpa using h (x :: word)

theorem Stable.alike (h : d.WellFormed) (hp : d.Stable p) {q r : Nat} (hq : q < d.size + 1)
    (hr : r < d.size + 1) (hqr : p.Same q r) : d.Alike q r := by
  intro word
  induction word generalizing q r with
  | nil => exact hp.token q hq r hr hqr
  | cons x word ih =>
    rw [tokenAlong_cons, tokenAlong_cons]
    by_cases hx : x < d.alphabet.size
    · exact ih (next_lt h q x) (next_lt h r x) (hp.next q hq r hr hqr x hx)
    · rw [next_eq_dead h hx, next_eq_dead h hx]

/-! ### Alike states stay together -/

/-- All pairs of states that are alike are together. -/
def KeepsAlike (d : Dfa) (p : Partition) : Prop :=
  ∀ q < d.size + 1, ∀ r < d.size + 1, d.Alike q r → p.Same q r

theorem keepsAlike_tokenBlocks (d : Dfa) : d.KeepsAlike d.tokenBlocks :=
  fun q hq r hr hqr => ((tokenBlocks_spec d).2 q hq r hr).2 (hqr [])

/-- Splitting by what leads into a splitter keeps alike states together, if the splitter itself does
not separate any. -/
theorem KeepsAlike.foldl_splitOn (h : d.WellFormed) {splitter : List Nat} (hn : splitter.Nodup)
    (hlt : ∀ t ∈ splitter, t < d.size + 1)
    (hs : ∀ q < d.size + 1, ∀ r < d.size + 1, d.Alike q r → (q ∈ splitter ↔ r ∈ splitter))
    {xs : List Nat} (hxs : ∀ x ∈ xs, x < d.alphabet.size) (hp : p.Divides (d.size + 1))
    (hk : d.KeepsAlike p) :
    (xs.foldl (d.splitOn splitter) p).Divides (d.size + 1) ∧
      d.KeepsAlike (xs.foldl (d.splitOn splitter) p) := by
  induction xs generalizing p with
  | nil => exact ⟨hp, hk⟩
  | cons x xs ih =>
    obtain ⟨href, hsame⟩ := splitOn_spec h hp hn hlt (hxs x (by simp))
    apply ih (fun y hy => hxs y (List.mem_cons_of_mem x hy)) href.divides
    intro q hq r hr hqr
    rw [hsame q hq r hr]
    exact ⟨hk q hq r hr hqr, hs _ (next_lt h q x) _ (next_lt h r x) (hqr.next x)⟩

theorem KeepsAlike.refineWithin (h : d.WellFormed) (steps : Nat) (hp : p.Divides (d.size + 1))
    (hk : d.KeepsAlike p) : d.KeepsAlike (d.refineWithin d.predecessors steps p) := by
  induction steps generalizing p with
  | zero => exact hk
  | succ steps ih =>
    rcases hc : p.moveUp.current with _ | ⟨b, current⟩
    · rw [refineWithin_of_nil hc]
      intro q hq r hr hqr
      simpa using hk q hq r hr hqr
    · rw [refineWithin_of_cons hc, splitBy_eq]
      have hmem : ∀ t, t ∈ (p.members b).toList ↔ t < d.size + 1 ∧ p.block t = b := by
        intro t
        rw [Array.mem_toList_iff, hp.mem_members]
      have hsplitter : ∀ q < d.size + 1, ∀ r < d.size + 1, d.Alike q r →
          (q ∈ (p.members b).toList ↔ r ∈ (p.members b).toList) := by
        intro q hq r hr hqr
        have hsame : p.block q = p.block r := hk q hq r hr hqr
        simp [hmem, hq, hr, hsame]
      have htake : d.KeepsAlike (p.moveUp.take b current) := fun q hq r hr hqr =>
        (Partition.same_moveUp p q r).2 (hk q hq r hr hqr)
      obtain ⟨hdivides, hkeeps⟩ := htake.foldl_splitOn h (hp.nodup b)
        (fun t ht => ((hmem t).1 ht).1) hsplitter (fun x hx => List.mem_range.1 hx)
        (hp.moveUp.take hc)
      exact ih hdivides hkeeps

/-- The blocks of the final partition are the classes of states that are alike. -/
theorem same_partition_iff (h : d.WellFormed) {q r : Nat} (hq : q < d.size + 1)
    (hr : r < d.size + 1) : d.partition.Same q r ↔ d.Alike q r :=
  ⟨(stable_partition h).alike h hq hr,
    (keepsAlike_tokenBlocks d).refineWithin h _ (tokenBlocks_spec d).1 q hq r hr⟩

/-! ### The end of the refinement -/

theorem moveUp_eq_self {p : Partition} (hq : p.queue = []) : p.moveUp = p := by
  rcases p with ⟨blocks, blockOf, waits, _ | ⟨b, current⟩, later⟩
  · obtain rfl : later = [] := by simpa [Partition.queue] using hq
    rfl
  · rfl

theorem refineWithin_of_queue_eq_nil {lists : Array (List Nat)} (hq : p.queue = []) (steps : Nat) :
    d.refineWithin lists steps p = p := by
  cases steps with
  | zero => rfl
  | succ steps =>
    have hc : p.moveUp.current = [] := by
      rw [moveUp_eq_self hq]
      exact (List.append_eq_nil_iff.1 hq).1
    rw [refineWithin_of_nil hc, moveUp_eq_self hq]

theorem refineWithin_add (lists : Array (List Nat)) (steps more : Nat) (p : Partition) :
    d.refineWithin lists (steps + more) p =
      d.refineWithin lists more (d.refineWithin lists steps p) := by
  induction steps generalizing p with
  | zero =>
    rw [Nat.zero_add]
    rfl
  | succ steps ih =>
    rw [Nat.add_right_comm]
    rcases hc : p.moveUp.current with _ | ⟨b, current⟩
    · have hend := Partition.queue_moveUp_of_nil hc
      rw [refineWithin_of_nil hc, refineWithin_of_nil hc, refineWithin_of_queue_eq_nil hend]
    · rw [refineWithin_of_cons hc, refineWithin_of_cons hc, ih]

/-- The loop has taken its last splitter when it answers the final partition. -/
theorem partition_ends (h : d.WellFormed) :
    d.partition.queue = [] ∧
      ∃ steps, ∀ more,
        d.refineWithin d.predecessors (steps + more) d.tokenBlocks = d.partition := by
  have hqueue := (refineWithin_tokenBlocks h).2.1
  refine ⟨hqueue, 2 * (d.size + 1) * (d.alphabet.size * (d.size + 1) + 1), fun more => ?_⟩
  rw [refineWithin_add]
  exact refineWithin_of_queue_eq_nil hqueue more

end SyntaxTables.Dfa
