import Mathlib.Data.List.Sort
import SyntaxTables.Proofs.Alphabet

/-!
# The partition into cells

A cell begins and ends where an interval does and nowhere in between, so the points of one cell lie
in the same intervals, and two neighbouring cells are told apart by some interval. An interval that
the alphabet was cut along is filled by the cells inside, one after another, and its run of symbols
is the same whether it is stored or computed.
-/

namespace SyntaxTables.Alphabet

variable {a : Alphabet} {ranges : List Interval} {lo hi i j : Nat} {r s : Interval}

/-- The cells of some symbols fill the points from `lo` to `hi`, each from where the one before
ends. -/
inductive Tiles (a : Alphabet) : Nat → Nat → List Nat → Prop
  | last {lo hi i : Nat} : a.cells[i]? = some ⟨lo, hi⟩ → Tiles a lo hi [i]
  | cons {lo mid hi i : Nat} {symbols : List Nat} :
    a.cells[i]? = some ⟨lo, mid⟩ → Tiles a (mid + 1) hi symbols → Tiles a lo hi (i :: symbols)

/-! ### Cells and points -/

theorem Ordered.eq_of_mem (h : a.Ordered) (hr : a.cells[i]? = some r) (hs : a.cells[j]? = some s)
    {c : Nat} (hcr : c ∈ r) (hcs : c ∈ s) : i = j := by
  obtain ⟨hrmin, hrmax⟩ := Interval.mem_iff.1 hcr
  obtain ⟨hsmin, hsmax⟩ := Interval.mem_iff.1 hcs
  rcases Nat.lt_trichotomy i j with hij | hij | hij
  · have hdisjoint := h.ascending hij hr hs
    omega
  · exact hij
  · have hdisjoint := h.ascending hij hs hr
    omega

theorem exists_symbolOf?_iff {c : Nat} :
    (∃ i, (ofRanges ranges).symbolOf? c = some i) ↔ ∃ r ∈ ranges, c ∈ r := by
  constructor
  · rintro ⟨i, hi⟩
    obtain ⟨s, hs, hc⟩ := (ordered_ofRanges ranges).symbolOf?_eq_some_iff.1 hi
    obtain ⟨hpiece, r, hr, hmin⟩ := mem_cells_ofRanges.1 (Array.mem_of_getElem? hs)
    exact ⟨r, hr, (hpiece.mem_iff hr hc).2 hmin⟩
  · rintro ⟨r, hr, hc⟩
    obtain ⟨i, -, hi⟩ := (respects_ofRanges hr c).1 hc
    exact ⟨i, hi⟩

/-- Where a cell follows another one at once, some interval begins or has just ended. -/
theorem eq_of_neighbours {c : Nat} (hi : (ofRanges ranges).symbolOf? c = some i)
    (hj : (ofRanges ranges).symbolOf? (c + 1) = some j)
    (hsame : ∀ r ∈ ranges, c ∈ r ↔ c + 1 ∈ r) : i = j := by
  have hordered := ordered_ofRanges ranges
  obtain ⟨s, hs, hcs⟩ := hordered.symbolOf?_eq_some_iff.1 hi
  obtain ⟨t, ht, hct⟩ := hordered.symbolOf?_eq_some_iff.1 hj
  by_contra hne
  obtain ⟨htmin, htmax⟩ := Interval.mem_iff.1 hct
  have hc : c ∉ t := fun hc => hne (hordered.eq_of_mem hs ht hcs hc)
  have hmin : t.min = c + 1 := by
    rw [Interval.mem_iff] at hc
    omega
  have hpiece := (mem_cells_ofRanges.1 (Array.mem_of_getElem? ht)).1
  obtain ⟨r, hr, hle, hcut⟩ := mem_cutPoints.1 hpiece.min_mem
  have hends := hsame r hr
  rw [Interval.mem_iff, Interval.mem_iff] at hends
  omega

/-! ### Runs of symbols -/

theorem Tiles.le (h : a.Ordered) {symbols : List Nat} (ht : a.Tiles lo hi symbols) : lo ≤ hi := by
  induction ht with
  | last hcell => exact h.nonempty hcell
  | cons hcell _ ih =>
    have hle := h.nonempty hcell
    simp only at hle
    omega

theorem Tiles.mem_iff (h : a.Ordered) {symbols : List Nat} (ht : a.Tiles lo hi symbols) :
    i ∈ symbols ↔ ∃ s, a.cells[i]? = some s ∧ lo ≤ s.min ∧ s.max ≤ hi := by
  induction ht with
  | @last lo hi j hcell =>
    rw [List.mem_singleton]
    constructor
    · rintro rfl
      exact ⟨_, hcell, Nat.le_refl _, Nat.le_refl _⟩
    · rintro ⟨s, hs, hmin, hmax⟩
      have hle := h.nonempty hs
      exact h.eq_of_mem (c := s.min) hs hcell (Interval.mem_iff.2 ⟨Nat.le_refl _, hle⟩)
        (Interval.mem_iff.2 ⟨hmin, Nat.le_trans hle hmax⟩)
  | @cons lo mid hi j symbols hcell ht ih =>
    have hmid := ht.le h
    have hlo := h.nonempty hcell
    simp only at hlo
    rw [List.mem_cons, ih]
    constructor
    · rintro (rfl | ⟨s, hs, hmin, hmax⟩)
      · exact ⟨_, hcell, Nat.le_refl _, by simp only; omega⟩
      · exact ⟨s, hs, by omega, hmax⟩
    · rintro ⟨s, hs, hmin, hmax⟩
      by_cases hmids : s.min ≤ mid
      · exact Or.inl (h.eq_of_mem (c := s.min) hs hcell
          (Interval.mem_iff.2 ⟨Nat.le_refl _, h.nonempty hs⟩) (Interval.mem_iff.2 ⟨hmin, hmids⟩))
      · exact Or.inr ⟨s, hs, by omega, hmax⟩

theorem Ordered.next_cell (h : a.Ordered) {mid : Nat} (hcell : a.cells[i]? = some ⟨lo, mid⟩)
    (hs : a.cells[j]? = some s) (hc : mid + 1 ∈ s) : j = i + 1 ∧ s.min = mid + 1 := by
  have hlo := h.nonempty hcell
  obtain ⟨hmin, hmax⟩ := Interval.mem_iff.1 hc
  simp only at hlo
  rcases Nat.lt_trichotomy i j with hij | rfl | hji
  · have hbehind := h.ascending hij hcell hs
    simp only at hbehind
    refine ⟨?_, by omega⟩
    by_contra hne
    obtain ⟨t, ht, hle, hlt⟩ := h.exists_cell (show i + 1 < j by omega) hs
    have hbetween := h.ascending (Nat.lt_succ_self i) hcell ht
    simp only at hbetween
    omega
  · obtain rfl := Option.some.inj (hs.symm.trans hcell)
    simp only at hmax
    omega
  · have hfront := h.ascending hji hs hcell
    simp only at hfront
    omega

/-- From a cell on, covered points are filled by the cells that follow. -/
theorem Ordered.exists_tiles (h : a.Ordered) {mid : Nat} (hcell : a.cells[i]? = some ⟨lo, mid⟩)
    (hmid : mid ≤ hi)
    (hcovered : ∀ c, lo ≤ c → c ≤ hi →
      ∃ (j : Nat) (s : Interval), a.cells[j]? = some s ∧ c ∈ s ∧ s.max ≤ hi) :
    ∃ n, a.Tiles lo hi (List.range' i n) := by
  induction hk : hi - mid using Nat.strong_induction_on generalizing i lo mid with
  | h k ih =>
    have hlo := h.nonempty hcell
    simp only at hlo
    rcases Nat.eq_or_lt_of_le hmid with rfl | hlt
    · exact ⟨1, .last hcell⟩
    · -- the point behind the cell is covered, which only the next cell can do
      obtain ⟨j, s, hs, hc, hmax⟩ := hcovered (mid + 1) (by omega) hlt
      obtain ⟨rfl, hmin⟩ := h.next_cell hcell hs hc
      have hnext : a.cells[i + 1]? = some ⟨mid + 1, s.max⟩ := by rw [hs, ← hmin]
      have hle := (Interval.mem_iff.1 hc).2
      obtain ⟨n, ht⟩ := ih (hi - s.max) (by omega) hnext hmax
        (fun c hc hch => hcovered c (by omega) hch) rfl
      exact ⟨n + 1, .cons hcell ht⟩

theorem pairwise_expand (a : Alphabet) (r : Interval) : (a.expand r).Pairwise (· < ·) :=
  List.pairwise_lt_range'

theorem tiles_expand (hr : r ∈ ranges) (hinverted : ¬ r.Inverted) :
    (ofRanges ranges).Tiles r.min r.max ((ofRanges ranges).expand r) := by
  have hordered := ordered_ofRanges ranges
  have hle : r.min ≤ r.max := Nat.not_lt.1 hinverted
  have hcovered : ∀ c, r.min ≤ c → c ≤ r.max → ∃ (i : Nat) (s : Interval),
      (ofRanges ranges).cells[i]? = some s ∧ c ∈ s ∧ r.min ≤ s.min ∧ s.max ≤ r.max := by
    intro c hmin hmax
    obtain ⟨i, hi, hc⟩ := (respects_ofRanges hr c).1 (Interval.mem_iff.2 ⟨hmin, hmax⟩)
    obtain ⟨s, hs, hinside⟩ := hordered.mem_expand.1 hi
    obtain ⟨t, ht, hct⟩ := hordered.symbolOf?_eq_some_iff.1 hc
    obtain rfl := Option.some.inj (hs.symm.trans ht)
    exact ⟨i, s, hs, hct, hinside⟩
  obtain ⟨i, ⟨lo, mid⟩, hs, hc, hmin, hmax⟩ := hcovered r.min (Nat.le_refl _) hle
  obtain rfl : lo = r.min := Nat.le_antisymm (Interval.mem_iff.1 hc).1 hmin
  obtain ⟨n, htiles⟩ := hordered.exists_tiles hs hmax fun c hmin hmax =>
    let ⟨j, t, ht, hct, _, htmax⟩ := hcovered c hmin hmax
    ⟨j, t, ht, hct, htmax⟩
  have hrun : (ofRanges ranges).expand r = List.range' i n := by
    apply List.Pairwise.eq_of_mem_iff (pairwise_expand _ r) List.pairwise_lt_range'
    intro j
    rw [hordered.mem_expand, htiles.mem_iff hordered]
  rwa [hrun]

/-! ### Stored runs -/

/-- The run of an interval, which is looked up if it was stored when the alphabet was built. -/
def expandStored (ranges : List Interval) (r : Interval) : List Nat :=
  if r.Inverted then []
  else
    let stored := ((splits ranges).find? fun e => e.1 = r).map Prod.snd
    let (first, last) := stored.getD ((ofRanges ranges).span r)
    List.range' first (last - first)

theorem expandStored_eq (ranges : List Interval) (r : Interval) :
    expandStored ranges r = (ofRanges ranges).expand r := by
  unfold expandStored
  split_ifs with hinverted
  · simp [expand, span, hinverted]
  · cases hfind : (splits ranges).find? fun e => e.1 = r with
    | none => rfl
    | some e =>
      obtain rfl : e.1 = r := by simpa using List.find?_some hfind
      have hmem := List.mem_of_find?_eq_some hfind
      obtain ⟨s, -, rfl⟩ := List.mem_map.1 (List.mem_filter.1 hmem).1
      rfl

/-! ### Intervals that count -/

section Congr

variable {ranges' : List Interval}
  (h : ∀ r : Interval, ¬ r.Inverted → (r ∈ ranges ↔ r ∈ ranges'))

include h

theorem exists_mem_congr {c : Nat} : (∃ r ∈ ranges, c ∈ r) ↔ ∃ r ∈ ranges', c ∈ r := by
  have hcounts : ∀ r : Interval, c ∈ r → ¬ r.Inverted :=
    fun r hc => Nat.not_lt.2 (Nat.le_trans (Interval.mem_iff.1 hc).1 (Interval.mem_iff.1 hc).2)
  exact ⟨fun ⟨r, hr, hc⟩ => ⟨r, (h r (hcounts r hc)).1 hr, hc⟩,
    fun ⟨r, hr, hc⟩ => ⟨r, (h r (hcounts r hc)).2 hr, hc⟩⟩

theorem cutPoints_congr : cutPoints ranges = cutPoints ranges' := by
  apply List.Pairwise.eq_of_mem_iff (pairwise_cutPoints ranges) (pairwise_cutPoints ranges')
  intro p
  have hcounts : ∀ r : Interval, r.min ≤ r.max → (r ∈ ranges ↔ r ∈ ranges') :=
    fun r hle => h r (Nat.not_lt.2 hle)
  rw [mem_cutPoints, mem_cutPoints]
  constructor
  · rintro ⟨r, hr, hle, hp⟩
    exact ⟨r, (hcounts r hle).1 hr, hle, hp⟩
  · rintro ⟨r, hr, hle, hp⟩
    exact ⟨r, (hcounts r hle).2 hr, hle, hp⟩

/-- The alphabet depends only on which intervals there are that hold points. -/
theorem ofRanges_congr : ofRanges ranges = ofRanges ranges' := by
  unfold ofRanges
  rw [cutPoints_congr h]
  congr 2
  apply List.filter_congr
  intro s _
  rw [Bool.eq_iff_iff]
  simpa using exists_mem_congr h

theorem splits_congr : splits ranges = splits ranges' := by
  have hsame : Ascending.ofList (ranges.filter fun r => ¬ r.Inverted) =
      Ascending.ofList (ranges'.filter fun r => ¬ r.Inverted) := by
    apply Ascending.eq_of_pairwise (Ascending.pairwise_ofList _) (Ascending.pairwise_ofList _)
    intro r
    simpa [and_congr_left_iff] using h r
  unfold splits
  rw [hsame, ofRanges_congr h]

end Congr

/-! ### The partition -/

/-- The cells of an alphabet divide the points that some interval covers as coarsely as the
intervals allow, and the run of an interval holds the symbols of the cells inside. -/
structure Partitions (ranges : List Interval) (a : Alphabet) : Prop where
  ordered : a.Ordered
  symbolOf?_eq_some_iff : ∀ c i, a.symbolOf? c = some i ↔ ∃ s, a.cells[i]? = some s ∧ c ∈ s
  /-- Cells need no larger numbers than the intervals. -/
  inside : ∀ {i : Nat} {s : Interval}, a.cells[i]? = some s →
    ∃ r ∈ ranges, r.min ≤ s.min ∧ s.max ≤ r.max
  covered_iff : ∀ c, (∃ i, a.symbolOf? c = some i) ↔ ∃ r ∈ ranges, c ∈ r
  alike : ∀ {c d i}, a.symbolOf? c = some i → a.symbolOf? d = some i → ∀ r ∈ ranges, c ∈ r ↔ d ∈ r
  coarsest : ∀ {c i j}, a.symbolOf? c = some i → a.symbolOf? (c + 1) = some j →
    (∀ r ∈ ranges, c ∈ r ↔ c + 1 ∈ r) → i = j
  tiles : ∀ r ∈ ranges, ¬ r.Inverted → a.Tiles r.min r.max (a.expand r)
  mem_expand_iff : ∀ r i, i ∈ a.expand r ↔
    ∃ s, a.cells[i]? = some s ∧ r.min ≤ s.min ∧ s.max ≤ r.max

theorem partitions_ofRanges (ranges : List Interval) : Partitions ranges (ofRanges ranges) where
  ordered := ordered_ofRanges ranges
  symbolOf?_eq_some_iff _ _ := (ordered_ofRanges ranges).symbolOf?_eq_some_iff
  inside := by
    intro i s hs
    obtain ⟨hpiece, r, hr, hmin⟩ := mem_cells_ofRanges.1 (Array.mem_of_getElem? hs)
    have hend := (hpiece.mem_iff hr
      (Interval.mem_iff.2 ⟨hpiece.nonempty, Nat.le_refl s.max⟩)).2 hmin
    exact ⟨r, hr, (Interval.mem_iff.1 hmin).1, (Interval.mem_iff.1 hend).2⟩
  covered_iff _ := exists_symbolOf?_iff
  alike := by
    intro c d i hc hd r hr
    obtain ⟨s, hs, hcs⟩ := (ordered_ofRanges ranges).symbolOf?_eq_some_iff.1 hc
    obtain ⟨t, ht, hdt⟩ := (ordered_ofRanges ranges).symbolOf?_eq_some_iff.1 hd
    obtain rfl := Option.some.inj (hs.symm.trans ht)
    have hpiece := (mem_cells_ofRanges.1 (Array.mem_of_getElem? hs)).1
    rw [hpiece.mem_iff hr hcs, hpiece.mem_iff hr hdt]
  coarsest := eq_of_neighbours
  tiles _ := tiles_expand
  mem_expand_iff _ _ := (ordered_ofRanges ranges).mem_expand

end SyntaxTables.Alphabet
