import SyntaxTables.Proofs.Alphabet
import SyntaxTables.Interval

/-!
# Maximal intervals

Intervals that hold points, in order and with a point between any two of them, are the maximal runs
of the points that they cover, so such a list is determined by what it covers. Cutting an interval
out keeps a list so, hence a complement depends only on the points of the given intervals. It can
also be found in one pass over the sorted intervals, which never leaves the 32-bit words.
-/

namespace SyntaxTables

variable {ranges rs ss : List Interval} {r s : Interval} {c : Nat}

/-- Intervals of code points that hold points, in order, each two apart by a point at least. -/
structure Maximal (rs : List Interval) : Prop where
  nonempty : ∀ r ∈ rs, r.min ≤ r.max
  inside : ∀ r ∈ rs, r.max ≤ maxCodePoint
  apart : rs.Pairwise fun r s => r.max + 1 < s.min

/-! ### What determines a list -/

/-- An interval holds a run of the points with a property, as long as it can be. -/
structure Interval.IsRun (p : Nat → Prop) (r : Interval) : Prop where
  nonempty : r.min ≤ r.max
  holds : ∀ c ∈ r, p c
  below : ∀ c, c + 1 = r.min → ¬ p c
  above : ¬ p (r.max + 1)

theorem Maximal.eq_or_apart (h : Maximal rs) (hr : r ∈ rs) (hs : s ∈ rs) :
    r = s ∨ r.max + 1 < s.min ∨ s.max + 1 < r.min := by
  have happart : rs.Pairwise fun r s => r.max + 1 < s.min ∨ s.max + 1 < r.min :=
    h.apart.imp Or.inl
  have : Std.Symm fun r s : Interval => r.max + 1 < s.min ∨ s.max + 1 < r.min :=
    ⟨fun _ _ => Or.symm⟩
  by_cases hne : r = s
  · exact Or.inl hne
  · exact Or.inr (happart.forall hr hs hne)

theorem Maximal.mem_iff (h : Maximal rs) : r ∈ rs ↔ r.IsRun fun c => ∃ s ∈ rs, c ∈ s := by
  have hrun : ∀ r ∈ rs, r.IsRun fun c => ∃ s ∈ rs, c ∈ s := by
    intro r hr
    refine ⟨h.nonempty r hr, fun c hc => ⟨r, hr, hc⟩, ?_, ?_⟩
    · rintro c hc ⟨s, hs, hcs⟩
      have hne := h.nonempty r hr
      rw [Interval.mem_iff] at hcs
      rcases h.eq_or_apart hr hs with rfl | hapart | hapart <;> omega
    · rintro ⟨s, hs, hcs⟩
      rw [Interval.mem_iff] at hcs
      have hne := h.nonempty r hr
      rcases h.eq_or_apart hr hs with rfl | hapart | hapart <;> omega
  refine ⟨hrun r, fun hr => ?_⟩
  -- the interval that holds the first point of a run is as long as the run in both directions
  have hne := hr.nonempty
  obtain ⟨s, hs, hmin⟩ := hr.holds r.min (Interval.mem_iff.2 ⟨Nat.le_refl _, hne⟩)
  obtain ⟨hle, hge⟩ := Interval.mem_iff.1 hmin
  have hfirst : s.min = r.min := by
    by_contra hother
    exact hr.below (r.min - 1) (by omega) ⟨s, hs, Interval.mem_iff.2 ⟨by omega, by omega⟩⟩
  have hlast : s.max = r.max := by
    rcases Nat.lt_trichotomy s.max r.max with hlt | heq | hlt
    · exact absurd (hr.holds _ (Interval.mem_iff.2 ⟨by omega, hlt⟩)) (hrun s hs).above
    · exact heq
    · exact absurd ⟨s, hs, Interval.mem_iff.2 ⟨by omega, hlt⟩⟩ hr.above
  have heq : s = r := by
    cases s
    cases r
    simp_all
  exact heq ▸ hs

theorem Maximal.eq_of_covers_iff (hr : Maximal rs) (hs : Maximal ss)
    (h : ∀ c ≤ maxCodePoint, (∃ r ∈ rs, c ∈ r) ↔ ∃ s ∈ ss, c ∈ s) : rs = ss := by
  have hbound : ∀ {ts : List Interval}, Maximal ts → ∀ {c}, (∃ t ∈ ts, c ∈ t) → c ≤ maxCodePoint :=
    fun ht _ ⟨t, hmem, hc⟩ => Nat.le_trans (Interval.mem_iff.1 hc).2 (ht.inside t hmem)
  have hcovers : (fun c => ∃ r ∈ rs, c ∈ r) = fun c => ∃ s ∈ ss, c ∈ s := by
    funext c
    exact propext ⟨fun hc => (h c (hbound hr hc)).1 hc, fun hc => (h c (hbound hs hc)).2 hc⟩
  have hascending : ∀ {ts : List Interval}, Maximal ts → ts.Pairwise fun r s => r.min < s.min :=
    fun ht => ht.apart.imp_of_mem fun hr _ hlt => by have := ht.nonempty _ hr; omega
  have : Std.Irrefl fun r s : Interval => r.min < s.min := ⟨fun r => Nat.lt_irrefl r.min⟩
  have : Std.Antisymm fun r s : Interval => r.min < s.min :=
    ⟨fun _ _ hrs hsr => absurd hrs (Nat.lt_asymm hsr)⟩
  apply List.Pairwise.eq_of_mem_iff (hascending hr) (hascending hs)
  intro r
  rw [hr.mem_iff, hs.mem_iff, hcovers]

/-! ### Cutting intervals out -/

theorem Interval.mem_cut {t : Interval} (ht : t ∈ r.cut s) (hs : s.min ≤ s.max) :
    s.min ≤ t.min ∧ t.min ≤ t.max ∧ t.max ≤ s.max := by
  unfold Interval.cut at ht
  split_ifs at ht <;> simp only [List.nil_append, List.append_nil, List.mem_append,
    List.mem_singleton, List.not_mem_nil] at ht
  · obtain rfl := ht
    omega
  · rcases ht with rfl | rfl <;> simp only <;> omega
  · obtain rfl := ht
    simp only
    omega
  · obtain rfl := ht
    simp only
    omega

theorem Interval.pairwise_cut (r s : Interval) :
    (r.cut s).Pairwise fun t u => t.max + 1 < u.min := by
  unfold Interval.cut
  split_ifs <;> simp
  omega

theorem Maximal.flatMap_cut (h : Maximal rs) (r : Interval) : Maximal (rs.flatMap r.cut) where
  nonempty := by
    intro t ht
    obtain ⟨s, hs, ht⟩ := List.mem_flatMap.1 ht
    exact (Interval.mem_cut ht (h.nonempty s hs)).2.1
  inside := by
    intro t ht
    obtain ⟨s, hs, ht⟩ := List.mem_flatMap.1 ht
    exact Nat.le_trans (Interval.mem_cut ht (h.nonempty s hs)).2.2 (h.inside s hs)
  apart := by
    rw [List.pairwise_flatMap]
    refine ⟨fun s _ => Interval.pairwise_cut r s, h.apart.imp_of_mem ?_⟩
    intro s t hs ht hapart u hu v hv
    have hsu := Interval.mem_cut hu (h.nonempty s hs)
    have htv := Interval.mem_cut hv (h.nonempty t ht)
    omega

theorem maximal_complement (ranges : List Interval) : Maximal (complement ranges) := by
  have hfold : ∀ left, Maximal left →
      Maximal (ranges.foldl (fun left r => left.flatMap r.cut) left) := by
    induction ranges with
    | nil => exact fun _ h => h
    | cons r ranges ih => exact fun left h => ih _ (h.flatMap_cut r)
  exact hfold _ ⟨by simp, by simp, by simp⟩

theorem covers_complement_iff (hc : c ≤ maxCodePoint) :
    (∃ r ∈ complement ranges, c ∈ r) ↔ ¬ ∃ r ∈ ranges, c ∈ r := by
  simp [exists_mem_complement_iff, hc]

/-- Only the code points that are covered count. -/
theorem complement_congr {others : List Interval}
    (h : ∀ c ≤ maxCodePoint, (∃ r ∈ ranges, c ∈ r) ↔ ∃ r ∈ others, c ∈ r) :
    complement ranges = complement others := by
  apply (maximal_complement ranges).eq_of_covers_iff (maximal_complement others)
  intro c hc
  rw [covers_complement_iff hc, covers_complement_iff hc, h c hc]

theorem covers_complement_complement_iff (hc : c ≤ maxCodePoint) :
    (∃ r ∈ complement (complement ranges), c ∈ r) ↔ ∃ r ∈ ranges, c ∈ r := by
  rw [covers_complement_iff hc, covers_complement_iff hc, not_not]

/-! ### One pass over sorted intervals -/

/-- A sum of words, if it is a word. -/
def addWord? (m n : Nat) : Option Nat := if m + n < wordLimit then some (m + n) else none

def subWord? (m n : Nat) : Option Nat := if n ≤ m then some (m - n) else none

/-- The points from `next` on that are in front of an interval. -/
def gapBefore? (next : Nat) (r : Interval) : Option (List Interval) :=
  if next < r.min then (subWord? r.min 1).map fun last => [⟨next, last⟩] else some []

/-- What lies from a point on in front of, between and behind intervals that are sorted by their
first points; none if some number on the way is not a word. -/
def gapsFrom? : Nat → List Interval → Option (List Interval)
  | next, [] => some (if next ≤ maxCodePoint then [⟨next, maxCodePoint⟩] else [])
  | next, r :: rs => do
    let gap ← gapBefore? next r
    if maxCodePoint ≤ r.max then return gap
    else
      let behind ← addWord? r.max 1
      return gap ++ (← gapsFrom? (max next behind) rs)

/-- The intervals that hold code points, sorted by their first and then by their last points. -/
def inOrder (ranges : List Interval) : List Interval :=
  (ranges.filter fun r => r.min ≤ r.max && r.min ≤ maxCodePoint).mergeSort
    fun r s => r.min < s.min || r.min = s.min && r.max ≤ s.max

def gaps? (ranges : List Interval) : Option (List Interval) := gapsFrom? 0 (inOrder ranges)

theorem mem_inOrder : r ∈ inOrder ranges ↔ r ∈ ranges ∧ r.min ≤ r.max ∧ r.min ≤ maxCodePoint := by
  rw [inOrder, (List.mergeSort_perm _ _).mem_iff, List.mem_filter]
  simp

theorem pairwise_inOrder (ranges : List Interval) :
    (inOrder ranges).Pairwise fun r s => r.min ≤ s.min := by
  refine (List.pairwise_mergeSort ?_ ?_ _).imp fun {r s} h => ?_
  · simp only [Bool.or_eq_true, Bool.and_eq_true, decide_eq_true_eq]
    omega
  · simp only [Bool.or_eq_true, Bool.and_eq_true, decide_eq_true_eq]
    omega
  · simp only [Bool.or_eq_true, Bool.and_eq_true, decide_eq_true_eq] at h
    omega

theorem gapBefore?_eq (next : Nat) (r : Interval) :
    gapBefore? next r = some (if next < r.min then [⟨next, r.min - 1⟩] else []) := by
  unfold gapBefore?
  split_ifs with hnext
  · have hone : 1 ≤ r.min := Nat.one_le_of_lt hnext
    simp [subWord?, hone]
  · rfl

/-- The gaps from a point on cover what is behind it and in none of the intervals. -/
structure GapsFrom (next : Nat) (rs gaps : List Interval) : Prop where
  maximal : Maximal gaps
  le_min : ∀ g ∈ gaps, next ≤ g.min
  covers_iff : ∀ c, (∃ g ∈ gaps, c ∈ g) ↔ next ≤ c ∧ c ≤ maxCodePoint ∧ ∀ r ∈ rs, c ∉ r

theorem gapsFrom_nil (next : Nat) :
    GapsFrom next [] (if next ≤ maxCodePoint then [⟨next, maxCodePoint⟩] else []) := by
  split_ifs with hnext
  · exact ⟨⟨by simpa, by simp, by simp⟩, by simp, by simp [Interval.mem_iff]⟩
  · refine ⟨⟨by simp, by simp, by simp⟩, by simp, fun c => ?_⟩
    simp only [List.not_mem_nil, false_and, exists_false, false_iff]
    omega

/-- What is in front of an interval is a gap before the gaps behind it. -/
theorem GapsFrom.cons {next : Nat} {gaps : List Interval} (hr : r.min ≤ r.max)
    (hbegin : r.min ≤ maxCodePoint) (hrs : ∀ s ∈ rs, r.min ≤ s.min)
    (h : GapsFrom (max next (r.max + 1)) rs gaps) :
    GapsFrom next (r :: rs) ((if next < r.min then [⟨next, r.min - 1⟩] else []) ++ gaps) := by
  have hbehind : ∀ g ∈ gaps, next ≤ g.min ∧ r.max < g.min := fun g hg => by
    have := h.le_min g hg
    omega
  have hcovers : ∀ c, (∃ g ∈ gaps, c ∈ g) ↔
      next ≤ c ∧ c ≤ maxCodePoint ∧ c ∉ r ∧ r.min ≤ c ∧ ∀ s ∈ rs, c ∉ s := by
    intro c
    rw [h.covers_iff, Interval.mem_iff]
    constructor
    · rintro ⟨hnext, hc, hrest⟩
      exact ⟨by omega, hc, by omega, by omega, hrest⟩
    · rintro ⟨hnext, hc, hout, hmin, hrest⟩
      exact ⟨by omega, hc, hrest⟩
  by_cases hnext : next < r.min
  · rw [if_pos hnext, List.singleton_append]
    refine ⟨⟨?_, ?_, ?_⟩, ?_, fun c => ?_⟩
    · exact List.forall_mem_cons.2 ⟨by simp only; omega, h.maximal.nonempty⟩
    · exact List.forall_mem_cons.2 ⟨by simp only; omega, h.maximal.inside⟩
    · refine List.pairwise_cons.2 ⟨fun g hg => ?_, h.maximal.apart⟩
      have := (hbehind g hg).2
      simp only
      omega
    · exact List.forall_mem_cons.2 ⟨Nat.le_refl next, fun g hg => (hbehind g hg).1⟩
    · -- a point in front of the interval is in none of those behind it either
      have hfirst : ∀ s ∈ r :: rs, r.min ≤ s.min :=
        List.forall_mem_cons.2 ⟨Nat.le_refl _, hrs⟩
      have hfront : c < r.min → ∀ s ∈ r :: rs, c ∉ s := by
        intro hc s hs hcs
        have hle := hfirst s hs
        have hmin := (Interval.mem_iff.1 hcs).1
        omega
      rw [List.exists_mem_cons_iff, hcovers, Interval.mem_iff]
      constructor
      · rintro (⟨hle, hlt⟩ | ⟨hle, hc, hout, -, hrest⟩)
        · simp only at hle hlt
          exact ⟨hle, by omega, hfront (by omega)⟩
        · exact ⟨hle, hc, List.forall_mem_cons.2 ⟨hout, hrest⟩⟩
      · rintro ⟨hle, hc, hout⟩
        obtain ⟨hr, hrest⟩ := List.forall_mem_cons.1 hout
        rcases Nat.lt_or_ge c r.min with hlt | hge
        · exact Or.inl ⟨hle, by simp only; omega⟩
        · exact Or.inr ⟨hle, hc, hr, hge, hrest⟩
  · rw [if_neg hnext, List.nil_append]
    refine ⟨h.maximal, fun g hg => (hbehind g hg).1, fun c => ?_⟩
    rw [hcovers, List.forall_mem_cons]
    constructor
    · rintro ⟨hle, hc, hr, -, hrest⟩
      exact ⟨hle, hc, hr, hrest⟩
    · rintro ⟨hle, hc, hr, hrest⟩
      exact ⟨hle, hc, hr, by omega, hrest⟩

/-- No number on the way is more than a word. -/
theorem gapsFrom?_spec (hsorted : rs.Pairwise fun r s => r.min ≤ s.min)
    (hrs : ∀ r ∈ rs, r.min ≤ r.max ∧ r.min ≤ maxCodePoint) (next : Nat) :
    ∃ gaps, gapsFrom? next rs = some gaps ∧ GapsFrom next rs gaps := by
  induction rs generalizing next with
  | nil => exact ⟨_, rfl, gapsFrom_nil next⟩
  | cons r rs ih =>
    obtain ⟨hmin, hsorted⟩ := List.pairwise_cons.1 hsorted
    obtain ⟨⟨hr, hbegin⟩, hrs⟩ := List.forall_mem_cons.1 hrs
    rw [gapsFrom?, gapBefore?_eq]
    by_cases hend : maxCodePoint ≤ r.max
    · -- behind the last code point there are no gaps
      have hnone : GapsFrom (max next (r.max + 1)) rs [] := by
        refine ⟨⟨by simp, by simp, by simp⟩, by simp, fun c => ?_⟩
        simp only [List.not_mem_nil, false_and, exists_false, false_iff]
        omega
      have hcons := hnone.cons hr hbegin hmin
      rw [List.append_nil] at hcons
      exact ⟨_, by simp [hend], hcons⟩
    · have hword : addWord? r.max 1 = some (r.max + 1) := by
        have hlt : r.max + 1 < wordLimit := by
          unfold maxCodePoint at hend
          unfold wordLimit
          omega
        rw [addWord?, if_pos hlt]
      obtain ⟨gaps, hgaps, hspec⟩ := ih hsorted hrs (max next (r.max + 1))
      exact ⟨_, by simp [hend, hword, hgaps], hspec.cons hr hbegin hmin⟩

theorem gaps?_eq (ranges : List Interval) : gaps? ranges = some (complement ranges) := by
  obtain ⟨gaps, hgaps, hspec⟩ :=
    gapsFrom?_spec (pairwise_inOrder ranges) (fun _ hr => (mem_inOrder.1 hr).2) 0
  have heq : gaps = complement ranges := by
    apply hspec.maximal.eq_of_covers_iff (maximal_complement ranges)
    intro c hc
    -- an interval that is left out holds no code point
    have hsame : (∀ r ∈ inOrder ranges, c ∉ r) ↔ ∀ r ∈ ranges, c ∉ r := by
      refine ⟨fun h r hr hcr => ?_, fun h r hr => h r (mem_inOrder.1 hr).1⟩
      obtain ⟨hmin, hmax⟩ := Interval.mem_iff.1 hcr
      exact h r (mem_inOrder.2 ⟨hr, by omega, by omega⟩) hcr
    rw [hspec.covers_iff, exists_mem_complement_iff, hsame]
    simp
  rw [gaps?, hgaps, heq]

/-- The complement is the maximal intervals of the code points outside, whatever the given intervals
are like, and one pass finds it without leaving the words. It depends only on the code points that
are covered, and the complement of a complement is what they make up. -/
theorem complement_maximal (ranges : List Interval) :
    gaps? ranges = some (complement ranges) ∧ Maximal (complement ranges) ∧
      (∀ c ≤ maxCodePoint, (∃ r ∈ complement ranges, c ∈ r) ↔ ¬ ∃ r ∈ ranges, c ∈ r) ∧
      (∀ others : List Interval,
        (∀ c ≤ maxCodePoint, (∃ r ∈ ranges, c ∈ r) ↔ ∃ r ∈ others, c ∈ r) →
          complement ranges = complement others) ∧
      (∀ runs : List Interval, runs = complement (complement ranges) ↔
        Maximal runs ∧ ∀ c ≤ maxCodePoint, (∃ r ∈ runs, c ∈ r) ↔ ∃ r ∈ ranges, c ∈ r) ∧
      complement (complement (complement ranges)) = complement ranges := by
  refine ⟨gaps?_eq ranges, maximal_complement ranges, fun c hc => covers_complement_iff hc,
    fun others h => complement_congr h, fun runs => ⟨?_, ?_⟩,
    complement_congr fun c hc => covers_complement_complement_iff hc⟩
  · rintro rfl
    exact ⟨maximal_complement _, fun c hc => covers_complement_complement_iff hc⟩
  · rintro ⟨hruns, hcovers⟩
    apply hruns.eq_of_covers_iff (maximal_complement _)
    intro c hc
    rw [hcovers c hc, covers_complement_complement_iff hc]

/-- An interval inside another one, one next to it, an inverted one, and one that leaves the code
space. -/
def nestedAndClipped : List Interval :=
  [⟨123, 130⟩, ⟨97, 122⟩, ⟨100, 105⟩, ⟨9, 3⟩, ⟨1114110, 4294967295⟩]

def joinedAndClipped : List Interval := [⟨97, 130⟩, ⟨1114110, 1114111⟩]

theorem complement_maximal_nested :
    (∀ c ≤ maxCodePoint, (∃ r ∈ nestedAndClipped, c ∈ r) ↔ ∃ r ∈ joinedAndClipped, c ∈ r) ∧
      Maximal joinedAndClipped ∧
      complement nestedAndClipped = complement joinedAndClipped ∧
      joinedAndClipped = complement (complement nestedAndClipped) ∧
      complement nestedAndClipped = [⟨0, 96⟩, ⟨131, 1114109⟩] := by
  have hcovers : ∀ c ≤ maxCodePoint, (∃ r ∈ nestedAndClipped, c ∈ r) ↔
      ∃ r ∈ joinedAndClipped, c ∈ r := by
    intro c hc
    unfold maxCodePoint at hc
    simp only [nestedAndClipped, joinedAndClipped, List.exists_mem_cons_iff, Interval.mem_iff,
      List.not_mem_nil, false_and, exists_false, or_false]
    omega
  have hmaximal : Maximal joinedAndClipped := ⟨by decide, by decide, by decide⟩
  obtain ⟨-, -, -, hcongr, hruns, -⟩ := complement_maximal nestedAndClipped
  exact ⟨hcovers, hmaximal, hcongr _ hcovers,
    (hruns _).2 ⟨hmaximal, fun c hc => (hcovers c hc).symm⟩, by decide⟩

end SyntaxTables
