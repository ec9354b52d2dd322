import SyntaxTables.Proofs.Alphabet.Cells

/-!
# Sweeping over the ends of intervals

The cells can be found in one sweep: the points where an interval begins or has just ended are taken
in order, with a count of the intervals that are open, and each time something is open a cell ends
in front of the next point. What counts is open at a point exactly as often as intervals hold it, so
the sweep finds the pieces between neighbouring points that some interval covers.
-/

namespace SyntaxTables.Alphabet

variable {ranges : List Interval} {s : Interval}

/-- The points where an interval begins, and the ones behind their ends, each with its change to the
number of open intervals. -/
def ends (ranges : List Interval) : List (Nat × Int) :=
  (ranges.filter fun r => ¬ r.Inverted).flatMap fun r => [(r.min, 1), (r.max + 1, -1)]

/-- The cells found from a point on, where a number of intervals is open. At a point that several
intervals share only the first change can end a cell. The count is not bounded here; one of 32 bits
does as well unless 2³¹ intervals are open at once. -/
def sweepFrom : Int → Nat → List (Nat × Int) → List Interval
  | _, _, [] => []
  | count, last, (p, change) :: events =>
    (if 0 < count ∧ last < p then [⟨last, p - 1⟩] else []) ++ sweepFrom (count + change) p events

/-- How much the changes up to a point add up to. -/
def changeAt (events : List (Nat × Int)) (c : Nat) : Int :=
  ((events.filter fun e => e.1 ≤ c).map Prod.snd).sum

/-! ### What a sweep finds -/

theorem IsPiece.of_mem_iff {points points' : List Nat} (h : IsPiece points s)
    (hsame : ∀ p, p ∈ points ↔ p ∈ points') : IsPiece points' s :=
  ⟨(hsame _).1 h.min_mem, (hsame _).1 h.max_mem, h.nonempty,
    fun p hp => h.between p ((hsame p).2 hp)⟩

theorem IsPiece.le_min {p : Nat} {points : List Nat} (h : IsPiece (p :: points) s)
    (hpoints : ∀ q ∈ points, p ≤ q) : p ≤ s.min :=
  List.forall_mem_cons.2 ⟨Nat.le_refl p, hpoints⟩ _ h.min_mem

theorem changeAt_cons (e : Nat × Int) (events : List (Nat × Int)) (c : Nat) :
    changeAt (e :: events) c = (if e.1 ≤ c then e.2 else 0) + changeAt events c := by
  by_cases he : e.1 ≤ c <;> simp [changeAt, he]

theorem changeAt_eq_zero {events : List (Nat × Int)} {c : Nat} (h : ∀ e ∈ events, c < e.1) :
    changeAt events c = 0 := by
  have hnone : events.filter (fun e => e.1 ≤ c) = [] :=
    List.filter_eq_nil_iff.2 fun e he => by simpa using h e he
  rw [changeAt, hnone]
  rfl

/-- A sweep finds the pieces at whose beginning something is open. -/
theorem mem_sweepFrom {events : List (Nat × Int)} (hsorted : events.Pairwise fun e f => e.1 ≤ f.1)
    {count : Int} {last : Nat} (hlast : ∀ e ∈ events, last ≤ e.1) :
    s ∈ sweepFrom count last events ↔
      IsPiece (last :: events.map Prod.fst) s ∧ 0 < count + changeAt events s.min := by
  induction events generalizing count last with
  | nil =>
    constructor
    · exact fun hs => absurd hs List.not_mem_nil
    · exact fun hs => absurd hs.1 not_isPiece_singleton
  | cons e events ih =>
    obtain ⟨p, change⟩ := e
    obtain ⟨hp, hsorted⟩ := List.pairwise_cons.1 hsorted
    obtain ⟨hlastp, -⟩ := List.forall_mem_cons.1 hlast
    have hpoints : ∀ q ∈ events.map Prod.fst, p ≤ q := List.forall_mem_map.2 hp
    have hfront : last < p → changeAt events last = 0 :=
      fun hlt => changeAt_eq_zero fun e he => Nat.lt_of_lt_of_le hlt (hp e he)
    rw [sweepFrom, List.mem_append, ih hsorted hp, List.map_cons,
      isPiece_cons_cons hlastp hpoints, changeAt_cons]
    simp only [List.mem_ite_nil_right, List.mem_singleton]
    -- what begins at `last` is in front of all changes, and what begins later is behind this one
    constructor
    · rintro (⟨⟨hcount, hlt⟩, rfl⟩ | ⟨hpiece, hcount⟩)
      · refine ⟨Or.inl ⟨hlt, rfl⟩, ?_⟩
        rw [if_neg (Nat.not_le.2 hlt), hfront hlt]
        omega
      · have hmin : p ≤ s.min := hpiece.le_min hpoints
        refine ⟨Or.inr hpiece, ?_⟩
        rw [if_pos hmin]
        omega
    · rintro ⟨⟨hlt, rfl⟩ | hpiece, hcount⟩
      · rw [if_neg (Nat.not_le.2 hlt), hfront hlt] at hcount
        exact Or.inl ⟨⟨by omega, hlt⟩, rfl⟩
      · have hmin : p ≤ s.min := hpiece.le_min hpoints
        rw [if_pos hmin] at hcount
        exact Or.inr ⟨hpiece, by omega⟩

theorem pairwise_sweepFrom {events : List (Nat × Int)}
    (hsorted : events.Pairwise fun e f => e.1 ≤ f.1) {count : Int} {last : Nat}
    (hlast : ∀ e ∈ events, last ≤ e.1) :
    (sweepFrom count last events).Pairwise fun r s => r.min < s.min := by
  induction events generalizing count last with
  | nil => exact .nil
  | cons e events ih =>
    obtain ⟨p, change⟩ := e
    obtain ⟨hp, hsorted⟩ := List.pairwise_cons.1 hsorted
    rw [sweepFrom]
    split_ifs with hcell
    · refine List.pairwise_cons.2 ⟨fun s hs => ?_, ih hsorted hp⟩
      have hpiece := ((mem_sweepFrom hsorted hp).1 hs).1
      exact Nat.lt_of_lt_of_le hcell.2 (hpiece.le_min (List.forall_mem_map.2 hp))
    · exact ih hsorted hp

/-! ### The ends of intervals -/

theorem mem_ends {p : Nat} : p ∈ (ends ranges).map Prod.fst ↔ p ∈ cutPoints ranges := by
  rw [ends, List.map_flatMap]
  simp [mem_cutPoints, Interval.Inverted, and_assoc]

/-- As much is open at a point as intervals hold it. -/
theorem changeAt_ends (ranges : List Interval) (c : Nat) :
    changeAt (ends ranges) c = (ranges.countP fun r => c ∈ r : Nat) := by
  induction ranges with
  | nil => rfl
  | cons r ranges ih =>
    rw [List.countP_cons]
    by_cases hinverted : r.Inverted
    · have hnot : c ∉ r := by
        rw [Interval.mem_iff]
        unfold Interval.Inverted at hinverted
        omega
      have hends : ends (r :: ranges) = ends ranges := by simp [ends, hinverted]
      rw [hends, ih]
      simp [hnot]
    · have hends : ends (r :: ranges) = (r.min, 1) :: (r.max + 1, -1) :: ends ranges := by
        simp [ends, hinverted]
      have hle : r.min ≤ r.max := Nat.not_lt.1 hinverted
      rw [hends, changeAt_cons, changeAt_cons, ih]
      simp only [decide_eq_true_eq, Interval.mem_iff]
      split_ifs <;> omega

theorem changeAt_of_perm {events : List (Nat × Int)} (hperm : events.Perm (ends ranges)) (c : Nat) :
    changeAt events c = (ranges.countP fun r => c ∈ r : Nat) :=
  ((hperm.filter _).map _).sum_eq.trans (changeAt_ends ranges c)

/-- With zero as one more point there is no other piece, except one that begins there. -/
theorem isPiece_zero_cons_iff {points : List Nat} (h : s.min = 0 → 0 ∈ points) :
    IsPiece (0 :: points) s ↔ IsPiece points s := by
  constructor
  · intro hpiece
    refine ⟨?_, (List.mem_cons.1 hpiece.max_mem).resolve_left (Nat.succ_ne_zero _),
      hpiece.nonempty, (List.forall_mem_cons.1 hpiece.between).2⟩
    rcases List.mem_cons.1 hpiece.min_mem with hmin | hmin
    · exact hmin ▸ h hmin
    · exact hmin
  · intro hpiece
    exact ⟨List.mem_cons_of_mem _ hpiece.min_mem, List.mem_cons_of_mem _ hpiece.max_mem,
      hpiece.nonempty, List.forall_mem_cons.2 ⟨Or.inl (Nat.zero_le _), hpiece.between⟩⟩

theorem pairwise_cells (ranges : List Interval) :
    (ofRanges ranges).cells.toList.Pairwise fun r s => r.min < s.min := by
  have hcuts := pairwise_cutPoints ranges
  refine List.Pairwise.filter _ ((pairwise_pieces hcuts).imp_of_mem fun hr _ hlt => ?_)
  exact Nat.lt_of_le_of_lt ((mem_pieces_iff hcuts).1 hr).nonempty hlt

/-- In whichever order the ends at one point are taken, the sweep finds the cells. -/
theorem sweepFrom_eq_cells {events : List (Nat × Int)} (hperm : events.Perm (ends ranges))
    (hsorted : events.Pairwise fun e f => e.1 ≤ f.1) :
    sweepFrom 0 0 events = (ofRanges ranges).cells.toList := by
  have hpoints : ∀ p, p ∈ events.map Prod.fst ↔ p ∈ cutPoints ranges :=
    fun p => ((hperm.map Prod.fst).mem_iff).trans mem_ends
  have hopen : ∀ c, 0 < changeAt events c ↔ ∃ r ∈ ranges, c ∈ r := by
    intro c
    rw [changeAt_of_perm hperm, Int.natCast_pos, List.countP_pos_iff]
    simp
  have : Std.Irrefl fun r s : Interval => r.min < s.min := ⟨fun r => Nat.lt_irrefl r.min⟩
  have : Std.Antisymm fun r s : Interval => r.min < s.min :=
    ⟨fun _ _ hrs hsr => absurd hrs (Nat.lt_asymm hsr)⟩
  apply List.Pairwise.eq_of_mem_iff (pairwise_sweepFrom hsorted fun _ _ => Nat.zero_le _)
    (pairwise_cells ranges)
  intro s
  rw [mem_sweepFrom hsorted fun _ _ => Nat.zero_le _, Array.mem_toList_iff, mem_cells_ofRanges,
    Int.zero_add, hopen]
  refine and_congr_left ?_
  rintro ⟨r, hr, hmem⟩
  obtain ⟨hmin, hmax⟩ := Interval.mem_iff.1 hmem
  have hbegin := (hpoints r.min).2 (mem_cutPoints.2 ⟨r, hr, Nat.le_trans hmin hmax, Or.inl rfl⟩)
  rw [isPiece_zero_cons_iff fun hzero => (show r.min = 0 by omega) ▸ hbegin]
  exact ⟨fun h => h.of_mem_iff hpoints, fun h => h.of_mem_iff fun p => (hpoints p).symm⟩

/-! ### Counts of 32 bits -/

/-- The sweep with a signed count of 32 bits, which wraps around. -/
def sweepWrappedFrom : Int → Nat → List (Nat × Int) → List Interval
  | _, _, [] => []
  | count, last, (p, change) :: events =>
    (if 0 < count ∧ last < p then [⟨last, p - 1⟩] else []) ++
      sweepWrappedFrom ((count + change).bmod wordLimit) p events

/-- The count matters only in front of a next point, and there it has not wrapped around. -/
theorem sweepWrappedFrom_eq {events : List (Nat × Int)}
    (hsorted : events.Pairwise fun e f => e.1 ≤ f.1) {count : Int} {last : Nat}
    (hlast : ∀ e ∈ events, last ≤ e.1)
    (hcount : ∀ c, last ≤ c → 0 ≤ count + changeAt events c ∧ count + changeAt events c < 2 ^ 31) :
    sweepWrappedFrom (count.bmod wordLimit) last events = sweepFrom count last events := by
  induction events generalizing count last with
  | nil => rfl
  | cons e events ih =>
    obtain ⟨p, change⟩ := e
    obtain ⟨hp, hsorted⟩ := List.pairwise_cons.1 hsorted
    rw [sweepWrappedFrom, sweepFrom, Int.bmod_add_bmod]
    congr 1
    · refine if_congr (and_congr_left fun hlt => ?_) rfl rfl
      have hlater : ∀ e ∈ (p, change) :: events, last < e.1 :=
        List.forall_mem_cons.2 ⟨hlt, fun e he => Nat.lt_of_lt_of_le hlt (hp e he)⟩
      have hbounds := hcount last (Nat.le_refl last)
      rw [changeAt_eq_zero hlater] at hbounds
      rw [Int.bmod_eq_of_le] <;> simp only [wordLimit] <;> omega
    · refine ih hsorted hp fun c hc => ?_
      have hchange := hcount c (Nat.le_trans (List.forall_mem_cons.1 hlast).1 hc)
      rw [changeAt_cons, if_pos hc] at hchange
      rwa [Int.add_assoc]

/-- A signed count of 32 bits does as long as fewer than 2³¹ intervals are open at once. -/
theorem sweepWrappedFrom_eq_cells {events : List (Nat × Int)} (hperm : events.Perm (ends ranges))
    (hsorted : events.Pairwise fun e f => e.1 ≤ f.1)
    (hopen : ∀ c, ranges.countP (fun r => c ∈ r) < 2 ^ 31) :
    sweepWrappedFrom 0 0 events = (ofRanges ranges).cells.toList := by
  have hwrapped : sweepWrappedFrom (Int.bmod 0 wordLimit) 0 events = sweepFrom 0 0 events := by
    refine sweepWrappedFrom_eq hsorted (fun _ _ => Nat.zero_le _) fun c _ => ?_
    have hbound := hopen c
    rw [changeAt_of_perm hperm]
    omega
  exact hwrapped.trans (sweepFrom_eq_cells hperm hsorted)

/-- The alphabet of any intervals, in any order, is the coarsest partition of what they cover. A
sweep finds it, a stored run is the computed one, and only the intervals that hold points count. -/
theorem ofRanges_coarsest (ranges : List Interval) :
    Partitions ranges (ofRanges ranges) ∧
      (∀ events, events.Perm (ends ranges) → (events.Pairwise fun e f => e.1 ≤ f.1) →
        sweepFrom 0 0 events = (ofRanges ranges).cells.toList) ∧
      (∀ r, expandStored ranges r = (ofRanges ranges).expand r) ∧
      ∀ ranges' : List Interval,
        (∀ r : Interval, ¬ r.Inverted → (r ∈ ranges ↔ r ∈ ranges')) →
          ofRanges ranges = ofRanges ranges' ∧ splits ranges = splits ranges' :=
  ⟨partitions_ofRanges ranges, fun _ => sweepFrom_eq_cells, expandStored_eq ranges,
    fun _ h => ⟨ofRanges_congr h, splits_congr h⟩⟩

/-- A repeated interval that shares points with one up to the largest word, one that adjoins both, a
single point and an inverted one. -/
def overlapping : List Interval :=
  [⟨97, 122⟩, ⟨101, 4294967295⟩, ⟨97, 122⟩, ⟨123, 200⟩, ⟨9, 3⟩, ⟨5, 5⟩]

/-- The longest interval is filled by three cells. Without the inverted and the repeated one, and in
another order, the alphabet is the same. -/
theorem ofRanges_coarsest_overlapping :
    (ofRanges overlapping).cells =
        #[⟨5, 5⟩, ⟨97, 100⟩, ⟨101, 122⟩, ⟨123, 200⟩, ⟨201, 4294967295⟩] ∧
      (ofRanges overlapping).Tiles 101 4294967295 [2, 3, 4] ∧
      (¬ ∃ i, (ofRanges overlapping).symbolOf? 6 = some i) ∧
      sweepFrom 0 0 [(5, 1), (6, -1), (97, 1), (97, 1), (101, 1), (123, -1), (123, -1), (123, 1),
        (201, -1), (4294967296, -1)] = (ofRanges overlapping).cells.toList ∧
      ofRanges overlapping =
        ofRanges [⟨5, 5⟩, ⟨123, 200⟩, ⟨97, 122⟩, ⟨101, 4294967295⟩] := by
  obtain ⟨hpartitions, hsweep, -, hcongr⟩ := ofRanges_coarsest overlapping
  refine ⟨by decide +kernel, ?_, ?_, hsweep _ (by decide +kernel) (by decide), ?_⟩
  · have hrun : (ofRanges overlapping).expand ⟨101, 4294967295⟩ = [2, 3, 4] := by decide +kernel
    exact hrun ▸ hpartitions.tiles ⟨101, 4294967295⟩ (by decide) (by decide)
  · rw [hpartitions.covered_iff]
    decide
  · have hkept : ∀ r ∈ overlapping, ¬ r.Inverted →
        r ∈ [⟨5, 5⟩, ⟨123, 200⟩, ⟨97, 122⟩, ⟨101, 4294967295⟩] := by decide
    have hgiven : ∀ r ∈ [⟨5, 5⟩, ⟨123, 200⟩, ⟨97, 122⟩, ⟨101, 4294967295⟩], r ∈ overlapping := by
      decide
    exact (hcongr _ fun r hr => ⟨fun h => hkept r h hr, hgiven r⟩).1

end SyntaxTables.Alphabet
