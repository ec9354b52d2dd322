import Mathlib.Tactic
import SyntaxTables.Alphabet
import SyntaxTables.Proofs.Ascending

/-!
# The cells of an alphabet

Bisection finds the end of the initial part on which a predicate holds. The cells of a built
alphabet are ascending and disjoint, so a code point has the symbol of the only cell that holds it,
and an interval that the alphabet was cut along is the union of the cells inside.
-/

namespace SyntaxTables

namespace Bisection

variable {α : Type} {p : α → Bool} {xs : Array α}

theorem narrow_spec {k : Nat} (hk : ∀ i, holdsAt p xs i = true ↔ i < k) {steps base size : Nat}
    (hsteps : size ≤ steps) (hlow : base ≤ k) (hhigh : k ≤ base + size) :
    narrow p xs steps base size ≤ k ∧ k ≤ narrow p xs steps base size + 1 := by
  induction steps generalizing base size with
  | zero =>
    rw [narrow]
    omega
  | succ steps ih =>
    rw [narrow]
    split_ifs with hsize
    · omega
    · have hhalf := hk (base + size / 2)
      by_cases hholds : holdsAt p xs (base + size / 2) = true
      · have hlt := hhalf.1 hholds
        simp only [if_pos hholds]
        exact ih (by omega) (by omega) (by omega)
      · have hnot := hhalf.not.1 hholds
        simp only [if_neg hholds]
        exact ih (by omega) (by omega) (by omega)

theorem partitionPoint_eq {k : Nat} (hk : ∀ i, holdsAt p xs i = true ↔ i < k) :
    partitionPoint p xs = k := by
  have hle : k ≤ xs.size := by
    by_contra hlt
    have hholds := (hk xs.size).2 (Nat.not_le.1 hlt)
    simp [holdsAt] at hholds
  have hnarrow := narrow_spec hk (Nat.le_refl xs.size) (Nat.zero_le k) (by omega)
  unfold partitionPoint
  simp only
  split_ifs with hholds <;> rw [hk] at hholds <;> omega

/-- A predicate that holds on an initial part holds exactly in front of the place found. -/
theorem lt_partitionPoint_iff (h : ∀ i j, i ≤ j → holdsAt p xs j = true → holdsAt p xs i = true)
    {i : Nat} : i < partitionPoint p xs ↔ holdsAt p xs i = true := by
  have hex : ∃ i, ¬ holdsAt p xs i = true := ⟨xs.size, by simp [holdsAt]⟩
  have hk : ∀ i, holdsAt p xs i = true ↔ i < Nat.find hex := by
    intro i
    constructor
    · intro hi
      by_contra hlt
      exact Nat.find_spec hex (h _ i (Nat.not_lt.1 hlt) hi)
    · intro hi
      by_contra hnot
      exact absurd (Nat.find_min' hex hnot) (Nat.not_le.2 hi)
  rw [partitionPoint_eq hk, hk]

end Bisection

namespace Alphabet

open Bisection

variable {a : Alphabet}

/-- The cells are not empty, ascending and disjoint. -/
structure Ordered (a : Alphabet) : Prop where
  nonempty : ∀ {i : Nat} {r : Interval}, a.cells[i]? = some r → r.min ≤ r.max
  ascending : ∀ {i j : Nat} {r s : Interval}, i < j → a.cells[i]? = some r →
    a.cells[j]? = some s → r.max < s.min

theorem holdsAt_iff {p : Interval → Bool} {i : Nat} :
    holdsAt p a.cells i = true ↔ ∃ r, a.cells[i]? = some r ∧ p r = true := by
  cases h : a.cells[i]? <;> simp [holdsAt, h]

theorem Ordered.exists_cell (h : a.Ordered) {i j : Nat} (hij : i < j) {s : Interval}
    (hs : a.cells[j]? = some s) : ∃ r, a.cells[i]? = some r ∧ r.min ≤ r.max ∧ r.max < s.min := by
  obtain ⟨hlt, -⟩ := Array.getElem?_eq_some_iff.1 hs
  have hr : a.cells[i]? = some a.cells[i] := Array.getElem?_eq_getElem (by omega)
  exact ⟨_, hr, h.nonempty hr, h.ascending hij hr hs⟩

theorem Ordered.lt_partitionPoint_iff (h : a.Ordered) {p : Interval → Bool}
    (hp : ∀ r s : Interval, r.min ≤ r.max → r.max < s.min → s.min ≤ s.max → p s = true → p r = true)
    {i : Nat} : i < partitionPoint p a.cells ↔ ∃ r, a.cells[i]? = some r ∧ p r = true := by
  rw [Bisection.lt_partitionPoint_iff, holdsAt_iff]
  intro i j hij hj
  obtain ⟨s, hs, hps⟩ := holdsAt_iff.1 hj
  rcases Nat.lt_or_eq_of_le hij with hij | rfl
  · obtain ⟨r, hr, hne, hlt⟩ := h.exists_cell hij hs
    exact holdsAt_iff.2 ⟨r, hr, hp r s hne hlt (h.nonempty hs) hps⟩
  · exact hj

theorem Ordered.symbolOf?_eq_some_iff (h : a.Ordered) {c i : Nat} :
    a.symbolOf? c = some i ↔ ∃ r, a.cells[i]? = some r ∧ c ∈ r := by
  have hbefore : ∀ i, i < partitionPoint (fun r => r.max < c) a.cells ↔
      ∃ r, a.cells[i]? = some r ∧ r.max < c := by
    intro i
    rw [h.lt_partitionPoint_iff]
    · simp
    · intro r s
      simp only [decide_eq_true_eq]
      omega
  have hsymbol : a.symbolOf? c = some i ↔
      i = partitionPoint (fun r => r.max < c) a.cells ∧ ∃ r, a.cells[i]? = some r ∧ c ∈ r := by
    unfold symbolOf?
    simp only
    cases hcell : a.cells[partitionPoint (fun r => decide (r.max < c)) a.cells]? with
    | none => grind
    | some r =>
      simp only
      split_ifs <;> grind
  rw [hsymbol, and_iff_right_of_imp]
  rintro ⟨r, hr, hc⟩
  obtain ⟨hmin, hmax⟩ := Interval.mem_iff.1 hc
  rcases Nat.lt_trichotomy i (partitionPoint (fun r => r.max < c) a.cells) with hlt | heq | hlt
  · obtain ⟨s, hs, hsc⟩ := (hbefore i).1 hlt
    obtain rfl := Option.some.inj (hr.symm.trans hs)
    omega
  · exact heq
  · obtain ⟨s, hs, -, hsr⟩ := h.exists_cell hlt hr
    exact absurd ((hbefore _).2 ⟨s, hs, by omega⟩) (Nat.lt_irrefl _)

theorem Ordered.mem_expand (h : a.Ordered) {r : Interval} {i : Nat} :
    i ∈ a.expand r ↔ ∃ s, a.cells[i]? = some s ∧ r.min ≤ s.min ∧ s.max ≤ r.max := by
  have hfirst : i < partitionPoint (fun s => s.min < r.min) a.cells ↔
      ∃ s, a.cells[i]? = some s ∧ s.min < r.min := by
    rw [h.lt_partitionPoint_iff]
    · simp
    · intro s t
      simp only [decide_eq_true_eq]
      omega
  have hlast : i < partitionPoint (fun s => s.max ≤ r.max) a.cells ↔
      ∃ s, a.cells[i]? = some s ∧ s.max ≤ r.max := by
    rw [h.lt_partitionPoint_iff]
    · simp
    · intro s t
      simp only [decide_eq_true_eq]
      omega
  unfold expand span
  split_ifs with hinv
  · simp only [Nat.sub_self, List.range'_zero, List.not_mem_nil, false_iff]
    rintro ⟨s, hs, hmin, hmax⟩
    have hne := h.nonempty hs
    unfold Interval.Inverted at hinv
    omega
  · simp only [List.mem_range'_1]
    constructor
    · rintro ⟨hge, hlt⟩
      obtain ⟨s, hs, hmax⟩ := hlast.1 (by omega)
      refine ⟨s, hs, ?_, hmax⟩
      by_contra hmin
      exact absurd (hfirst.2 ⟨s, hs, Nat.not_le.1 hmin⟩) (Nat.not_lt.2 hge)
    · rintro ⟨s, hs, hmin, hmax⟩
      have hlt := hlast.2 ⟨s, hs, hmax⟩
      have hge : ¬ i < partitionPoint (fun s => s.min < r.min) a.cells := by
        rw [hfirst]
        rintro ⟨t, ht, hlt⟩
        obtain rfl := Option.some.inj (hs.symm.trans ht)
        omega
      omega

/-! ### Cutting -/

theorem pieces_cons (p : Nat) (cuts : List Nat) :
    pieces (p :: cuts) = match cuts with
      | [] => []
      | q :: _ => ⟨p, q - 1⟩ :: pieces cuts := by
  cases cuts <;> rfl

/-- An interval from one of some points to another one, with none in between. -/
structure IsPiece (points : List Nat) (s : Interval) : Prop where
  min_mem : s.min ∈ points
  max_mem : s.max + 1 ∈ points
  nonempty : s.min ≤ s.max
  between : ∀ p ∈ points, p ≤ s.min ∨ s.max < p

theorem isPiece_cons_cons {points : List Nat} {s : Interval} {last p : Nat} (hlast : last ≤ p)
    (hp : ∀ q ∈ points, p ≤ q) :
    IsPiece (last :: p :: points) s ↔ last < p ∧ s = ⟨last, p - 1⟩ ∨ IsPiece (p :: points) s := by
  have hfollow : ∀ q ∈ p :: points, p ≤ q := List.forall_mem_cons.2 ⟨Nat.le_refl _, hp⟩
  constructor
  · intro h
    have hle : last ≤ s.min := List.forall_mem_cons.2 ⟨Nat.le_refl last,
      fun q hq => Nat.le_trans hlast (hfollow q hq)⟩ _ h.min_mem
    have hne : s.max + 1 ≠ last := by
      have hnonempty := h.nonempty
      omega
    have hmax := (List.mem_cons.1 h.max_mem).resolve_left hne
    have hbetween := (List.forall_mem_cons.1 h.between).2
    -- the first point may be repeated, so it is not told apart by where the piece begins
    by_cases hmin : s.min ∈ p :: points
    · exact Or.inr ⟨hmin, hmax, h.nonempty, hbetween⟩
    · have hminlast := (List.mem_cons.1 h.min_mem).resolve_right hmin
      have hlt : last < p := by
        rcases Nat.eq_or_lt_of_le hlast with rfl | hlt
        · exact absurd (hminlast ▸ List.mem_cons_self) hmin
        · exact hlt
      have hend := hfollow _ hmax
      have hp := hbetween p List.mem_cons_self
      refine Or.inl ⟨hlt, ?_⟩
      rw [← hminlast, show p - 1 = s.max by omega]
  · rintro (⟨hlt, rfl⟩ | h)
    · refine ⟨List.mem_cons_self, ?_, Nat.le_sub_one_of_lt hlt,
        List.forall_mem_cons.2 ⟨Or.inl (Nat.le_refl _), fun q hq => Or.inr ?_⟩⟩
      · rw [show p - 1 + 1 = p by omega]
        exact List.mem_cons_of_mem _ List.mem_cons_self
      · have hpq := hfollow q hq
        simp only
        omega
    · have hmin := hfollow _ h.min_mem
      exact ⟨List.mem_cons_of_mem _ h.min_mem, List.mem_cons_of_mem _ h.max_mem, h.nonempty,
        List.forall_mem_cons.2 ⟨Or.inl (Nat.le_trans hlast hmin), h.between⟩⟩

theorem not_isPiece_singleton {p : Nat} {s : Interval} : ¬ IsPiece [p] s := by
  intro h
  have hmin := List.mem_singleton.1 h.min_mem
  have hmax := List.mem_singleton.1 h.max_mem
  have hle := h.nonempty
  omega

theorem mem_pieces_iff {cuts : List Nat} {s : Interval} (h : cuts.Pairwise (· < ·)) :
    s ∈ pieces cuts ↔ IsPiece cuts s := by
  induction cuts with
  | nil =>
    constructor
    · exact fun hs => absurd hs List.not_mem_nil
    · exact fun hs => absurd hs.min_mem List.not_mem_nil
  | cons p cuts ih =>
    obtain ⟨hp, hcuts⟩ := List.pairwise_cons.1 h
    rw [pieces_cons]
    cases cuts with
    | nil => simpa using not_isPiece_singleton
    | cons q cuts =>
      have hpq := hp q List.mem_cons_self
      have hq := fun c hc => Nat.le_of_lt ((List.pairwise_cons.1 hcuts).1 c hc)
      rw [isPiece_cons_cons (Nat.le_of_lt hpq) hq, ← ih hcuts, List.mem_cons,
        and_iff_right hpq]

theorem pairwise_pieces {cuts : List Nat} (h : cuts.Pairwise (· < ·)) :
    (pieces cuts).Pairwise fun r s => r.max < s.min := by
  induction cuts with
  | nil => exact List.Pairwise.nil
  | cons p cuts ih =>
    obtain ⟨hp, hcuts⟩ := List.pairwise_cons.1 h
    rw [pieces_cons]
    cases cuts with
    | nil => exact List.Pairwise.nil
    | cons q rest =>
      refine List.pairwise_cons.2 ⟨?_, ih hcuts⟩
      intro s hs
      have hpq := hp q List.mem_cons_self
      have hmin := ((mem_pieces_iff hcuts).1 hs).min_mem
      rcases List.mem_cons.1 hmin with he | hmin
      · simp only [he]
        omega
      · have hqs := (List.pairwise_cons.1 hcuts).1 _ hmin
        simp only
        omega

/-- Between two cut points all is covered by pieces. -/
theorem exists_mem_pieces {cuts : List Nat} (h : cuts.Pairwise (· < ·)) {c lo hi : Nat}
    (hlo : lo ∈ cuts) (hhi : hi ∈ cuts) (hlc : lo ≤ c) (hch : c < hi) :
    ∃ s ∈ pieces cuts, c ∈ s := by
  induction cuts generalizing lo with
  | nil => simp at hlo
  | cons p cuts ih =>
    obtain ⟨hp, hcuts⟩ := List.pairwise_cons.1 h
    rw [pieces_cons]
    cases cuts with
    | nil =>
      rw [List.mem_singleton] at hlo hhi
      omega
    | cons q rest =>
      by_cases hcq : c < q
      · refine ⟨_, List.mem_cons_self, Interval.mem_iff.2 ⟨?_, Nat.le_sub_one_of_lt hcq⟩⟩
        rcases List.mem_cons.1 hlo with rfl | hlo
        · exact hlc
        · exact Nat.le_trans (Nat.le_of_lt (hp _ hlo)) hlc
      · have hhi' : hi ∈ q :: rest := by
          rcases List.mem_cons.1 hhi with rfl | hhi
          · have hpq := hp q List.mem_cons_self
            omega
          · exact hhi
        obtain ⟨s, hs, hcs⟩ := ih hcuts List.mem_cons_self hhi' (Nat.not_lt.1 hcq)
        exact ⟨s, List.mem_cons_of_mem _ hs, hcs⟩

theorem pairwise_cutPoints (ranges : List Interval) : (cutPoints ranges).Pairwise (· < ·) :=
  (Ascending.pairwise_ofList _).imp Nat.compare_eq_lt.1

theorem mem_cutPoints {ranges : List Interval} {p : Nat} :
    p ∈ cutPoints ranges ↔ ∃ r ∈ ranges, r.min ≤ r.max ∧ (p = r.min ∨ p = r.max + 1) := by
  simp [cutPoints, Interval.Inverted, and_assoc]

/-- No interval begins or ends inside a piece. -/
theorem IsPiece.mem_iff {ranges : List Interval} {r s : Interval} (h : IsPiece (cutPoints ranges) s)
    (hr : r ∈ ranges) {c : Nat} (hc : c ∈ s) : c ∈ r ↔ s.min ∈ r := by
  obtain ⟨hmin, hmax⟩ := Interval.mem_iff.1 hc
  rw [Interval.mem_iff, Interval.mem_iff]
  by_cases hle : r.min ≤ r.max
  · have hlow := h.between _ (mem_cutPoints.2 ⟨r, hr, hle, Or.inl rfl⟩)
    have hhigh := h.between _ (mem_cutPoints.2 ⟨r, hr, hle, Or.inr rfl⟩)
    omega
  · omega

/-- The cells are the pieces that some interval covers. -/
theorem mem_cells_ofRanges {ranges : List Interval} {s : Interval} :
    s ∈ (ofRanges ranges).cells ↔ IsPiece (cutPoints ranges) s ∧ ∃ r ∈ ranges, s.min ∈ r := by
  simp [ofRanges, mem_pieces_iff (pairwise_cutPoints ranges)]

theorem ordered_ofRanges (ranges : List Interval) : (ofRanges ranges).Ordered := by
  have hcuts := pairwise_cutPoints ranges
  constructor
  · intro i r hr
    exact (mem_cells_ofRanges.1 (Array.mem_of_getElem? hr)).1.nonempty
  · intro i j r s hij hr hs
    have hpairwise := (pairwise_pieces hcuts).filter fun s => ranges.any fun r => s.min ∈ r
    simp only [ofRanges, List.getElem?_toArray] at hr hs
    obtain ⟨hi, rfl⟩ := List.getElem?_eq_some_iff.1 hr
    obtain ⟨hj, rfl⟩ := List.getElem?_eq_some_iff.1 hs
    exact List.pairwise_iff_getElem.1 hpairwise i j hi hj hij

/-- The alphabet was cut along an interval: each of its points has a symbol that lies inside. -/
def Respects (a : Alphabet) (r : Interval) : Prop :=
  ∀ c, c ∈ r ↔ ∃ i ∈ a.expand r, a.symbolOf? c = some i

theorem respects_ofRanges {ranges : List Interval} {r : Interval} (hr : r ∈ ranges) :
    (ofRanges ranges).Respects r := by
  have hordered := ordered_ofRanges ranges
  have hcuts := pairwise_cutPoints ranges
  intro c
  constructor
  · intro hc
    obtain ⟨hmin, hmax⟩ := Interval.mem_iff.1 hc
    have hle := Nat.le_trans hmin hmax
    have hlo : r.min ∈ cutPoints ranges := mem_cutPoints.2 ⟨r, hr, hle, Or.inl rfl⟩
    have hhi : r.max + 1 ∈ cutPoints ranges := mem_cutPoints.2 ⟨r, hr, hle, Or.inr rfl⟩
    obtain ⟨s, hs, hcs⟩ := exists_mem_pieces hcuts hlo hhi hmin (by omega)
    have hpiece := (mem_pieces_iff hcuts).1 hs
    have hbegin : s.min ∈ r := (hpiece.mem_iff hr hcs).1 hc
    have hend : s.max ∈ r :=
      (hpiece.mem_iff hr (Interval.mem_iff.2 ⟨hpiece.nonempty, Nat.le_refl _⟩)).2 hbegin
    have hinside : r.min ≤ s.min ∧ s.max ≤ r.max :=
      ⟨(Interval.mem_iff.1 hbegin).1, (Interval.mem_iff.1 hend).2⟩
    have hcell : s ∈ (ofRanges ranges).cells := mem_cells_ofRanges.2 ⟨hpiece, r, hr, hbegin⟩
    obtain ⟨i, hi⟩ := Array.mem_iff_getElem?.1 hcell
    exact ⟨i, hordered.mem_expand.2 ⟨s, hi, hinside⟩, hordered.symbolOf?_eq_some_iff.2 ⟨s, hi, hcs⟩⟩
  · rintro ⟨i, hi, hc⟩
    obtain ⟨s, hs, hmin, hmax⟩ := hordered.mem_expand.1 hi
    obtain ⟨t, ht, hct⟩ := hordered.symbolOf?_eq_some_iff.1 hc
    obtain rfl := Option.some.inj (hs.symm.trans ht)
    obtain ⟨hsmin, hsmax⟩ := Interval.mem_iff.1 hct
    exact Interval.mem_iff.2 ⟨by omega, by omega⟩

end Alphabet

theorem exists_mem_complement_iff {ranges : List Interval} {c : Nat} :
    (∃ r ∈ complement ranges, c ∈ r) ↔ c ≤ maxCodePoint ∧ ∀ r ∈ ranges, c ∉ r := by
  have hfold : ∀ (left : List Interval),
      (∃ r ∈ ranges.foldl (fun left r => left.flatMap r.cut) left, c ∈ r) ↔
        (∃ r ∈ left, c ∈ r) ∧ ∀ r ∈ ranges, c ∉ r := by
    induction ranges with
    | nil => simp
    | cons r ranges ih =>
      intro left
      have hcut : (∃ s ∈ left.flatMap r.cut, c ∈ s) ↔ (∃ s ∈ left, c ∈ s) ∧ c ∉ r := by
        simp only [List.mem_flatMap]
        constructor
        · rintro ⟨t, ⟨s, hs, ht⟩, hc⟩
          obtain ⟨hcs, hcr⟩ := Interval.exists_mem_cut_iff.1 ⟨t, ht, hc⟩
          exact ⟨⟨s, hs, hcs⟩, hcr⟩
        · rintro ⟨⟨s, hs, hcs⟩, hcr⟩
          obtain ⟨t, ht, hc⟩ := Interval.exists_mem_cut_iff.2 ⟨hcs, hcr⟩
          exact ⟨t, ⟨s, hs, ht⟩, hc⟩
      rw [List.foldl_cons, ih, hcut, List.forall_mem_cons, and_assoc]
  rw [complement, hfold]
  simp [Interval.mem_iff]

end SyntaxTables
