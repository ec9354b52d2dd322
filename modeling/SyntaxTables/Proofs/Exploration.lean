import Mathlib.Data.List.Forall2
import Mathlib.Logic.Relation
import Mathlib.Tactic.Common
import SyntaxTables.Exploration

/-!
# What the searches find

A search is told by the set of nodes it answers, which is the set of nodes reachable from the seeds,
and by the number of each node, which is its place in the answer. Both hold as soon as the bound on
the work is large enough; for a breadth-first search it is enough to count the nodes with successors
behind the seeds.
-/

namespace SyntaxTables.Exploration

open Std (TreeMap TreeSet TransOrd LawfulEqOrd)

/-- There is a path from the first node to the second. -/
abbrev Reaches {α : Type} (successors : α → List α) : α → α → Prop :=
  Relation.ReflTransGen fun x y => y ∈ successors x

theorem countP_lt_countP {α : Type} {p q : α → Bool} {xs : List α} {x : α} (hx : x ∈ xs)
    (hp : p x = false) (hq : q x = true) (h : ∀ y, p y = true → q y = true) :
    xs.countP p < xs.countP q := by
  obtain ⟨front, back, rfl⟩ := List.append_of_mem hx
  have hf := List.countP_mono_left (l := front) fun y _ => h y
  have hb := List.countP_mono_left (l := back) fun y _ => h y
  simp only [List.countP_append, List.countP_cons, hp, hq]
  grind

variable {α : Type} [Ord α] {successors : α → List α}

/-! ### Noting nodes -/

theorem Findings.mem_latest_note {f : Findings α} {x y : α} :
    y ∈ (f.note x).latest ↔ y ∈ f.latest ∨ y = x ∧ x ∉ f.known := by
  unfold note
  split_ifs with h
  · have : x ∈ f.known := h
    simp [this]
  · have : x ∉ f.known := h
    simp [this, or_comm]

theorem Findings.exists_latest_foldl_note (f : Findings α) (xs : List α) :
    ∃ ys : List α, ys.Sublist xs ∧ (xs.foldl note f).latest = ys.reverse ++ f.latest := by
  induction xs generalizing f with
  | nil => exact ⟨[], .slnil, rfl⟩
  | cons x xs ih =>
    obtain ⟨ys, hsub, hlatest⟩ := ih (f.note x)
    rw [List.foldl_cons, hlatest]
    unfold note
    split_ifs
    · exact ⟨ys, hsub.cons x, rfl⟩
    · exact ⟨x :: ys, hsub.cons_cons x, by simp⟩

theorem distinct_sublist (xs : List α) : (distinct xs).Sublist xs := by
  obtain ⟨ys, hsub, hlatest⟩ := Findings.exists_latest_foldl_note ⟨[], ∅⟩ xs
  rw [distinct, fresh, hlatest]
  simpa using hsub

theorem getElem?_zero_distinct (x : α) (xs : List α) : (distinct (x :: xs))[0]? = some x := by
  have hnote : Findings.note ⟨[], ∅⟩ x = ⟨[x], (∅ : TreeSet α).insert x⟩ := by
    simp [Findings.note]
  obtain ⟨ys, -, hlatest⟩ :=
    Findings.exists_latest_foldl_note ⟨[x], (∅ : TreeSet α).insert x⟩ xs
  rw [distinct, fresh, List.foldl_cons, hnote, hlatest]
  simp

theorem mem_layersFrom_of_mem {layers : Nat} {frontier : List α} {known : TreeSet α} {x : α}
    (h : x ∈ frontier) : x ∈ layersFrom successors layers frontier known := by
  cases layers with
  | zero => exact h
  | succ layers =>
    cases frontier with
    | nil => simp at h
    | cons s frontier => exact List.mem_append_left _ h

theorem getElem?_zero_breadthFirst (layers : Nat) (seed : α) :
    (breadthFirst successors layers [seed])[0]? = some seed := by
  have hseed : (fresh ∅ [seed]).1 = [seed] := by simp [fresh, Findings.note]
  change (layersFrom successors layers (fresh ∅ [seed]).1 (fresh ∅ [seed]).2)[0]? = some seed
  rw [hseed]
  cases layers <;> rfl

/-- A search with more layers goes on where one with fewer ends. -/
theorem layersFrom_isPrefix {layers more : Nat} (h : layers ≤ more) (frontier : List α)
    (known : TreeSet α) :
    layersFrom successors layers frontier known <+: layersFrom successors more frontier known := by
  induction layers generalizing more frontier known with
  | zero =>
    cases more with
    | zero => exact List.prefix_rfl
    | succ more =>
      cases frontier with
      | nil => exact List.prefix_rfl
      | cons x frontier => exact List.prefix_append _ _
  | succ layers ih =>
    obtain ⟨more, rfl⟩ : ∃ n, more = n + 1 := ⟨more - 1, by omega⟩
    cases frontier with
    | nil => exact List.prefix_rfl
    | cons x frontier =>
      rw [layersFrom, layersFrom]
      exact (List.prefix_append_right_inj _).2 (ih (Nat.le_of_succ_le_succ h) _ _)

variable [TransOrd α] [LawfulEqOrd α]

theorem Findings.mem_known_note {f : Findings α} {x y : α} :
    y ∈ (f.note x).known ↔ y ∈ f.known ∨ y = x := by
  unfold note
  split_ifs with h
  · constructor
    · exact Or.inl
    · rintro (hy | rfl)
      · exact hy
      · exact h
  · simp only [TreeSet.mem_insert, Std.compare_eq_iff_eq]
    rw [or_comm, eq_comm]

theorem Findings.mem_known_foldl_note {f : Findings α} {xs : List α} {y : α} :
    y ∈ (xs.foldl note f).known ↔ y ∈ f.known ∨ y ∈ xs := by
  induction xs generalizing f with
  | nil => simp
  | cons x xs ih =>
    rw [List.foldl_cons, ih, mem_known_note, List.mem_cons, or_assoc]

theorem Findings.mem_latest_foldl_note {f : Findings α} {xs : List α} {y : α} :
    y ∈ (xs.foldl note f).latest ↔ y ∈ f.latest ∨ y ∈ xs ∧ y ∉ f.known := by
  induction xs generalizing f with
  | nil => simp
  | cons x xs ih =>
    rw [List.foldl_cons, ih, mem_latest_note, mem_known_note, List.mem_cons]
    by_cases hy : y = x
    · subst hy
      simp
    · simp [hy]

theorem Findings.nodup_latest_foldl_note {f : Findings α} {xs : List α} (hn : f.latest.Nodup)
    (hk : ∀ x ∈ f.latest, x ∈ f.known) : (xs.foldl note f).latest.Nodup := by
  induction xs generalizing f with
  | nil => exact hn
  | cons x xs ih =>
    apply ih
    · unfold note
      split_ifs with h
      · exact hn
      · exact List.nodup_cons.2 ⟨fun hx => h (hk x hx), hn⟩
    · intro y hy
      rw [mem_known_note]
      rcases mem_latest_note.1 hy with hy | ⟨hy, -⟩
      · exact Or.inl (hk y hy)
      · exact Or.inr hy

theorem mem_fresh {known : TreeSet α} {xs : List α} {x : α} :
    x ∈ (fresh known xs).1 ↔ x ∈ xs ∧ x ∉ known := by
  simp [fresh, Findings.mem_latest_foldl_note]

theorem mem_fresh_known {known : TreeSet α} {xs : List α} {x : α} :
    x ∈ (fresh known xs).2 ↔ x ∈ known ∨ x ∈ xs := by
  simp [fresh, Findings.mem_known_foldl_note]

theorem nodup_fresh (known : TreeSet α) (xs : List α) : (fresh known xs).1.Nodup := by
  unfold fresh
  rw [List.Perm.nodup_iff (List.reverse_perm _)]
  apply Findings.nodup_latest_foldl_note
  · exact List.nodup_nil
  · simp

@[simp] theorem mem_distinct {xs : List α} {x : α} : x ∈ distinct xs ↔ x ∈ xs := by
  simp [distinct, mem_fresh]

theorem nodup_distinct (xs : List α) : (distinct xs).Nodup := nodup_fresh _ _

/-! ### Breadth-first search -/

theorem exists_of_mem_layersFrom {layers : Nat} {frontier : List α} {known : TreeSet α} {x : α}
    (h : x ∈ layersFrom successors layers frontier known) :
    ∃ s ∈ frontier, Reaches successors s x := by
  induction layers generalizing frontier known with
  | zero => exact ⟨x, h, .refl⟩
  | succ layers ih =>
    cases frontier with
    | nil => simp [layersFrom] at h
    | cons s frontier =>
      rw [layersFrom] at h
      rcases List.mem_append.1 h with h | h
      · exact ⟨x, h, .refl⟩
      · obtain ⟨y, hy, hyx⟩ := ih h
        obtain ⟨r, hr, hry⟩ := List.mem_flatMap.1 (mem_fresh.1 hy).1
        exact ⟨r, hr, .head hry hyx⟩

theorem nodup_layersFrom {layers : Nat} {frontier : List α} {known : TreeSet α}
    (hn : frontier.Nodup) (hk : ∀ x ∈ frontier, x ∈ known) :
    (layersFrom successors layers frontier known).Nodup ∧
      ∀ x ∈ layersFrom successors layers frontier known, x ∈ frontier ∨ x ∉ known := by
  induction layers generalizing frontier known with
  | zero => exact ⟨hn, fun _ => Or.inl⟩
  | succ layers ih =>
    cases frontier with
    | nil => simp [layersFrom]
    | cons s frontier =>
      rw [layersFrom]
      obtain ⟨ihn, ihk⟩ := ih (nodup_fresh known ((s :: frontier).flatMap successors))
        fun x hx => mem_fresh_known.2 (Or.inr (mem_fresh.1 hx).1)
      have hnew : ∀ x ∈ layersFrom successors layers
          (fresh known ((s :: frontier).flatMap successors)).1
          (fresh known ((s :: frontier).flatMap successors)).2, x ∉ known := by
        intro x hx
        rcases ihk x hx with h | h
        · exact (mem_fresh.1 h).2
        · exact fun hxk => h (mem_fresh_known.2 (Or.inl hxk))
      constructor
      · exact List.nodup_append.2 ⟨hn, ihn, fun x hx y hy hxy => hnew y hy (hxy ▸ hk x hx)⟩
      · intro x hx
        rcases List.mem_append.1 hx with hx | hx
        · exact Or.inl hx
        · exact Or.inr (hnew x hx)

/-- Unless the frontier leads nowhere, there are more layers to go than unknown nodes with
successors. -/
def Affordable (successors : α → List α) (all : List α) (layers : Nat) (frontier : List α)
    (known : TreeSet α) : Prop :=
  (∀ x ∈ frontier, successors x = []) ∨ (all.countP fun x => !known.contains x) < layers

theorem Affordable.fresh {all frontier : List α} {layers : Nat} {known : TreeSet α}
    (h : Affordable successors all (layers + 1) frontier known)
    (hall : ∀ x ∈ frontier.flatMap successors, x ∉ known → successors x ≠ [] → x ∈ all) :
    Affordable successors all layers (fresh known (frontier.flatMap successors)).1
      (fresh known (frontier.flatMap successors)).2 := by
  by_cases hend : ∀ x ∈ (Exploration.fresh known (frontier.flatMap successors)).1, successors x = []
  · exact Or.inl hend
  · push Not at hend
    obtain ⟨x, hx, hsx⟩ := hend
    obtain ⟨hxs, hxk⟩ := mem_fresh.1 hx
    rcases h with h | h
    · obtain ⟨y, hy, hxy⟩ := List.mem_flatMap.1 hxs
      rw [h y hy] at hxy
      simp at hxy
    · right
      refine Nat.lt_of_lt_of_le ?_ (Nat.le_of_lt_succ h)
      apply countP_lt_countP (hall x hxs hxk hsx)
      · simpa [← TreeSet.mem_iff_contains] using mem_fresh_known.2 (Or.inr hxs)
      · simpa only [Bool.not_eq_true', Bool.eq_false_iff, ne_eq,
          ← TreeSet.mem_iff_contains] using hxk
      · intro y hy
        simp only [Bool.not_eq_true', Bool.eq_false_iff, ne_eq, ← TreeSet.mem_iff_contains] at hy ⊢
        exact fun hyk => hy (mem_fresh_known.2 (Or.inl hyk))

/-- What is known besides the frontier is expanded. -/
structure Layered (successors : α → List α) (frontier : List α) (known : TreeSet α) : Prop where
  frontier_known : ∀ x ∈ frontier, x ∈ known
  expanded : ∀ x ∈ known, x ∈ frontier ∨ ∀ y ∈ successors x, y ∈ known

theorem Layered.fresh {frontier : List α} {known : TreeSet α}
    (h : Layered successors frontier known) :
    Layered successors (fresh known (frontier.flatMap successors)).1
      (fresh known (frontier.flatMap successors)).2 := by
  constructor
  · intro x hx
    exact mem_fresh_known.2 (Or.inr (mem_fresh.1 hx).1)
  · intro x hx
    by_cases hxk : x ∈ known
    · right
      intro y hy
      rw [mem_fresh_known]
      rcases h.expanded x hxk with hxf | hxc
      · exact Or.inr (List.mem_flatMap.2 ⟨x, hxf, hy⟩)
      · exact Or.inl (hxc y hy)
    · exact Or.inl (mem_fresh.2 ⟨(mem_fresh_known.1 hx).resolve_left hxk, hxk⟩)

theorem mem_known_or_layersFrom {layers : Nat} {s : α} {frontier : List α} {known : TreeSet α}
    (hk : ∀ x ∈ s :: frontier, x ∈ known) (x : α) :
    (x ∈ known ∨ x ∈ layersFrom successors (layers + 1) (s :: frontier) known) ↔
      (x ∈ (fresh known ((s :: frontier).flatMap successors)).2 ∨
        x ∈ layersFrom successors layers (fresh known ((s :: frontier).flatMap successors)).1
          (fresh known ((s :: frontier).flatMap successors)).2) := by
  rw [layersFrom, List.mem_append, mem_fresh_known]
  constructor
  · rintro (h | h | h)
    · exact Or.inl (Or.inl h)
    · exact Or.inl (Or.inl (hk x h))
    · exact Or.inr h
  · rintro ((h | h) | h)
    · exact Or.inl h
    · by_cases hxk : x ∈ known
      · exact Or.inl hxk
      · exact Or.inr (Or.inr (mem_layersFrom_of_mem (mem_fresh.2 ⟨h, hxk⟩)))
    · exact Or.inr (Or.inr h)

/-- All that is known or found gets expanded, if the search is affordable. -/
theorem closed_layersFrom {inside : α → Prop} {all : List α}
    (hclosed : ∀ x, inside x → ∀ y ∈ successors x, inside y) {layers : Nat} {frontier : List α}
    {known : TreeSet α} (hfi : ∀ x ∈ frontier, inside x)
    (hall : ∀ x, inside x → x ∉ known → successors x ≠ [] → x ∈ all)
    (ha : Affordable successors all layers frontier known)
    (h : Layered successors frontier known) :
    ∀ x, x ∈ known ∨ x ∈ layersFrom successors layers frontier known → ∀ y ∈ successors x,
      y ∈ known ∨ y ∈ layersFrom successors layers frontier known := by
  induction layers generalizing frontier known with
  | zero =>
    have hend : ∀ x ∈ frontier, successors x = [] := by
      rcases ha with ha | ha
      · exact ha
      · omega
    intro x hx y hy
    have hxf : x ∉ frontier := by
      intro hxf
      rw [hend x hxf] at hy
      simp at hy
    rcases hx with hx | hx
    · exact Or.inl (((h.expanded x hx).resolve_left hxf) y hy)
    · exact absurd hx hxf
  | succ layers ih =>
    cases frontier with
    | nil =>
      intro x hx y hy
      simp only [layersFrom, List.not_mem_nil, or_false] at hx ⊢
      exact (h.expanded x hx).resolve_left (by simp) y hy
    | cons s frontier =>
      have hnew : ∀ z ∈ (s :: frontier).flatMap successors, inside z := by
        intro z hz
        obtain ⟨r, hr, hrz⟩ := List.mem_flatMap.1 hz
        exact hclosed r (hfi r hr) z hrz
      have key := ih (fun z hz => hnew z (mem_fresh.1 hz).1)
        (fun z hz hzk => hall z hz fun h => hzk (mem_fresh_known.2 (Or.inl h)))
        (ha.fresh fun z hz => hall z (hnew z hz)) h.fresh
      intro x hx y hy
      rw [mem_known_or_layersFrom h.frontier_known] at hx ⊢
      exact key x hx y hy

theorem nodup_breadthFirst (layers : Nat) (seeds : List α) :
    (breadthFirst successors layers seeds).Nodup :=
  (nodup_layersFrom (nodup_fresh ∅ seeds) fun _ hx => mem_fresh_known.2
    (Or.inr (mem_fresh.1 hx).1)).1

theorem exists_of_mem_breadthFirst {layers : Nat} {seeds : List α} {x : α}
    (h : x ∈ breadthFirst successors layers seeds) : ∃ s ∈ seeds, Reaches successors s x := by
  obtain ⟨s, hs, hsx⟩ := exists_of_mem_layersFrom h
  exact ⟨s, (mem_fresh.1 hs).1, hsx⟩

theorem mem_breadthFirst_of_affordable {layers : Nat} {seeds all : List α}
    (hall : ∀ s ∈ seeds, ∀ x, Reaches successors s x → x ∉ seeds → successors x ≠ [] → x ∈ all)
    (ha : Affordable successors all layers (fresh ∅ seeds).1 (fresh ∅ seeds).2) {x : α} :
    x ∈ breadthFirst successors layers seeds ↔ ∃ s ∈ seeds, Reaches successors s x := by
  constructor
  · exact exists_of_mem_breadthFirst
  · rintro ⟨s, hs, hsx⟩
    have inward : ∀ y, (∃ s ∈ seeds, Reaches successors s y) → ∀ z ∈ successors y,
        ∃ s ∈ seeds, Reaches successors s z :=
      fun y ⟨r, hr, hry⟩ z hz => ⟨r, hr, hry.tail hz⟩
    have hseeds : Layered successors (fresh ∅ seeds).1 (fresh ∅ seeds).2 :=
      ⟨fun y hy => mem_fresh_known.2 (Or.inr (mem_fresh.1 hy).1), fun y hy =>
        Or.inl (mem_fresh.2 ⟨(mem_fresh_known.1 hy).resolve_left (by simp), by simp⟩)⟩
    have closed := closed_layersFrom inward
      (fun y hy => ⟨y, (mem_fresh.1 hy).1, .refl⟩)
      (fun y ⟨r, hr, hry⟩ hy => hall r hr y hry fun h => hy (mem_fresh_known.2 (Or.inr h))) ha
      hseeds
    have found : ∀ y, y ∈ (fresh ∅ seeds).2 → y ∈ breadthFirst successors layers seeds := by
      intro y hy
      apply mem_layersFrom_of_mem
      exact mem_fresh.2 ⟨(mem_fresh_known.1 hy).resolve_left (by simp), by simp⟩
    induction hsx with
    | refl => exact found s (mem_fresh_known.2 (Or.inr hs))
    | tail _ hz ih => exact (closed _ (Or.inr ih) _ hz).elim (found _) id

/-- A breadth-first search finds exactly what can be reached, if there are more layers than nodes
with successors behind the seeds. -/
theorem mem_breadthFirst (all : List α) {layers : Nat} {seeds : List α}
    (hall : ∀ s ∈ seeds, ∀ x, Reaches successors s x → x ∉ seeds → successors x ≠ [] → x ∈ all)
    (hlen : all.length < layers) {x : α} :
    x ∈ breadthFirst successors layers seeds ↔ ∃ s ∈ seeds, Reaches successors s x :=
  mem_breadthFirst_of_affordable hall
    (Or.inr (Nat.lt_of_le_of_lt (List.countP_le_length) hlen))

theorem affordable_of_length_le {all : List α} {layers : Nat} {seeds : List α}
    (hall : ∀ s ∈ seeds, ∀ x, Reaches successors s x → successors x ≠ [] → x ∈ all)
    (hlen : all.length ≤ layers) :
    Affordable successors all layers (fresh ∅ seeds).1 (fresh ∅ seeds).2 := by
  by_cases hend : ∀ s ∈ seeds, successors s = []
  · exact Or.inl fun s hs => hend s (mem_fresh.1 hs).1
  · push Not at hend
    obtain ⟨s, hs, hss⟩ := hend
    right
    refine Nat.lt_of_lt_of_le ?_ hlen
    rw [← List.countP_true]
    apply countP_lt_countP (hall s hs s .refl hss)
    · simpa [← TreeSet.mem_iff_contains] using mem_fresh_known.2 (Or.inr hs)
    · rfl
    · simp

/-- The same with a layer for each node that has successors, the seeds included. -/
theorem mem_breadthFirst_of_length_le (all : List α) {layers : Nat} {seeds : List α}
    (hall : ∀ s ∈ seeds, ∀ x, Reaches successors s x → successors x ≠ [] → x ∈ all)
    (hlen : all.length ≤ layers) {x : α} :
    x ∈ breadthFirst successors layers seeds ↔ ∃ s ∈ seeds, Reaches successors s x :=
  mem_breadthFirst_of_affordable (fun s hs y hy _ => hall s hs y hy)
    (affordable_of_length_le hall hlen)

/-- More layers than needed change nothing. -/
theorem breadthFirst_eq_of_length_le (all : List α) {layers more : Nat} {seeds : List α}
    (hall : ∀ s ∈ seeds, ∀ x, Reaches successors s x → successors x ≠ [] → x ∈ all)
    (hlen : all.length ≤ layers) (hmore : layers ≤ more) :
    breadthFirst successors layers seeds = breadthFirst successors more seeds := by
  have hprefix : breadthFirst successors layers seeds <+: breadthFirst successors more seeds :=
    layersFrom_isPrefix hmore _ _
  have hmem : ∀ x, x ∈ breadthFirst successors layers seeds ↔
      x ∈ breadthFirst successors more seeds := by
    intro x
    rw [mem_breadthFirst_of_length_le all hall hlen,
      mem_breadthFirst_of_length_le all hall (Nat.le_trans hlen hmore)]
  have hperm := (List.perm_ext_iff_of_nodup (nodup_breadthFirst layers seeds)
    (nodup_breadthFirst more seeds)).2 hmem
  exact hprefix.eq_of_length hperm.length_eq

/-! ### Two searches alike -/

section Alike

variable {β : Type} [Ord β] [TransOrd β] [LawfulEqOrd β] {R : α → β → Prop}

/-- Two searches know nodes that correspond. -/
structure Findings.Alike (R : α → β → Prop) (f : Findings α) (g : Findings β) : Prop where
  latest : List.Forall₂ R f.latest g.latest
  known : ∀ x y, R x y → (x ∈ f.known ↔ y ∈ g.known)

theorem Findings.Alike.note (hR : Relator.BiUnique R) {f : Findings α} {g : Findings β}
    (h : Alike R f g) {x : α} {y : β} (hxy : R x y) : Alike R (f.note x) (g.note y) := by
  constructor
  · have hiff := h.known x y hxy
    unfold Findings.note
    split_ifs with hx hy hy
    · exact h.latest
    · exact absurd (hiff.1 hx) hy
    · exact absurd (hiff.2 hy) hx
    · exact .cons hxy h.latest
  · intro z w hzw
    have heq : z = x ↔ w = y :=
      ⟨fun e => hR.2 hzw (e ▸ hxy), fun e => hR.1 hzw (e ▸ hxy)⟩
    rw [mem_known_note, mem_known_note, h.known z w hzw, heq]

theorem Findings.Alike.foldl_note (hR : Relator.BiUnique R) {f : Findings α} {g : Findings β}
    {xs : List α} {ys : List β} (h : Alike R f g) (hxy : List.Forall₂ R xs ys) :
    Alike R (xs.foldl Findings.note f) (ys.foldl Findings.note g) := by
  induction hxy generalizing f g with
  | nil => exact h
  | cons hxy _ ih => exact ih (h.note hR hxy)

/-- What is new to one search corresponds to what is new to the other. -/
theorem forall₂_fresh (hR : Relator.BiUnique R) {known : TreeSet α} {known' : TreeSet β}
    (hk : ∀ x y, R x y → (x ∈ known ↔ y ∈ known')) {xs : List α} {ys : List β}
    (hxy : List.Forall₂ R xs ys) :
    List.Forall₂ R (fresh known xs).1 (fresh known' ys).1 ∧
      ∀ x y, R x y → (x ∈ (fresh known xs).2 ↔ y ∈ (fresh known' ys).2) := by
  have h := Findings.Alike.foldl_note hR (f := ⟨[], known⟩) (g := ⟨[], known'⟩) ⟨.nil, hk⟩ hxy
  exact ⟨List.rel_reverse h.latest, h.known⟩

theorem forall₂_distinct (hR : Relator.BiUnique R) {xs : List α} {ys : List β}
    (hxy : List.Forall₂ R xs ys) : List.Forall₂ R (distinct xs) (distinct ys) :=
  (forall₂_fresh hR (by simp) hxy).1

variable {successors' : β → List β}

theorem forall₂_layersFrom (hR : Relator.BiUnique R)
    (hs : ∀ x y, R x y → List.Forall₂ R (successors x) (successors' y)) (layers : Nat)
    {xs : List α} {ys : List β} (hxy : List.Forall₂ R xs ys) {known : TreeSet α}
    {known' : TreeSet β} (hk : ∀ x y, R x y → (x ∈ known ↔ y ∈ known')) :
    List.Forall₂ R (layersFrom successors layers xs known)
      (layersFrom successors' layers ys known') := by
  induction layers generalizing xs ys known known' with
  | zero => exact hxy
  | succ layers ih =>
    cases hxy with
    | nil => exact .nil
    | cons hx hxs =>
      have hall := List.Forall₂.cons hx hxs
      obtain ⟨hnew, hknown⟩ := forall₂_fresh hR hk (List.rel_flatMap hall hs)
      exact List.rel_append hall (ih hnew hknown)

/-- Searches over nodes that correspond one to one find corresponding nodes in the same order. -/
theorem forall₂_breadthFirst (hR : Relator.BiUnique R)
    (hs : ∀ x y, R x y → List.Forall₂ R (successors x) (successors' y)) (layers : Nat)
    {xs : List α} {ys : List β} (hxy : List.Forall₂ R xs ys) :
    List.Forall₂ R (breadthFirst successors layers xs) (breadthFirst successors' layers ys) := by
  have hempty : ∀ x y, R x y → (x ∈ (∅ : TreeSet α) ↔ y ∈ (∅ : TreeSet β)) := by simp
  obtain ⟨hnew, hknown⟩ := forall₂_fresh hR hempty hxy
  exact forall₂_layersFrom hR hs layers hnew hknown

end Alike

theorem exists_getElem?_of_forall₂ {α β : Type} {R : α → β → Prop} {xs : List α} {ys : List β}
    (h : List.Forall₂ R xs ys) {i : Nat} {x : α} (hx : xs[i]? = some x) :
    ∃ y, ys[i]? = some y ∧ R x y := by
  obtain ⟨hi, rfl⟩ := List.getElem?_eq_some_iff.1 hx
  have hi' : i < ys.length := h.length_eq ▸ hi
  exact ⟨ys[i], List.getElem?_eq_getElem hi', h.get hi hi'⟩

/-! ### Expanding the latest node first -/

/-- What is known besides the pending nodes is expanded. -/
structure Latest (successors : α → List α) (found pending : List α) (known : TreeSet α) : Prop where
  nodup : found.Nodup
  known_iff : ∀ x, x ∈ known ↔ x ∈ found
  pending_known : ∀ x ∈ pending, x ∈ known
  expanded : ∀ x ∈ known, x ∈ pending ∨ ∀ y ∈ successors x, y ∈ known

theorem Latest.expand {found pending : List α} {known : TreeSet α} {x : α}
    (h : Latest successors found (x :: pending) known) :
    Latest successors ((fresh known (successors x)).1.reverse ++ found)
      ((fresh known (successors x)).1.reverse ++ pending) (fresh known (successors x)).2 := by
  constructor
  · refine List.nodup_append.2 ⟨?_, h.nodup, ?_⟩
    · exact (List.reverse_perm _).nodup_iff.2 (nodup_fresh _ _)
    · intro y hy z hz hyz
      subst hyz
      exact (mem_fresh.1 (List.mem_reverse.1 hy)).2 ((h.known_iff y).2 hz)
  · intro y
    rw [mem_fresh_known, List.mem_append, List.mem_reverse, mem_fresh, ← h.known_iff]
    tauto
  · intro y hy
    rw [mem_fresh_known]
    rcases List.mem_append.1 hy with hy | hy
    · exact Or.inr (mem_fresh.1 (List.mem_reverse.1 hy)).1
    · exact Or.inl (h.pending_known y (List.mem_cons_of_mem x hy))
  · intro y hy
    rw [List.mem_append, List.mem_reverse, mem_fresh]
    by_cases hyk : y ∈ known
    · rcases h.expanded y hyk with hyp | hyc
      · rcases List.mem_cons.1 hyp with rfl | hyp
        · exact Or.inr fun z hz => mem_fresh_known.2 (Or.inr hz)
        · exact Or.inl (Or.inr hyp)
      · exact Or.inr fun z hz => mem_fresh_known.2 (Or.inl (hyc z hz))
    · exact Or.inl (Or.inl ⟨(mem_fresh_known.1 hy).resolve_left hyk, hyk⟩)

theorem length_fresh_add_countP_le {all xs : List α} (known : TreeSet α)
    (h : ∀ x ∈ xs, x ∈ all) :
    (fresh known xs).1.length + (all.countP fun x => !(fresh known xs).2.contains x) ≤
      all.countP fun x => !known.contains x := by
  have := Findings.remaining_foldl_note_le ⟨[], known⟩ h
  simpa [Findings.remaining, fresh] using this

omit [TransOrd α] [LawfulEqOrd α] in
theorem Latest.closed {found : List α} {known : TreeSet α} (h : Latest successors found [] known) :
    ∀ x ∈ found, ∀ y ∈ successors x, y ∈ found := by
  intro x hx y hy
  have hexpanded := (h.expanded x ((h.known_iff x).2 hx)).resolve_left List.not_mem_nil
  exact (h.known_iff y).1 (hexpanded y hy)

theorem latestFrom_spec {inside : α → Prop} {all : List α}
    (hclosed : ∀ x, inside x → ∀ y ∈ successors x, inside y) (hall : ∀ x, inside x → x ∈ all)
    {steps : Nat} {found pending : List α} {known : TreeSet α}
    (h : Latest successors found pending known) (hin : ∀ x ∈ pending, inside x)
    (hsteps : pending.length + (all.countP fun x => !known.contains x) ≤ steps) :
    (latestFrom successors steps found pending known).Nodup ∧
      (∀ x ∈ found, x ∈ latestFrom successors steps found pending known) ∧
      (∀ x ∈ latestFrom successors steps found pending known,
        x ∈ found ∨ ∃ s ∈ pending, Reaches successors s x) ∧
      ∀ x ∈ latestFrom successors steps found pending known, ∀ y ∈ successors x,
        y ∈ latestFrom successors steps found pending known := by
  induction steps generalizing found pending known with
  | zero =>
    obtain rfl : pending = [] := List.length_eq_zero_iff.1 (by omega)
    exact ⟨h.nodup, fun _ => id, fun _ => Or.inl, h.closed⟩
  | succ steps ih =>
    cases pending with
    | nil => exact ⟨h.nodup, fun _ => id, fun _ => Or.inl, h.closed⟩
    | cons s pending =>
      rw [latestFrom]
      have hs := hclosed s (hin s (by simp))
      have hle := length_fresh_add_countP_le known fun y hy => hall y (hs y hy)
      obtain ⟨nodup, mono, sound, closed⟩ := ih h.expand
        (by
          intro y hy
          rcases List.mem_append.1 hy with hy | hy
          · exact hs y (mem_fresh.1 (List.mem_reverse.1 hy)).1
          · exact hin y (List.mem_cons_of_mem s hy))
        (by
          simp only [List.length_append, List.length_reverse, List.length_cons] at hsteps ⊢
          omega)
      refine ⟨nodup, fun x hx => mono x (List.mem_append_right _ hx), ?_, closed⟩
      intro x hx
      rcases sound x hx with hx | ⟨r, hr, hrx⟩
      · rcases List.mem_append.1 hx with hx | hx
        · exact Or.inr ⟨s, by simp, .single (mem_fresh.1 (List.mem_reverse.1 hx)).1⟩
        · exact Or.inl hx
      · rcases List.mem_append.1 hr with hr | hr
        · exact Or.inr ⟨s, by simp, .head (mem_fresh.1 (List.mem_reverse.1 hr)).1 hrx⟩
        · exact Or.inr ⟨r, List.mem_cons_of_mem s hr, hrx⟩

theorem latest_seed (seed : α) :
    Latest successors [seed] [seed] ((TreeSet.empty : TreeSet α).insert seed) := by
  constructor
  · simp
  · intro x
    simpa using eq_comm
  · simp
  · simp

/-- A search that can expand every reachable node finds each of them once. -/
theorem latestFirst_spec {seed : α} {all : List α} {steps : Nat}
    (hall : ∀ x, Reaches successors seed x → x ∈ all) (hsteps : all.length ≤ steps) :
    (latestFirst successors steps seed).Nodup ∧
      ∀ x, x ∈ latestFirst successors steps seed ↔ Reaches successors seed x := by
  have hlt : (all.countP fun x => !((TreeSet.empty : TreeSet α).insert seed).contains x) <
      all.length := by
    rw [← List.countP_true]
    apply countP_lt_countP (hall seed .refl)
    · simp
    · rfl
    · simp
  have inward : ∀ x, Reaches successors seed x → ∀ y ∈ successors x, Reaches successors seed y :=
    fun x hx y hy => hx.tail hy
  have hfuel : [seed].length +
      (all.countP fun x => !((TreeSet.empty : TreeSet α).insert seed).contains x) ≤ steps := by
    rw [List.length_singleton]
    omega
  obtain ⟨nodup, mono, sound, closed⟩ :=
    latestFrom_spec inward hall (latest_seed seed) (by simpa using .refl) hfuel
  refine ⟨(List.reverse_perm _).nodup_iff.2 nodup, ?_⟩
  intro x
  rw [latestFirst, List.mem_reverse]
  constructor
  · intro h
    rcases sound x h with h | ⟨s, hs, hsx⟩
    · rw [List.mem_singleton.1 h]
    · rwa [List.mem_singleton.1 hs] at hsx
  · intro h
    induction h with
    | refl => exact mono seed (by simp)
    | tail _ hz ih => exact closed _ ih _ hz

/-! ### Numbers of nodes -/

theorem getElem?_foldl_insertIfNew (nodes : List α) (k : Nat) (m : TreeMap α Nat) (x : α) (i : Nat)
    (h : ((nodes.zipIdx k).foldl (fun m (x, i) => m.insertIfNew x i) m)[x]? = some i) :
    m[x]? = some i ∨ k ≤ i ∧ nodes[i - k]? = some x := by
  induction nodes generalizing k m with
  | nil => exact Or.inl h
  | cons y nodes ih =>
    rw [List.zipIdx_cons, List.foldl_cons] at h
    rcases ih (k + 1) _ h with h | ⟨hk, h⟩
    · simp only [TreeMap.getElem?_insertIfNew, Std.compare_eq_iff_eq] at h
      split_ifs at h with hy
      · obtain rfl := Option.some.inj h
        exact Or.inr ⟨Nat.le_refl _, by simp [Std.compare_eq_iff_eq.1 hy.1]⟩
      · exact Or.inl h
    · refine Or.inr ⟨by omega, ?_⟩
      rw [show i - k = i - (k + 1) + 1 by omega, List.getElem?_cons_succ, h]

theorem mem_foldl_insertIfNew (nodes : List α) (k : Nat) (m : TreeMap α Nat) (x : α) :
    x ∈ (nodes.zipIdx k).foldl (fun m (x, i) => m.insertIfNew x i) m ↔ x ∈ m ∨ x ∈ nodes := by
  induction nodes generalizing k m with
  | nil => simp
  | cons y nodes ih =>
    rw [List.zipIdx_cons, List.foldl_cons, ih, TreeMap.mem_insertIfNew, Std.compare_eq_iff_eq,
      List.mem_cons, eq_comm, or_comm (a := x = y), or_assoc]

theorem mem_numbers {nodes : List α} {x : α} : x ∈ numbers nodes ↔ x ∈ nodes := by
  unfold numbers
  rw [mem_foldl_insertIfNew]
  simp

theorem getElem?_numbers {nodes : List α} {x : α} (hx : x ∈ nodes) (d : Nat) :
    nodes[(numbers nodes).getD x d]? = some x := by
  have hm := TreeMap.mem_iff_isSome_getElem?.1 (mem_numbers.2 hx)
  obtain ⟨i, hi⟩ := Option.isSome_iff_exists.1 hm
  rw [TreeMap.getD_eq_getD_getElem?, hi]
  simpa using getElem?_foldl_insertIfNew nodes 0 ∅ x i hi

theorem getD_numbers_of_not_mem {nodes : List α} {x : α} (hx : x ∉ nodes) (d : Nat) :
    (numbers nodes).getD x d = d :=
  TreeMap.getD_eq_fallback fun h => hx (mem_numbers.1 h)

end SyntaxTables.Exploration
