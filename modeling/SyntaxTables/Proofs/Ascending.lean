import Mathlib.Data.List.Basic
import Mathlib.Data.List.Sublists
import Mathlib.Logic.Relator
import Mathlib.Tactic.Common
import SyntaxTables.Ascending

/-!
# Ascending lists as sets and maps

An ascending list is determined by its elements, so two of them are equal as soon as they hold the
same ones. Grouped pairs have one entry for each first part that occurs, and a map of numbers that
is read off a list with distinct keys holds exactly the entries of the list.
-/

namespace SyntaxTables

open Std (TreeMap TreeSet TransOrd LawfulEqOrd)

namespace Ascending

variable {α β : Type} [Ord α] [TransOrd α]

theorem nodup_of_pairwise {xs : List α} (h : xs.Pairwise fun a b => compare a b = .lt) :
    xs.Nodup :=
  h.imp fun {a b} hab he => by simp [he] at hab

theorem eq_of_pairwise {xs ys : List α} (hx : xs.Pairwise fun a b => compare a b = .lt)
    (hy : ys.Pairwise fun a b => compare a b = .lt) (h : ∀ z, z ∈ xs ↔ z ∈ ys) : xs = ys := by
  have asymm : ∀ a b, a ∈ xs → b ∈ ys → compare a b = .lt → compare b a = .lt → a = b :=
    fun _ _ _ _ hab hba => absurd hba (Std.OrientedCmp.not_lt_of_lt hab)
  apply List.Perm.eq_of_pairwise asymm hx hy
  rw [List.perm_ext_iff_of_nodup (nodup_of_pairwise hx) (nodup_of_pairwise hy)]
  exact h

theorem nodup_ofList (xs : List α) : (ofList xs).Nodup := nodup_of_pairwise (pairwise_ofList xs)

theorem pairwise_groups (pairs : List (α × β)) :
    (groups pairs).Pairwise fun a b => compare a.1 b.1 = .lt :=
  TreeMap.ordered_keys_toList

theorem nodup_keys_groups (pairs : List (α × β)) : ((groups pairs).map Prod.fst).Nodup :=
  List.pairwise_map.2 ((pairwise_groups pairs).imp fun {a b} hab he => by simp [he] at hab)

variable [LawfulEqOrd α]

/-- All sets of elements of a list. -/
def subsets (xs : List α) : List (List α) := (ofList xs).sublists

theorem length_subsets_le (xs : List α) : (subsets xs).length ≤ Nat.pow 2 xs.length := by
  have hle : (ofList xs).length ≤ xs.length :=
    (nodup_ofList xs).length_le_of_subset fun x hx => mem_ofList.1 hx
  rw [subsets, List.length_sublists]
  exact Nat.pow_le_pow_right (by omega) hle

theorem mem_subsets {xs ys : List α} (hy : ys.Pairwise fun a b => compare a b = .lt)
    (h : ∀ y ∈ ys, y ∈ xs) : ys ∈ subsets xs := by
  classical
  have heq : ys = (ofList xs).filter fun x => x ∈ ys := by
    apply eq_of_pairwise hy ((pairwise_ofList xs).filter _)
    intro z
    simpa using h z
  rw [subsets, List.mem_sublists, heq]
  exact List.filter_sublist

theorem mem_foldr_addPair {pairs : List (α × β)} {k : α} :
    k ∈ pairs.foldr addPair ∅ ↔ ∃ p ∈ pairs, p.1 = k := by
  induction pairs with
  | nil => simp
  | cons p pairs ih =>
    rw [List.foldr_cons, addPair, TreeMap.mem_alter]
    simp only [Std.compare_eq_iff_eq, Option.isSome_some, ih, List.mem_cons, exists_eq_or_imp]
    by_cases h : p.1 = k <;> simp [h]

/-- Each first part that occurs has one entry, with the second parts in their order. -/
theorem mem_groups [DecidableEq α] {pairs : List (α × β)} {k : α} {vs : List β} :
    (k, vs) ∈ groups pairs ↔
      vs = (pairs.filter fun p => p.1 = k).map Prod.snd ∧ ∃ p ∈ pairs, p.1 = k := by
  unfold groups
  rw [TreeMap.mem_toList_iff_getElem?_eq_some, ← getElem?_foldr_addPair, ← mem_foldr_addPair]
  constructor
  · intro h
    exact ⟨by simp [h], by rw [TreeMap.mem_iff_isSome_getElem?, h]; rfl⟩
  · rintro ⟨rfl, h⟩
    rw [TreeMap.mem_iff_isSome_getElem?] at h
    obtain ⟨ws, hws⟩ := Option.isSome_iff_exists.1 h
    simp [hws]

theorem mem_keys_groups {pairs : List (α × β)} {k : α} :
    k ∈ (groups pairs).map Prod.fst ↔ ∃ p ∈ pairs, p.1 = k := by
  classical
  constructor
  · intro h
    obtain ⟨⟨k', vs⟩, hm, rfl⟩ := List.mem_map.1 h
    exact (mem_groups.1 hm).2
  · intro h
    exact List.mem_map.2 ⟨_, mem_groups.2 ⟨rfl, h⟩, rfl⟩

theorem mem_groups_map [DecidableEq α] {label : β → α} {xs : List β} {g : α × List β}
    (hg : g ∈ groups (xs.map fun x => (label x, x))) :
    g.2 = xs.filter (fun x => label x = g.1) ∧ g.2 ≠ [] := by
  obtain ⟨hvs, y, hy, hyg⟩ := mem_groups.1 hg
  obtain ⟨x, hx, rfl⟩ := List.mem_map.1 hy
  have hmap : g.2 = xs.filter fun x => label x = g.1 := by
    rw [hvs, List.filter_map, List.map_map]
    exact List.map_id _
  refine ⟨hmap, ?_⟩
  rw [hmap]
  exact List.ne_nil_of_mem (List.mem_filter.2 ⟨hx, decide_eq_true hyg⟩)

theorem exists_mem_groups_map [DecidableEq α] (label : β → α) {xs : List β} {x : β} (hx : x ∈ xs) :
    ∃ g ∈ groups (xs.map fun x => (label x, x)), g.1 = label x ∧ x ∈ g.2 := by
  have hk : label x ∈ (groups (xs.map fun x => (label x, x))).map Prod.fst :=
    mem_keys_groups.2 ⟨_, List.mem_map_of_mem hx, rfl⟩
  obtain ⟨g, hg, hgx⟩ := List.mem_map.1 hk
  refine ⟨g, hg, hgx, ?_⟩
  rw [(mem_groups_map hg).1]
  exact List.mem_filter.2 ⟨hx, decide_eq_true hgx.symm⟩

end Ascending

/-! ### Sets that correspond -/

namespace Ascending

variable {α β : Type} [Ord α] [Ord β] {R : α → β → Prop} {xs : List α} {ys : List β}

/-- Two ascending lists, of which each element corresponds to one of the other. -/
structure Matched (R : α → β → Prop) (xs : List α) (ys : List β) : Prop where
  left_ascending : xs.Pairwise fun a b => compare a b = .lt
  right_ascending : ys.Pairwise fun a b => compare a b = .lt
  left : ∀ x ∈ xs, ∃ y ∈ ys, R x y
  right : ∀ y ∈ ys, ∃ x ∈ xs, R x y

theorem Matched.mem_iff (hR : Relator.BiUnique R) (h : Matched R xs ys) {x : α} {y : β}
    (hxy : R x y) : x ∈ xs ↔ y ∈ ys := by
  constructor
  · intro hx
    obtain ⟨z, hz, hxz⟩ := h.left x hx
    rwa [hR.2 hxy hxz]
  · intro hy
    obtain ⟨z, hz, hzy⟩ := h.right y hy
    rwa [hR.1 hxy hzy]

theorem Matched.eq_nil_iff (h : Matched R xs ys) : xs = [] ↔ ys = [] := by
  constructor
  · rintro rfl
    exact List.eq_nil_iff_forall_not_mem.2 fun y hy => by simpa using h.right y hy
  · rintro rfl
    exact List.eq_nil_iff_forall_not_mem.2 fun x hx => by simpa using h.left x hx

/-- Where elements correspond one to one, so do sets of them. -/
theorem biUnique_matched [TransOrd α] [TransOrd β] (hR : Relator.BiUnique R) :
    Relator.BiUnique (Matched R) := by
  constructor
  · intro xs zs ys h h'
    apply eq_of_pairwise h.left_ascending h'.left_ascending
    intro x
    constructor
    · intro hx
      obtain ⟨z, hz, hxz⟩ := h.left x hx
      exact (h'.mem_iff hR hxz).2 hz
    · intro hx
      obtain ⟨z, hz, hxz⟩ := h'.left x hx
      exact (h.mem_iff hR hxz).2 hz
  · intro zs xs ys h h'
    apply eq_of_pairwise h.right_ascending h'.right_ascending
    intro x
    constructor
    · intro hx
      obtain ⟨z, hz, hzx⟩ := h.right x hx
      exact (h'.mem_iff hR hzx).1 hz
    · intro hx
      obtain ⟨z, hz, hzx⟩ := h'.right x hx
      exact (h.mem_iff hR hzx).1 hz

end Ascending

namespace NatMap

variable {β : Type}

theorem eq_of_ascending {es fs : List (Nat × β)} (he : es.Pairwise fun a b => a.1 < b.1)
    (hf : fs.Pairwise fun a b => a.1 < b.1) (h : ∀ e, e ∈ es ↔ e ∈ fs) : es = fs := by
  have nodup : ∀ {gs : List (Nat × β)}, gs.Pairwise (fun a b => a.1 < b.1) → gs.Nodup :=
    fun hg => hg.imp fun {a b} hab hne => by simp [hne] at hab
  have asymm : ∀ a b, a ∈ es → b ∈ fs → a.1 < b.1 → b.1 < a.1 → a = b :=
    fun _ _ _ _ hab hba => absurd hba (Nat.lt_asymm hab)
  exact List.Perm.eq_of_pairwise asymm he hf
    ((List.perm_ext_iff_of_nodup (nodup he) (nodup hf)).2 h)

theorem ext_get? {m n : NatMap β} (h : ∀ k, m.get? k = n.get? k) : m = n := by
  apply ext
  apply eq_of_ascending m.ascending n.ascending
  rintro ⟨k, v⟩
  rw [← get?_eq_some_iff, ← get?_eq_some_iff, h]

theorem get?_ofList {es : List (Nat × β)} (h : (es.map Prod.fst).Nodup) {k : Nat} {v : β} :
    (ofList es).get? k = some v ↔ (k, v) ∈ es := by
  have hd : es.Pairwise fun a b => ¬ compare a.1 b.1 = .eq := by
    simpa [List.pairwise_map, List.Nodup] using h
  rw [ofList, get?_ofTree]
  constructor
  · intro hk
    have hm : k ∈ (TreeMap.ofList es compare) := by
      rw [TreeMap.mem_iff_isSome_getElem?, hk]
      rfl
    rw [TreeMap.mem_ofList] at hm
    obtain ⟨⟨k', w⟩, hw, rfl⟩ := List.mem_map.1 (List.contains_iff_mem.1 hm)
    rw [TreeMap.getElem?_ofList_of_mem (k := k') (by simp) hd hw] at hk
    rwa [← Option.some.inj hk]
  · intro hm
    exact TreeMap.getElem?_ofList_of_mem (by simp) hd hm

/-- Of the entries of a key the last counts. -/
theorem get?_ofList_concat (es : List (Nat × β)) (k : Nat) (v : β) (l : Nat) :
    (ofList (es ++ [(k, v)])).get? l = if k = l then some v else (ofList es).get? l := by
  rw [ofList, ofList, get?_ofTree, get?_ofTree, TreeMap.ofList_eq_insertMany_empty,
    TreeMap.insertMany_append, TreeMap.insertMany_list_singleton, TreeMap.getElem?_insert,
    ← TreeMap.ofList_eq_insertMany_empty]
  simp only [Nat.compare_eq_eq]

theorem mem_of_mem_entries_ofList {es : List (Nat × β)} {e : Nat × β}
    (h : e ∈ (ofList es).entries) : e ∈ es := by
  rw [← get?_eq_some_iff] at h
  induction es using List.reverseRecOn with
  | nil => cases h
  | append_singleton es f ih =>
    rw [get?_ofList_concat] at h
    split_ifs at h with hkey
    · obtain rfl : f = e := Prod.ext hkey (Option.some.inj h)
      exact List.mem_append_right es List.mem_cons_self
    · exact List.mem_append_left [f] (ih h)

theorem nodup_keys_of_ascending {es : List (Nat × β)} (h : es.Pairwise fun a b => a.1 < b.1) :
    (es.map Prod.fst).Nodup :=
  List.pairwise_map.2 (h.imp fun hlt => Nat.ne_of_lt hlt)

theorem entries_ofList {es : List (Nat × β)} (h : es.Pairwise fun a b => a.1 < b.1) :
    (ofList es).entries = es := by
  apply eq_of_ascending (ofList es).ascending h
  rintro ⟨k, v⟩
  rw [← get?_eq_some_iff, get?_ofList (nodup_keys_of_ascending h)]

theorem ofList_entries (m : NatMap β) : ofList m.entries = m := ext (entries_ofList m.ascending)

theorem size_ofList_le (es : List (Nat × β)) : (ofList es).size ≤ es.length := by
  rw [size, ofList, ofTree, TreeMap.length_toList]
  exact TreeMap.size_ofList_le

theorem size_le {m : NatMap β} {n : Nat} (h : ∀ e ∈ m.entries, e.1 < n) : m.size ≤ n := by
  have hsub : m.entries.map Prod.fst ⊆ List.range n := by
    intro k hk
    obtain ⟨e, he, rfl⟩ := List.mem_map.1 hk
    exact List.mem_range.2 (h e he)
  simpa [size] using (nodup_keys_of_ascending m.ascending).length_le_of_subset hsub

end NatMap

end SyntaxTables
