import SyntaxTables.Proofs.Exploration

/-!
# Layers and work lists

A breadth-first search finds one layer of nodes after another. The same nodes in the same order are
found by a work list that expands one node at a time and appends what it leads to, unless it is in
the list already. A work list has no bound, so that it ends is part of what is proved: it does, with
what the search finds, whenever the layers suffice.
-/

namespace SyntaxTables.Exploration

open Std (TreeMap TreeSet TransOrd LawfulEqOrd)

variable {α : Type} [Ord α] {successors : α → List α}

/-- A work list with some nodes expanded and the others pending ends with a list of nodes. Each step
expands the first pending node and appends the nodes it leads to that are not in the list. -/
inductive Drains (successors : α → List α) : List α → List α → List α → Prop
  | done (nodes : List α) : Drains successors nodes [] nodes
  | expand {x : α} {expanded pending nodes : List α} :
    Drains successors (expanded ++ [x])
      (pending ++ (fresh (TreeSet.ofList (expanded ++ x :: pending)) (successors x)).1) nodes →
    Drains successors expanded (x :: pending) nodes

theorem Findings.foldl_note_eq (f : Findings α) (xs : List α) :
    xs.foldl note f =
      ⟨(xs.foldl note ⟨[], f.known⟩).latest ++ f.latest, (xs.foldl note ⟨[], f.known⟩).known⟩ := by
  induction xs generalizing f with
  | nil => rfl
  | cons x xs ih =>
    rw [List.foldl_cons, List.foldl_cons, ih (f.note x), ih (note ⟨[], f.known⟩ x)]
    unfold note
    split_ifs <;> simp

theorem fresh_append (known : TreeSet α) (xs ys : List α) :
    fresh known (xs ++ ys) =
      ((fresh known xs).1 ++ (fresh (fresh known xs).2 ys).1, (fresh (fresh known xs).2 ys).2) := by
  unfold fresh
  rw [List.foldl_append, Findings.foldl_note_eq (xs.foldl Findings.note ⟨[], known⟩)]
  simp

variable [TransOrd α] [LawfulEqOrd α]

theorem fresh_congr {known known' : TreeSet α} (h : ∀ x, x ∈ known ↔ x ∈ known') (xs : List α) :
    (fresh known xs).1 = (fresh known' xs).1 := by
  have hunique : Relator.BiUnique (Eq : α → α → Prop) :=
    ⟨fun _ _ _ hx hy => hx.trans hy.symm, fun _ _ _ hx hy => hx.symm.trans hy⟩
  have hsame : ∀ x y : α, x = y → (x ∈ known ↔ y ∈ known') := by
    rintro x _ rfl
    exact h x
  have hfresh := (forall₂_fresh hunique hsame (List.forall₂_refl xs)).1
  rwa [List.forall₂_eq_eq_eq] at hfresh

/-- Expanding the first nodes that are pending appends what is fresh among all that they lead to. -/
theorem drains_of_expanded {expanded frontier new nodes : List α} {known : TreeSet α}
    (hknown : ∀ x, x ∈ known ↔ x ∈ expanded ++ (frontier ++ new))
    (h : Drains successors (expanded ++ frontier)
      (new ++ (fresh known (frontier.flatMap successors)).1) nodes) :
    Drains successors expanded (frontier ++ new) nodes := by
  induction frontier generalizing expanded new known with
  | nil => simpa [fresh] using h
  | cons x frontier ih =>
    have hlisted : ∀ y, y ∈ TreeSet.ofList (expanded ++ x :: (frontier ++ new)) ↔ y ∈ known := by
      have : DecidableEq α := fun _ _ => Classical.propDecidable _
      intro y
      simp [hknown]
    rw [List.cons_append]
    refine .expand ?_
    rw [fresh_congr hlisted, List.append_assoc]
    have hknown' : ∀ y, y ∈ (fresh known (successors x)).2 ↔
        y ∈ (expanded ++ [x]) ++ (frontier ++ (new ++ (fresh known (successors x)).1)) := by
      intro y
      rw [mem_fresh_known, hknown]
      simp only [List.mem_append, List.mem_cons, List.not_mem_nil, or_false, mem_fresh, hknown]
      tauto
    refine ih hknown' ?_
    rw [List.flatMap_cons, fresh_append] at h
    simpa only [List.append_assoc, List.singleton_append] using h

theorem drains_layer {expanded frontier nodes : List α} {known : TreeSet α}
    (hknown : ∀ x, x ∈ known ↔ x ∈ expanded ++ frontier)
    (h : Drains successors (expanded ++ frontier) (fresh known (frontier.flatMap successors)).1
      nodes) : Drains successors expanded frontier nodes := by
  have hexpanded : Drains successors expanded (frontier ++ []) nodes :=
    drains_of_expanded (by simpa using hknown) h
  rwa [List.append_nil] at hexpanded

/-- The work list goes through the layers one after another. -/
theorem drains_layersFrom {inside : α → Prop} {all : List α}
    (hclosed : ∀ x, inside x → ∀ y ∈ successors x, inside y) {layers : Nat}
    {expanded frontier : List α} {known : TreeSet α} (hfi : ∀ x ∈ frontier, inside x)
    (hall : ∀ x, inside x → x ∉ known → successors x ≠ [] → x ∈ all)
    (ha : Affordable successors all layers frontier known)
    (hknown : ∀ x, x ∈ known ↔ x ∈ expanded ++ frontier) :
    Drains successors expanded frontier
      (expanded ++ layersFrom successors layers frontier known) := by
  induction layers generalizing expanded frontier known with
  | zero =>
    have hend : ∀ x ∈ frontier, successors x = [] := by
      rcases ha with ha | ha
      · exact ha
      · omega
    apply drains_layer hknown
    rw [List.flatMap_eq_nil_iff.2 hend]
    exact .done _
  | succ layers ih =>
    cases frontier with
    | nil =>
      rw [layersFrom, List.append_nil]
      exact .done expanded
    | cons s frontier =>
      have hnew : ∀ z ∈ (s :: frontier).flatMap successors, inside z := by
        intro z hz
        obtain ⟨r, hr, hrz⟩ := List.mem_flatMap.1 hz
        exact hclosed r (hfi r hr) z hrz
      have hknown' : ∀ x, x ∈ (fresh known ((s :: frontier).flatMap successors)).2 ↔
          x ∈ (expanded ++ s :: frontier) ++
            (fresh known ((s :: frontier).flatMap successors)).1 := by
        intro x
        rw [mem_fresh_known, List.mem_append, mem_fresh, ← hknown]
        tauto
      apply drains_layer hknown
      rw [layersFrom, ← List.append_assoc]
      exact ih (fun z hz => hnew z (mem_fresh.1 hz).1)
        (fun z hz hzk => hall z hz fun h => hzk (mem_fresh_known.2 (Or.inl h)))
        (ha.fresh fun z hz => hall z (hnew z hz)) hknown'

/-- With a layer for each node that has successors, a breadth-first search finds what a work list
ends with. -/
theorem drains_breadthFirst (all : List α) {layers : Nat} {seeds : List α}
    (hall : ∀ s ∈ seeds, ∀ x, Reaches successors s x → successors x ≠ [] → x ∈ all)
    (hlen : all.length ≤ layers) :
    Drains successors [] (distinct seeds) (breadthFirst successors layers seeds) := by
  have inward : ∀ y, (∃ s ∈ seeds, Reaches successors s y) → ∀ z ∈ successors y,
      ∃ s ∈ seeds, Reaches successors s z :=
    fun y ⟨r, hr, hry⟩ z hz => ⟨r, hr, hry.tail hz⟩
  change Drains successors [] (distinct seeds)
    ([] ++ layersFrom successors layers (distinct seeds) (fresh ∅ seeds).2)
  refine drains_layersFrom inward
    (fun y hy => ⟨y, (mem_fresh.1 hy).1, .refl⟩) (fun y ⟨r, hr, hry⟩ _ => hall r hr y hry)
    (affordable_of_length_le hall hlen) fun x => ?_
  change x ∈ (fresh ∅ seeds).2 ↔ x ∈ distinct seeds
  rw [mem_fresh_known, mem_distinct]
  simp

end SyntaxTables.Exploration
