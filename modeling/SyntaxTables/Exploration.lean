import Std.Data.TreeMap
import Std.Data.TreeSet

/-!
# Exploring a graph

All constructions that number their states as they find them share these searches: each node is
found once, and a node's number is its place in the order of discovery. A breadth-first search
expands the nodes in this order, layer by layer; a search of the other kind expands the node found
last. Edges are read off afterwards, so the exploration itself only decides which nodes there are
and in which order.

Most searches are given a bound on their work, and any bound on the number of reachable nodes is
enough. Where that number is finite but too large to be written down, `exhaust` searches under a
proof that it is finite.
-/

namespace SyntaxTables

namespace Exploration

open Std (TreeMap TreeSet TransOrd LawfulEqOrd)

variable {α : Type} [Ord α]

/-- Nodes to look at, the latest first, and all nodes that are known. -/
structure Findings (α : Type) [Ord α] where
  latest : List α
  known : TreeSet α

def Findings.note (f : Findings α) (x : α) : Findings α :=
  if f.known.contains x then f else ⟨x :: f.latest, f.known.insert x⟩

/-- The elements of a list that are not known yet, each once and in order, and all that is known
after them. -/
def fresh (known : TreeSet α) (xs : List α) : List α × TreeSet α :=
  let f := xs.foldl Findings.note ⟨[], known⟩
  (f.latest.reverse, f.known)

/-- The elements of a list, each once, in the order in which they first occur. -/
def distinct (xs : List α) : List α := (fresh ∅ xs).1

/-- The frontier and what is found beyond it, one layer of new nodes after another. -/
def layersFrom (successors : α → List α) : Nat → List α → TreeSet α → List α
  | 0, frontier, _ => frontier
  | _ + 1, [], _ => []
  | layers + 1, x :: frontier, known =>
    let (new, known) := fresh known ((x :: frontier).flatMap successors)
    x :: frontier ++ layersFrom successors layers new known

/-- The nodes reachable from the seeds, breadth first. A layer that is not the last has a node with
successors, so the number of those bounds the layers. -/
def breadthFirst (successors : α → List α) (layers : Nat) (seeds : List α) : List α :=
  let (seeds, known) := fresh ∅ seeds
  layersFrom successors layers seeds known

/-- Adds to what was `found`, latest first, all that is found by expanding the pending nodes, of
which the first is always the one found last. -/
def latestFrom (successors : α → List α) : Nat → List α → List α → TreeSet α → List α
  | 0, found, _, _ => found
  | _ + 1, found, [], _ => found
  | steps + 1, found, x :: pending, known =>
    let (new, known) := fresh known (successors x)
    latestFrom successors steps (new.reverse ++ found) (new.reverse ++ pending) known

/-- The nodes reachable from a seed in the order of discovery, where the node found last is expanded
first. Each step expands one node. -/
def latestFirst (successors : α → List α) (steps : Nat) (seed : α) : List α :=
  (latestFrom successors steps [seed] [seed] (TreeSet.empty.insert seed)).reverse

/-- The number of each node, which is the place where it first occurs. -/
def numbers (nodes : List α) : TreeMap α Nat :=
  nodes.zipIdx.foldl (fun m (x, i) => m.insertIfNew x i) ∅

/-! ### Searches without a bound -/

/-- The nodes inside are finitely many, and no edge leads out. -/
structure Enclosed (successors : α → List α) (inside : α → Prop) : Prop where
  finite : ∃ all : List α, ∀ x, inside x → x ∈ all
  closed : ∀ x, inside x → ∀ y ∈ successors x, inside y

/-- Bounds the expansions to come: the noted nodes, and the listed ones that are not known. -/
def Findings.remaining (f : Findings α) (all : List α) : Nat :=
  f.latest.length + all.countP fun x => !f.known.contains x

theorem Findings.latest_foldl_note {inside : α → Prop} {xs : List α} (f : Findings α)
    (hf : ∀ x ∈ f.latest, inside x) (h : ∀ x ∈ xs, inside x) :
    ∀ x ∈ (xs.foldl note f).latest, inside x := by
  induction xs generalizing f with
  | nil => exact hf
  | cons x xs ih =>
    refine ih _ ?_ fun y hy => h y (.tail _ hy)
    unfold note
    split
    · exact hf
    · exact List.forall_mem_cons.2 ⟨h x (.head _), hf⟩

section Remaining

variable [TransOrd α] [LawfulEqOrd α]

theorem countP_insert_lt {all : List α} {known : TreeSet α} {x : α} (hx : x ∈ all)
    (h : ¬ known.contains x) :
    (all.countP fun y => !(known.insert x).contains y) < all.countP fun y => !known.contains y := by
  have le (ys : List α) :
      (ys.countP fun y => !(known.insert x).contains y) ≤ ys.countP fun y => !known.contains y :=
    List.countP_mono_left fun y _ hy => by simp_all [TreeSet.contains_insert]
  obtain ⟨front, back, rfl⟩ := List.append_of_mem hx
  have hf := le front
  have hb := le back
  simp only [List.countP_append, List.countP_cons, TreeSet.contains_insert_self, h]
  grind

theorem Findings.remaining_note_le (f : Findings α) {all : List α} {x : α} (hx : x ∈ all) :
    (f.note x).remaining all ≤ f.remaining all := by
  unfold note
  split
  · exact Nat.le_refl _
  next h =>
    have := countP_insert_lt hx h
    simp only [remaining, List.length_cons]
    omega

theorem Findings.remaining_foldl_note_le (f : Findings α) {all xs : List α}
    (h : ∀ x ∈ xs, x ∈ all) : (xs.foldl note f).remaining all ≤ f.remaining all := by
  induction xs generalizing f with
  | nil => exact Nat.le_refl _
  | cons x xs ih =>
    exact Nat.le_trans (ih _ fun y hy => h y (.tail _ hy)) (f.remaining_note_le (h x (.head _)))

end Remaining

/-- All nodes that are known when the noted ones, and all that are found from them, are expanded. -/
def exhaustFrom [TransOrd α] [LawfulEqOrd α] {successors : α → List α} {inside : α → Prop}
    (h : Enclosed successors inside) : (f : Findings α) → (∀ x ∈ f.latest, inside x) → TreeSet α
  | ⟨[], known⟩, _ => known
  | ⟨x :: latest, known⟩, hf =>
    exhaustFrom h ((successors x).foldl Findings.note ⟨latest, known⟩)
      (Findings.latest_foldl_note _ (fun y hy => hf y (.tail _ hy)) (h.closed x (hf x (.head _))))
termination_by f => f.remaining (Classical.choose h.finite)
decreasing_by
  refine Nat.lt_of_le_of_lt (Findings.remaining_foldl_note_le _ fun y hy =>
    Classical.choose_spec h.finite y (h.closed x (hf x (.head _)) y hy)) ?_
  simp only [Findings.remaining, List.length_cons]
  omega

/-- The nodes reachable from a seed inside, in ascending order. -/
def exhaust [TransOrd α] [LawfulEqOrd α] {successors : α → List α} {inside : α → Prop}
    (h : Enclosed successors inside) (seed : α) (hs : inside seed) : List α :=
  (exhaustFrom h ⟨[seed], TreeSet.empty.insert seed⟩ (List.forall_mem_singleton.2 hs)).toList

end Exploration

end SyntaxTables
