import Mathlib.Order.Monotone.Basic
import SyntaxTables.Proofs.Grammar.Renumbering

/-!
# Grammars without their ill-formed productions

Ill-formed productions are reported, and then left aside wherever tables are made. Without them the
others move up in the list, but their order stays.
-/

namespace SyntaxTables.Grammar

variable {g : Grammar}

def pruned (g : Grammar) : Grammar :=
  { g with productions := g.productions.filter fun p => g.WellFormed p }

def wellFormed (g : Grammar) : List (Production × Nat) :=
  g.productions.zipIdx.filter fun p => g.WellFormed p.1

/-- The number in the grammar of a production of the pruned one. Beyond the productions, numbering
goes on behind those of the grammar. -/
def position (g : Grammar) (j : Nat) : Nat :=
  match g.wellFormed[j]? with
  | some p => p.2
  | none => g.productions.length + (j - g.wellFormed.length)

theorem productions_pruned (g : Grammar) : g.pruned.productions = g.wellFormed.map Prod.fst := by
  conv_lhs => rw [pruned, ← List.zipIdx_map_fst 0 g.productions]
  rw [List.filter_map]
  rfl

theorem mem_wellFormed {p : Production} {i : Nat} : (p, i) ∈ g.wellFormed ↔ g.Usable i p := by
  rw [wellFormed, List.mem_filter, List.mem_zipIdx_iff_getElem?, decide_eq_true_eq]
  rfl

theorem pairwise_wellFormed (g : Grammar) : g.wellFormed.Pairwise fun p q => p.2 < q.2 := by
  apply List.Pairwise.filter
  rw [← List.pairwise_map, List.zipIdx_map_snd]
  exact List.pairwise_lt_range'

theorem position_of_getElem? {j i : Nat} {p : Production} (h : g.wellFormed[j]? = some (p, i)) :
    g.position j = i := by
  rw [position, h]

theorem position_of_le {j : Nat} (hj : g.wellFormed.length ≤ j) :
    g.position j = g.productions.length + (j - g.wellFormed.length) := by
  rw [position, List.getElem?_eq_none_iff.2 hj]

/-- The productions that stay keep their order. -/
theorem strictMono_position (g : Grammar) : StrictMono g.position := by
  apply strictMono_nat_of_lt_succ
  intro j
  rcases Nat.lt_or_ge (j + 1) g.wellFormed.length with hnext | hnext
  · have hj := Nat.lt_of_succ_lt hnext
    rw [position_of_getElem? (List.getElem?_eq_getElem hj),
      position_of_getElem? (List.getElem?_eq_getElem hnext)]
    exact List.pairwise_iff_getElem.1 g.pairwise_wellFormed j (j + 1) hj hnext (Nat.lt_succ_self j)
  · rw [position_of_le hnext]
    rcases Nat.lt_or_ge j g.wellFormed.length with hj | hj
    · have hp : g.Usable _ _ := mem_wellFormed.1 (List.getElem_mem hj)
      rw [position_of_getElem? (List.getElem?_eq_getElem hj)]
      have hlt := lt_length_of_usable hp
      omega
    · rw [position_of_le hj]
      omega

theorem position_augmented (g : Grammar) : g.position g.pruned.augmented = g.augmented := by
  have hlength : g.pruned.augmented = g.wellFormed.length := by
    rw [augmented, productions_pruned, List.length_map]
  rw [hlength, position_of_le (Nat.le_refl _), Nat.sub_self]
  rfl

theorem getElem?_pruned (j : Nat) :
    g.pruned.productions[j]? = g.productions[g.position j]? := by
  rw [productions_pruned, List.getElem?_map]
  cases hj : g.wellFormed[j]? with
  | some p =>
    have hp : g.Usable p.2 p.1 := mem_wellFormed.1 (List.mem_of_getElem? hj)
    rw [position_of_getElem? hj, hp.1]
    rfl
  | none =>
    rw [position_of_le (List.getElem?_eq_none_iff.1 hj),
      List.getElem?_eq_none_iff.2 (Nat.le_add_right _ _)]
    rfl

theorem usable_pruned {j : Nat} {p : Production} :
    g.pruned.Usable j p ↔ g.Usable (g.position j) p := by
  rw [Usable, Usable, getElem?_pruned]
  rfl

theorem exists_position_eq {i : Nat} {p : Production} (hp : g.Usable i p) :
    ∃ j, g.position j = i := by
  obtain ⟨j, hj⟩ := List.mem_iff_getElem?.1 (mem_wellFormed.2 hp)
  exact ⟨j, position_of_getElem? hj⟩

theorem renumbered_pruned (g : Grammar) :
    g.Renumbered g.pruned (g.pruned.Moved g.position) :=
  renumbered_of_injective rfl rfl rfl g.strictMono_position.injective usable_pruned
    exists_position_eq

end SyntaxTables.Grammar
