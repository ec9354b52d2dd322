import Mathlib.Logic.Equiv.Fin.Basic
import Mathlib.GroupTheory.Perm.Basic
import SyntaxTables.Proofs.ParseTable.Renumbering

/-!
# Productions in another order

The order in which productions are declared is their order of precedence where reductions compete,
and nothing else. In any other order the same states are found, with the same numbers and edges, and
every cell is filled alike: it may hold another reduction only where it had to choose between
several.
-/

namespace SyntaxTables.Grammar

open LrAutomaton

variable {g : Grammar}

/-- The grammar with its productions in another order: at place `j` stands the production that was
at place `σ j`. -/
def reorder (g : Grammar) (σ : Equiv.Perm (Fin g.productions.length)) : Grammar :=
  { g with productions := List.ofFn fun j => g.productions[σ j] }

def placeBefore (σ : Equiv.Perm (Fin g.productions.length)) : Equiv.Perm Nat :=
  σ.extendDomain Fin.equivSubtype

section Reorder

variable (σ : Equiv.Perm (Fin g.productions.length))

theorem placeBefore_of_lt {j : Nat} (hj : j < g.productions.length) :
    placeBefore σ j = σ ⟨j, hj⟩ :=
  σ.extendDomain_apply_subtype Fin.equivSubtype hj

theorem placeBefore_of_le {j : Nat} (hj : g.productions.length ≤ j) : placeBefore σ j = j :=
  σ.extendDomain_apply_not_subtype Fin.equivSubtype (Nat.not_lt.2 hj)

theorem getElem?_reorder (j : Nat) :
    (g.reorder σ).productions[j]? = g.productions[placeBefore σ j]? := by
  by_cases hj : j < g.productions.length
  · rw [placeBefore_of_lt σ hj, List.getElem?_eq_getElem (σ ⟨j, hj⟩).isLt]
    simp [reorder, hj]
  · rw [Nat.not_lt] at hj
    rw [placeBefore_of_le σ hj, List.getElem?_eq_none_iff.2 hj, List.getElem?_eq_none_iff]
    simpa [reorder] using hj

theorem augmented_reorder : (g.reorder σ).augmented = g.augmented :=
  List.length_ofFn

theorem usable_reorder {j : Nat} {p : Production} :
    (g.reorder σ).Usable j p ↔ g.Usable (placeBefore σ j) p := by
  rw [Usable, Usable, getElem?_reorder]
  rfl

theorem renumbered_reorder : g.Renumbered (g.reorder σ) ((g.reorder σ).Moved (placeBefore σ)) :=
  renumbered_of_injective rfl rfl rfl (placeBefore σ).injective (usable_reorder σ)
    fun {i _} _ => (placeBefore σ).surjective i

theorem validate_reorder (h : g.validate.1 = .ok ()) : (g.reorder σ).validate.1 = .ok () := by
  obtain ⟨hstart, p, hp, hlhs⟩ := validate_eq_ok_iff.1 h
  obtain ⟨i, hi⟩ := List.mem_iff_getElem?.1 hp
  obtain ⟨j, rfl⟩ := (placeBefore σ).surjective i
  rw [← getElem?_reorder] at hi
  exact validate_eq_ok_iff.2 ⟨hstart, p, List.mem_of_getElem? hi, hlhs⟩

end Reorder

/-- A table of a grammar whose productions stand in another order differs from its table at most
in which of several reductions stays. Apart from those cells it is the same with the productions
named by the places they had. -/
theorem buildParser_reorder (hvalid : g.validate.1 = .ok ())
    (σ : Equiv.Perm (Fin g.productions.length)) (settings : ParserSettings) :
    ∃ t reports t' reports', g.buildParser settings = (.ok t, reports) ∧
      (g.reorder σ).buildParser settings = (.ok t', reports') ∧
      (∀ j, t'.productions[j]? = t.productions[placeBefore σ j]?) ∧
      t'.action.map List.length = t.action.map List.length ∧
      (∀ s it, ((g.reorder σ).lrAutomaton settings).Holds s it ↔
        (g.lrAutomaton settings).Holds s (it.renumber (placeBefore σ))) ∧
      t'.goto = t.goto ∧
      (∀ s x,
        (∀ n, t'.action? s x = some (.shift n) ↔ t.action? s x = some (.shift n)) ∧
        (t'.action? s x = some .accept ↔ t.action? s x = some .accept) ∧
        ((t'.action? s x).isSome = (t.action? s x).isSome) ∧
        ∀ kind, t'.conflicts.countP (fun c => c.state = s ∧ c.terminal = x ∧ c.kind = kind) =
          t.conflicts.countP fun c => c.state = s ∧ c.terminal = x ∧ c.kind = kind) ∧
      ∀ s x, (∀ c ∈ t.conflicts, c.state = s → c.terminal = x → c.kind ≠ .reduceReduce) →
        t.action? s x = (t'.action? s x).map (.renumber (placeBefore σ)) := by
  have hstart := declares_start_of_validate hvalid
  have hvalid' := validate_reorder σ hvalid
  have ha := faithful_lrAutomaton hstart settings
  have hb := faithful_lrAutomaton (declares_start_of_validate hvalid') settings
  have hr := renumbered_reorder σ
  have halike := hr.alike_lrAutomaton hstart settings
  refine ⟨_, _, _, _, buildParser_of_validate hvalid settings,
    buildParser_of_validate hvalid' settings, fun j => ?_, ?_, fun s it => ?_,
    goto_eq halike ha hb, fun s x => ?_, ?_⟩
  · simp only [parseTable, List.getElem?_map, getElem?_reorder]
  · rw [length_rows ha, length_rows hb, halike.length, hr.width_eq]
  · have haugmented : placeBefore σ (g.reorder σ).augmented = g.augmented := by
      rw [augmented_reorder]
      exact placeBefore_of_le σ (Nat.le_refl _)
    exact (Renumbered.holds_renumber_iff halike (placeBefore σ).injective haugmented).symm
  · exact ⟨fun n => hr.action?_eq_shift_iff halike ha hb, hr.action?_eq_accept_iff halike ha hb,
      hr.action?_isSome_eq halike ha hb, hr.countP_conflicts_eq halike ha hb s x⟩
  · intro s x hnone
    exact hr.action?_eq_map halike ha hb fun hij =>
      (hr.action?_eq_reduce_iff halike ha hb hij hnone).1

/-- Two names for one terminal. -/
def twins : Grammar where
  terminals := ["a"]
  nonterminals := ["S", "A", "B"]
  start := 0
  productions := [⟨.normal, 0, [.nonterminal 1], none⟩, ⟨.normal, 0, [.nonterminal 2], none⟩,
    ⟨.normal, 1, [.terminal 0], none⟩, ⟨.normal, 2, [.terminal 0], none⟩]

def swapTwins : Equiv.Perm (Fin twins.productions.length) :=
  Equiv.swap ⟨2, by decide⟩ ⟨3, by decide⟩

/-- Of the two names the one that is declared first stays. -/
theorem buildParser_reorder_twins :
    twins.validate.1 = .ok () ∧
      ∃ t reports t' reports', twins.buildParser {} = (.ok t, reports) ∧
        (twins.reorder swapTwins).buildParser {} = (.ok t', reports') ∧
        t'.goto = t.goto ∧
        t.conflicts = [⟨1, 1, .reduceReduce, .reduce 2, .reduce 3⟩] ∧
        t.action? 1 1 = some (.reduce 2) ∧ t'.action? 1 1 = some (.reduce 2) ∧
        ∀ s x, (∀ c ∈ t.conflicts, c.state = s → c.terminal = x → c.kind ≠ .reduceReduce) →
          t.action? s x = (t'.action? s x).map (.renumber (placeBefore swapTwins)) := by
  have hvalid : twins.validate.1 = .ok () := by decide +kernel
  obtain ⟨t, reports, t', reports', hbuilt, hbuilt', -, -, -, hgoto, -, hsame⟩ :=
    buildParser_reorder hvalid swapTwins {}
  obtain ⟨-, rfl⟩ := eq_of_buildParser hbuilt
  obtain ⟨-, rfl⟩ := eq_of_buildParser hbuilt'
  exact ⟨hvalid, _, reports, _, reports', hbuilt, hbuilt', hgoto, by decide +kernel,
    by decide +kernel, by decide +kernel, hsame⟩

end SyntaxTables.Grammar
