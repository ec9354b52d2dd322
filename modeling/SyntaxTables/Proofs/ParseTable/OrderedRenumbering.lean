import Mathlib.Order.Monotone.Defs
import SyntaxTables.Proofs.ParseTable.Renumbering

/-!
# Tables of productions numbered in the same order

If productions keep their order under other numbers, then so do the items of a state. Reductions are
placed in the same order, the same ones stay, and conflicts come up one after the other in the same
way. So the tables are the same but for the numbers of the productions in them.
-/

namespace SyntaxTables

variable {ρ : Nat → Nat}

theorem Item.compare_renumber (hρ : StrictMono ρ) (it it' : Item) :
    compare (it.renumber ρ) (it'.renumber ρ) = compare it it' := by
  have hproduction : compare (ρ it.production) (ρ it'.production) =
      compare it.production it'.production := by
    rcases Nat.lt_trichotomy it.production it'.production with hlt | heq | hgt
    · rw [compare_lt_iff_lt.2 hlt, compare_lt_iff_lt.2 (hρ hlt)]
    · rw [compare_eq_iff_eq.2 heq, compare_eq_iff_eq.2 (congrArg ρ heq)]
    · rw [compare_gt_iff_gt.2 hgt, compare_gt_iff_gt.2 (hρ hgt)]
  change (compare (ρ it.production) (ρ it'.production)).then _ =
    (compare it.production it'.production).then _
  rw [hproduction]
  rfl

theorem Action.renumber_injective (hρ : ρ.Injective) : (Action.renumber ρ).Injective := by
  intro act act' heq
  cases act <;> cases act' <;> simp_all [Action.renumber, hρ.eq_iff]

def Conflict.renumber (ρ : Nat → Nat) (c : Conflict) : Conflict :=
  { c with kept := c.kept.renumber ρ, dropped := c.dropped.renumber ρ }

/-- Two tables are the same, except that production `j` of the second one has the number `ρ j` in
the first one. -/
structure ParseTable.RenumberedBy (ρ : Nat → Nat) (t t' : ParseTable) : Prop where
  terminalNames : t.terminalNames = t'.terminalNames
  nonterminalNames : t.nonterminalNames = t'.nonterminalNames
  eof : t.eof = t'.eof
  action : t.action = t'.action.map (List.map (Option.map (.renumber ρ)))
  goto : t.goto = t'.goto
  productions : ∀ j, t.productions[ρ j]? = t'.productions[j]?
  conflicts : t.conflicts = t'.conflicts.map (.renumber ρ)

namespace LrAutomaton

def Placement.renumber (ρ : Nat → Nat) (f : Placement) : Placement where
  row := f.row.map (Option.map (.renumber ρ))
  conflicts := f.conflicts.map (.renumber ρ)

theorem conflictKind_renumber (act : Action) :
    (act.renumber ρ).conflictKind = act.conflictKind := by
  cases act <;> rfl

/-- A reduction gives way as it does under its other number. -/
theorem conflict?_renumber (hρ : ρ.Injective) (s : Nat) (row : List (Option Action)) (it : Item) :
    conflict? s (row.map (Option.map (.renumber ρ))) (it.renumber ρ) =
      (conflict? s row it).map (.renumber ρ) := by
  have hcell : (row.map (Option.map (Action.renumber ρ)))[(it.renumber ρ).lookahead]?.join =
      (row[it.lookahead]?.join).map (.renumber ρ) := by
    rw [List.getElem?_map]
    change (row[it.lookahead]?.map _).join = _
    cases row[it.lookahead]? <;> rfl
  unfold conflict?
  rw [hcell]
  cases row[it.lookahead]?.join with
  | none => rfl
  | some kept =>
    have hkept : kept.renumber ρ = .reduce (it.renumber ρ).production ↔
        kept = .reduce it.production :=
      (Action.renumber_injective hρ).eq_iff (b := .reduce it.production)
    simp only [Option.map_some, hkept]
    split_ifs
    · rfl
    · rw [Option.map_some, Conflict.renumber, conflictKind_renumber]
      rfl

end LrAutomaton

namespace Grammar.Renumbered

open LrAutomaton

variable {g h : Grammar} {a b : LrAutomaton}

section Ordered

variable (hr : g.Renumbered h (h.Moved ρ)) (halike : Alike (g.Matching h (h.Moved ρ)) a b)
  (ha : Faithful g a) (hb : Faithful h b) (hρ : StrictMono ρ)
  (haugmented : ρ h.augmented = g.augmented)

section State

variable {s : Nat} {q q' : LrState} (hq : a.states[s]? = some q) (hq' : b.states[s]? = some q')

include halike ha hb hρ haugmented hq hq'

theorem items_eq_map : q.items = q'.items.map (.renumber ρ) := by
  have hmatched := halike.matched_items ha hb hq hq'
  apply Ascending.eq_of_pairwise hmatched.left_ascending
  · rw [List.pairwise_map]
    exact hmatched.right_ascending.imp fun hlt => (Item.compare_renumber hρ _ _).trans hlt
  · intro it
    rw [List.mem_map]
    constructor
    · intro hit
      obtain ⟨it', hit', hiit⟩ := hmatched.left it hit
      exact ⟨it', hit', renumber_of_alike haugmented hiit⟩
    · rintro ⟨it', hit', rfl⟩
      obtain ⟨it, hit, hiit⟩ := hmatched.right it' hit'
      rwa [renumber_of_alike haugmented hiit]

include hr

theorem reductions_eq_map : a.reductions g q = (b.reductions h q').map (.renumber ρ) := by
  have hmatched := halike.matched_items ha hb hq hq'
  rw [reductions, reductions, items_eq_map halike ha hb hρ haugmented hq hq', List.filter_map]
  congr 1
  apply List.filter_congr
  intro it' hit'
  obtain ⟨it, -, hiit⟩ := hmatched.right it' hit'
  obtain rfl := renumber_of_alike haugmented hiit
  have hadded : decide ((it'.renumber ρ).production ≠ a.augmented) =
      decide (it'.production ≠ b.augmented) := by
    rw [decide_eq_decide, ha.augmented, hb.augmented]
    exact not_congr (hr.matching_augmented_iff hiit.production)
  have hcomplete : g.isComplete (it'.renumber ρ) = h.isComplete it' := by
    rw [isComplete, isComplete, hr.body_eq hiit.production]
    rfl
  rw [Function.comp_apply, hadded, hcomplete]

end State

include hr halike ha hb hρ

/-- Of several reductions the same one stays. -/
theorem action?_eq_map_of_strictMono (s x : Nat) :
    (g.parseTable a).action? s x = ((h.parseTable b).action? s x).map (.renumber ρ) := by
  apply hr.action?_eq_map halike ha hb
  rintro i j ⟨rfl, hp⟩ hact'
  have hi : Supports g a s x (.reduce (ρ j)) :=
    (hr.supports_iff halike (.reduce ⟨rfl, hp⟩)).1 (supports_of_action? hb hact')
  obtain ⟨k, hact⟩ := hr.exists_action?_eq_reduce halike ha hb hact'
  -- both are the least of those supported, and those correspond in their order
  obtain ⟨hk, -, -, hleast⟩ := (action?_eq_some_iff ha).1 hact
  obtain ⟨-, -, -, hleast'⟩ := (action?_eq_some_iff hb).1 hact'
  obtain ⟨_, hkk, hk'⟩ := hr.exists_supports halike hk
  cases hkk with
  | reduce hmoved =>
    obtain ⟨rfl, -⟩ := hmoved
    rw [hact, Nat.le_antisymm (hleast _ hi) (hρ.monotone (hleast' _ hk'))]

include haugmented

theorem fillState_eq_renumber {s : Nat} {q q' : LrState} (hq : a.states[s]? = some q)
    (hq' : b.states[s]? = some q') :
    a.fillState g s q = (b.fillState h s q').renumber ρ := by
  have hrow : (a.fillState g s q).row =
      (b.fillState h s q').row.map (Option.map (.renumber ρ)) := by
    apply List.ext_getElem
    · rw [List.length_map, length_fillState ha hq, length_fillState hb hq', hr.width_eq]
    · intro x hx hx'
      rw [List.length_map] at hx'
      have hcell := hr.action?_eq_map_of_strictMono halike ha hb hρ s x
      rw [action?_parseTable hq, action?_parseTable hq', List.getElem?_eq_getElem hx,
        List.getElem?_eq_getElem hx'] at hcell
      rw [List.getElem_map]
      exact hcell
  have hconflicts : (a.fillState g s q).conflicts =
      (b.fillState h s q').conflicts.map (.renumber ρ) := by
    rw [(placed_fillState ha hq s).conflicts, (placed_fillState hb hq' s).conflicts, hrow,
      hr.reductions_eq_map halike ha hb hρ haugmented hq hq', List.filterMap_map,
      List.map_filterMap]
    exact List.filterMap_congr fun it _ => conflict?_renumber hρ.injective s _ it
  rw [Placement.renumber, ← hrow, ← hconflicts]

theorem placements_eq_map : a.placements g = (b.placements h).map (.renumber ρ) := by
  apply List.ext_getElem
  · simp [placements, halike.length]
  · intro s hs hs'
    have hlength : (a.placements g).length = a.states.length := by simp [placements]
    have hlength' : (b.placements h).length = a.states.length := by
      simp [placements, halike.length]
    rw [hlength] at hs
    have hq := List.getElem?_eq_getElem hs
    have hq' := List.getElem?_eq_getElem (halike.length.symm ▸ hs : s < b.states.length)
    simp only [placements, List.getElem_map, List.getElem_zipIdx, Nat.zero_add]
    exact hr.fillState_eq_renumber halike ha hb hρ haugmented hq hq'

/-- Both tables are the same, except that productions are named by other numbers. -/
theorem renumberedBy_parseTable (hproductions : ∀ j, g.productions[ρ j]? = h.productions[j]?) :
    (g.parseTable a).RenumberedBy ρ (h.parseTable b) where
  terminalNames := hr.terminals.symm
  nonterminalNames := hr.nonterminals.symm
  eof := hr.eof_eq.symm
  action := by
    simp only [parseTable, hr.placements_eq_map halike ha hb hρ haugmented, List.map_map]
    rfl
  goto := (goto_eq halike ha hb).symm
  productions j := by
    simp only [parseTable, List.getElem?_map, hproductions]
  conflicts := by
    simp only [parseTable, hr.placements_eq_map halike ha hb hρ haugmented, List.flatMap_map,
      List.map_flatMap]
    rfl

end Ordered

end Grammar.Renumbered

end SyntaxTables
