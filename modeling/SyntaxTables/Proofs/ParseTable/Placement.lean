import SyntaxTables.ParseTable.Fill
import SyntaxTables.Proofs.Lr.Merge

/-!
# Placing the actions of a state

The passes overwrite cells and record conflicts on the way. The complete items come in the order of
their productions, so the first reduction that gets a cell keeps it, and an early record already
tells of the action that stays. In the end each cell holds the action that its state and terminal
prefer, and the records are those of the items that do not find their own reduction there.
-/

namespace SyntaxTables.LrAutomaton

variable {g : Grammar} {a : LrAutomaton}

/-- What an action in the cell of a state and a terminal rests on. -/
def Supports (g : Grammar) (a : LrAutomaton) (s x : Nat) : Action → Prop
  | .shift t => a.Edge s (.terminal x) t
  | .accept => x = g.eof ∧ a.Holds s ⟨g.augmented, 1, g.eof⟩
  | .reduce i => i ≠ g.augmented ∧ a.Holds s ⟨i, (g.body i).length, x⟩

/-- The action that stays of those that a state supports on a terminal: a shift, else accepting,
else the reduction declared first. -/
def Chosen (g : Grammar) (a : LrAutomaton) (s x : Nat) : Option Action → Prop
  | none => ∀ act, ¬ Supports g a s x act
  | some (.shift t) => Supports g a s x (.shift t)
  | some .accept => Supports g a s x .accept ∧ ∀ t, ¬ Supports g a s x (.shift t)
  | some (.reduce i) => Supports g a s x (.reduce i) ∧ (∀ t, ¬ Supports g a s x (.shift t)) ∧
      ¬ Supports g a s x .accept ∧ ∀ j, Supports g a s x (.reduce j) → i ≤ j

theorem Chosen.supports {s x : Nat} {act : Action} (h : Chosen g a s x (some act)) :
    Supports g a s x act := by
  cases act with
  | shift t => exact h
  | reduce i => exact h.1
  | accept => exact h.1

theorem Chosen.unique {s x : Nat} {o o' : Option Action} (h : Chosen g a s x o)
    (h' : Chosen g a s x o') : o = o' := by
  cases o with
  | none =>
    cases o' with
    | none => rfl
    | some act => exact absurd h'.supports (h act)
  | some act =>
    cases o' with
    | none => exact absurd h.supports (h' act)
    | some act' =>
      cases act <;> cases act'
      case shift.shift => exact congrArg _ (congrArg _ (Edge.unique h h'))
      case shift.reduce => exact absurd h (h'.2.1 _)
      case shift.accept => exact absurd h (h'.2 _)
      case reduce.shift => exact absurd h' (h.2.1 _)
      case reduce.reduce =>
        exact congrArg _ (congrArg _ (Nat.le_antisymm (h.2.2.2 _ h'.1) (h'.2.2.2 _ h.1)))
      case reduce.accept => exact absurd h'.1 h.2.2.1
      case accept.shift => exact absurd h' (h.2 _)
      case accept.reduce => exact absurd h.1 h'.2.2.1
      case accept.accept => rfl

/-! ### Shifts and accepting -/

theorem join_getElem?_set {row : List (Option Action)} {x y : Nat} {o : Option Action}
    (hx : x < row.length) : (row.set x o)[y]?.join = if x = y then o else row[y]?.join := by
  rw [List.getElem?_set]
  split_ifs <;> rfl

@[simp] theorem length_placeShifts (edges : List (Symbol × Nat)) (row : List (Option Action)) :
    (placeShifts edges row).length = row.length := by
  unfold placeShifts
  induction edges generalizing row with
  | nil => rfl
  | cons e edges ih =>
    rw [List.foldl_cons, ih]
    split <;> simp

theorem join_placeShifts {edges : List (Symbol × Nat)} (hkeys : (edges.map Prod.fst).Nodup)
    {row : List (Option Action)} {x : Nat} (hx : x < row.length) :
    (placeShifts edges row)[x]?.join =
      ((edges.lookup (.terminal x)).map Action.shift).or row[x]?.join := by
  unfold placeShifts
  induction edges generalizing row with
  | nil => rfl
  | cons e edges ih =>
    obtain ⟨y, t⟩ := e
    obtain ⟨hnot, hrest⟩ := List.nodup_cons.1 hkeys
    rw [List.foldl_cons, List.lookup_cons]
    cases y with
    | nonterminal n => exact ih hrest hx
    | terminal y =>
      rw [ih hrest (by simpa using hx)]
      by_cases hxy : x = y
      · subst hxy
        have hnone : edges.lookup (.terminal x) = none := by
          rw [List.lookup_eq_none_iff]
          intro e he
          rw [bne_iff_ne]
          rintro heq
          exact hnot (List.mem_map.2 ⟨e, he, heq.symm⟩)
        simp [hnone, hx]
      · have hbeq : (Symbol.terminal x == Symbol.terminal y) = false := by simpa using hxy
        simp [hbeq, Ne.symm hxy]

theorem lt_eof_of_edge (h : Faithful g a) {s x t : Nat} (he : a.Edge s (.terminal x) t) :
    x < g.eof := by
  obtain ⟨it, hit, hx⟩ := h.carries he
  have hmem := List.mem_of_getElem? hx
  rcases (h.admits hit).production with hp | ⟨p, hp⟩
  · simp [hp, Grammar.body_augmented] at hmem
  · rw [Grammar.body_of_usable hp] at hmem
    exact hp.2.2 _ hmem

def rowBefore (a : LrAutomaton) (g : Grammar) (q : LrState) : List (Option Action) :=
  a.placeAccept g q (placeShifts q.edges (List.replicate g.width none))

@[simp] theorem length_rowBefore (q : LrState) : (a.rowBefore g q).length = g.width := by
  unfold rowBefore placeAccept
  split_ifs <;> simp

section State

variable (h : Faithful g a) {s : Nat} {q : LrState} (hq : a.states[s]? = some q)

include h hq

/-- Shifts and accepting do not get into each other's way, as nothing is shifted on the end of
input. -/
theorem join_rowBefore {x : Nat} (hx : x < g.width) {act : Action} :
    (a.rowBefore g q)[x]?.join = some act ↔ Supports g a s x act ∧ ∀ i, act ≠ .reduce i := by
  have hshifts : (placeShifts q.edges (List.replicate g.width none))[x]?.join =
      (q.target? (.terminal x)).map Action.shift := by
    rw [join_placeShifts (h.keys q (List.mem_of_getElem? hq)) (by simpa using hx)]
    simp [LrState.target?, hx]
  have hplaced : (a.rowBefore g q)[x]?.join =
      if x = g.eof ∧ ⟨g.augmented, 1, g.eof⟩ ∈ q.items then some .accept
      else (q.target? (.terminal x)).map Action.shift := by
    unfold rowBefore placeAccept
    rw [h.augmented]
    by_cases hmem : (⟨g.augmented, 1, g.eof⟩ : Item) ∈ q.items
    · have heof : g.eof < g.width := Nat.lt_succ_self _
      rw [if_pos hmem, join_getElem?_set (by simpa using heof), hshifts]
      simp [hmem, eq_comm]
    · simp [hmem, hshifts]
  have haccept : Supports g a s x .accept ↔ x = g.eof ∧ ⟨g.augmented, 1, g.eof⟩ ∈ q.items := by
    rw [Supports, holds_iff_mem hq]
  rw [hplaced]
  split_ifs with hacc
  · constructor
    · intro hact
      obtain rfl := Option.some.inj hact
      exact ⟨haccept.2 hacc, by simp⟩
    · rintro ⟨hsupports, hne⟩
      cases act with
      | shift t => exact absurd (hacc.1 ▸ lt_eof_of_edge h hsupports) (Nat.lt_irrefl _)
      | reduce i => exact absurd rfl (hne i)
      | accept => rfl
  · rw [Option.map_eq_some_iff]
    constructor
    · rintro ⟨t, ht, rfl⟩
      exact ⟨(edge_iff_target? hq).2 ht, by simp⟩
    · rintro ⟨hsupports, hne⟩
      cases act with
      | shift t => exact ⟨t, (edge_iff_target? hq).1 hsupports, rfl⟩
      | reduce i => exact absurd rfl (hne i)
      | accept => exact absurd (haccept.1 hsupports) hacc

theorem mem_reductions {it : Item} :
    it ∈ a.reductions g q ↔
      it.production ≠ g.augmented ∧ it ∈ q.items ∧ it.dot = (g.body it.production).length := by
  simp only [reductions, List.mem_filter, h.augmented, Grammar.isComplete, Bool.and_eq_true,
    decide_eq_true_eq]
  constructor
  · rintro ⟨hit, hne, hle⟩
    exact ⟨hne, hit, Nat.le_antisymm (h.admits ⟨q, hq, hit⟩).dot hle⟩
  · rintro ⟨hne, hit, hdot⟩
    exact ⟨hit, hne, Nat.le_of_eq hdot.symm⟩

/-- Of the complete items with one lookahead each comes before those of later productions. -/
theorem pairwise_reductions :
    (a.reductions g q).Pairwise fun it it' =>
      it.lookahead = it'.lookahead → it.production < it'.production := by
  have hascending := (h.ascending q (List.mem_of_getElem? hq)).filter
    fun it => decide (it.production ≠ a.augmented) && g.isComplete it
  apply List.Pairwise.imp_of_mem _ hascending
  intro it it' hit hit' hlt hlook
  obtain ⟨-, -, hdot⟩ := (mem_reductions h hq).1 hit
  obtain ⟨-, -, hdot'⟩ := (mem_reductions h hq).1 hit'
  change (compare it.production it'.production).then
    ((compare it.dot it'.dot).then (compare it.lookahead it'.lookahead)) = .lt at hlt
  rcases Nat.lt_trichotomy it.production it'.production with hp | hp | hp
  · exact hp
  · rw [hlook, hdot, hdot', hp] at hlt
    simp at hlt
  · rw [Nat.compare_eq_gt.2 hp] at hlt
    simp at hlt

end State

/-! ### Reductions -/

/-- The conflict that a complete item loses, if it does not find its reduction in a row. -/
def conflict? (state : Nat) (row : List (Option Action)) (it : Item) : Option Conflict :=
  match row[it.lookahead]?.join with
  | none => none
  | some kept =>
    if kept = .reduce it.production then none
    else some ⟨state, it.lookahead, kept.conflictKind, kept, .reduce it.production⟩

/-- What holds after the reductions of some items were placed on a row that had none. -/
structure Placed (state : Nat) (row : List (Option Action)) (its : List Item) (f : Placement) :
    Prop where
  length : f.row.length = row.length
  cell : ∀ x, f.row[x]?.join =
    row[x]?.join.or ((its.find? fun it => it.lookahead = x).map fun it => .reduce it.production)
  conflicts : f.conflicts = its.filterMap (conflict? state f.row)

/-- A cell that is taken by a shift, by accepting or by an earlier production stays as it is. -/
theorem placeReduction_of_taken {state : Nat} {f : Placement} {it : Item} {kept : Action}
    (hcell : f.row[it.lookahead]?.join = some kept)
    (hearlier : ∀ i, kept = .reduce i → i < it.production) :
    placeReduction state f it = { f with
      conflicts := f.conflicts ++
        [⟨state, it.lookahead, kept.conflictKind, kept, .reduce it.production⟩] } := by
  unfold placeReduction
  rw [hcell]
  cases kept with
  | shift t => rfl
  | accept => rfl
  | reduce i =>
    have hi := hearlier i rfl
    have hrow : f.row.set it.lookahead (some (.reduce i)) = f.row := by
      rw [Option.join_eq_some_iff] at hcell
      obtain ⟨hlt, hget⟩ := List.getElem?_eq_some_iff.1 hcell
      rw [← hget, List.set_getElem_self]
    simp only [if_neg (Nat.ne_of_lt hi), Nat.min_eq_left hi.le, Nat.max_eq_right hi.le, hrow]
    rfl

section Reductions

variable {state : Nat} {row : List (Option Action)} {its : List Item}

theorem Placed.take {f : Placement} (h : Placed state row its f) {it : Item}
    (hlt : it.lookahead < row.length) (hfree : f.row[it.lookahead]?.join = none) :
    Placed state row (its ++ [it]) (placeReduction state f it) := by
  have hcell := h.cell it.lookahead
  rw [hfree, eq_comm, Option.or_eq_none_iff, Option.map_eq_none_iff] at hcell
  obtain ⟨hrow, hfind⟩ := hcell
  rw [← h.length] at hlt
  have hplaced : placeReduction state f it =
      { f with row := f.row.set it.lookahead (some (.reduce it.production)) } := by
    rw [placeReduction, hfree]
  rw [hplaced]
  refine ⟨by simp [h.length], fun x => ?_, ?_⟩
  · rw [join_getElem?_set hlt, List.find?_append]
    split_ifs with hx
    · subst hx
      simp [hrow, hfind]
    · rw [h.cell]
      simp [hx]
  · -- the items before look at other cells, and this one finds its reduction
    have hself : conflict? state (f.row.set it.lookahead (some (.reduce it.production))) it =
        none := by
      simp [conflict?, hlt]
    rw [List.filterMap_append, List.filterMap_cons_none hself, List.filterMap_nil,
      List.append_nil, h.conflicts]
    apply List.filterMap_congr
    intro it' hit'
    have hne : ¬ it.lookahead = it'.lookahead := by
      intro he
      simpa [he] using List.find?_eq_none.1 hfind it' hit'
    rw [conflict?, conflict?, join_getElem?_set hlt, if_neg hne]

theorem Placed.lose {f : Placement} (h : Placed state row its f) {it : Item} {kept : Action}
    (hkept : f.row[it.lookahead]?.join = some kept)
    (hearlier : ∀ i, kept = .reduce i → i < it.production) :
    Placed state row (its ++ [it]) (placeReduction state f it) := by
  have hne : kept ≠ .reduce it.production :=
    fun he => absurd (hearlier _ he) (Nat.lt_irrefl _)
  rw [placeReduction_of_taken hkept hearlier]
  refine ⟨h.length, fun x => ?_, ?_⟩
  · rw [h.cell, List.find?_append, Option.map_or, ← Option.or_assoc, ← h.cell]
    by_cases hx : it.lookahead = x
    · subst hx
      simp [hkept]
    · simp [hx]
  · have hlost : conflict? state f.row it =
        some ⟨state, it.lookahead, kept.conflictKind, kept, .reduce it.production⟩ := by
      simp [conflict?, hkept, hne]
    rw [List.filterMap_append, List.filterMap_cons_some hlost, List.filterMap_nil, h.conflicts]

variable (hnone : ∀ x i : Nat, row[x]?.join ≠ some (.reduce i))

include hnone

theorem Placed.step {f : Placement} (h : Placed state row its f) {it : Item}
    (hlt : it.lookahead < row.length)
    (hlater : ∀ it' ∈ its, it'.lookahead = it.lookahead → it'.production < it.production) :
    Placed state row (its ++ [it]) (placeReduction state f it) := by
  cases hkept : f.row[it.lookahead]?.join with
  | none => exact h.take hlt hkept
  | some kept =>
    refine h.lose hkept ?_
    rintro i rfl
    -- a reduction in the cell was placed there by an item before this one
    have hcell := h.cell it.lookahead
    rw [hkept, eq_comm, Option.or_eq_some_iff] at hcell
    rcases hcell with hrow | ⟨-, hfound⟩
    · exact absurd hrow (hnone _ i)
    · obtain ⟨it', hfind, heq⟩ := Option.map_eq_some_iff.1 hfound
      have hlook : it'.lookahead = it.lookahead := by simpa using List.find?_some hfind
      obtain rfl := Action.reduce.inj heq
      exact hlater it' (List.mem_of_find?_eq_some hfind) hlook

theorem placed_foldl (hlt : ∀ it ∈ its, it.lookahead < row.length)
    (hlater : its.Pairwise fun it it' =>
      it.lookahead = it'.lookahead → it.production < it'.production) :
    Placed state row its (its.foldl (placeReduction state) ⟨row, []⟩) := by
  induction its using List.reverseRecOn with
  | nil => exact ⟨rfl, fun x => by simp, rfl⟩
  | append_singleton its it ih =>
    obtain ⟨hits, -, hit⟩ := List.pairwise_append.1 hlater
    rw [List.foldl_append]
    refine (ih (fun it hit => hlt it (List.mem_append_left _ hit)) hits).step hnone ?_ ?_
    · exact hlt it (List.mem_append_right _ (List.mem_singleton_self it))
    · exact fun it' hit' => hit it' hit' it (List.mem_singleton_self it)

end Reductions

section State

variable (h : Faithful g a) {s : Nat} {q : LrState} (hq : a.states[s]? = some q)

include h hq

theorem placed_fillState (state : Nat) :
    Placed state (a.rowBefore g q) (a.reductions g q) (a.fillState g state q) := by
  refine placed_foldl (fun x i hcell => ?_) (fun it hit => ?_) (pairwise_reductions h hq)
  · have hx : x < g.width := by
      rw [Option.join_eq_some_iff] at hcell
      simpa using (List.getElem?_eq_some_iff.1 hcell).1
    exact ((join_rowBefore h hq hx).1 hcell).2 i rfl
  · rw [length_rowBefore]
    exact (h.admits ⟨q, hq, ((mem_reductions h hq).1 hit).2.1⟩).lookahead

theorem length_fillState (state : Nat) : (a.fillState g state q).row.length = g.width := by
  rw [(placed_fillState h hq state).length, length_rowBefore]

theorem chosen_fillState (state : Nat) {x : Nat} (hx : x < g.width) :
    Chosen g a s x (a.fillState g state q).row[x]?.join := by
  have hbefore := @join_rowBefore g a h s q hq x hx
  rw [(placed_fillState h hq state).cell]
  cases hrow : (a.rowBefore g q)[x]?.join with
  | some act =>
    obtain ⟨hsupports, hne⟩ := hbefore.1 hrow
    cases act with
    | shift t => exact hsupports
    | reduce i => exact absurd rfl (hne i)
    | accept =>
      refine ⟨hsupports, fun t ht => ?_⟩
      exact absurd (hsupports.1 ▸ lt_eof_of_edge h ht) (Nat.lt_irrefl _)
  | none =>
    have hothers : ∀ act, Supports g a s x act → ∃ i, act = .reduce i := by
      intro act hact
      by_contra hne
      push Not at hne
      have hsome := hbefore.2 ⟨hact, hne⟩
      simp [hrow] at hsome
    have hreduce : ∀ i, Supports g a s x (.reduce i) →
        ⟨i, (g.body i).length, x⟩ ∈ a.reductions g q := fun i hi =>
      (mem_reductions h hq).2 ⟨hi.1, (holds_iff_mem hq).1 hi.2, rfl⟩
    rw [Option.none_or]
    cases hfind : (a.reductions g q).find? fun it => it.lookahead = x with
    | none =>
      intro act hact
      obtain ⟨i, rfl⟩ := hothers act hact
      simpa using List.find?_eq_none.1 hfind _ (hreduce i hact)
    | some it =>
      obtain ⟨hlook, before, after, hsplit, hnot⟩ := List.find?_eq_some_iff_append.1 hfind
      obtain rfl : it.lookahead = x := by simpa using hlook
      obtain ⟨hne, hit, hdot⟩ := (mem_reductions h hq).1 (List.mem_of_find?_eq_some hfind)
      refine ⟨⟨hne, q, hq, ?_⟩, fun t ht => ?_, fun hacc => ?_, fun j hj => ?_⟩
      · rwa [← hdot]
      · obtain ⟨i, hi⟩ := hothers _ ht
        simp at hi
      · obtain ⟨i, hi⟩ := hothers _ hacc
        simp at hi
      · have hsorted := pairwise_reductions h hq
        have hmem := hreduce j hj
        rw [hsplit] at hmem hsorted
        rcases List.mem_append.1 hmem with hmem | hmem
        · simpa using hnot _ hmem
        · rcases List.mem_cons.1 hmem with heq | hmem
          · rw [← heq]
          · exact ((List.pairwise_cons.1 (List.pairwise_append.1 hsorted).2.1).1 _ hmem rfl).le

/-- The records of a state are those of the items that do not find their reduction in the end. -/
theorem mem_conflicts_fillState (state : Nat) {c : Conflict} :
    c ∈ (a.fillState g state q).conflicts ↔
      ∃ it ∈ a.reductions g q, conflict? state (a.fillState g state q).row it = some c := by
  rw [(placed_fillState h hq state).conflicts, List.mem_filterMap]

end State

end SyntaxTables.LrAutomaton
