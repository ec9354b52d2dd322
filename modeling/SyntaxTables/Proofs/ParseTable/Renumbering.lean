import Mathlib.Combinatorics.Enumerative.DoubleCounting
import SyntaxTables.Proofs.Lr.Renumbering
import SyntaxTables.Proofs.ParseTable.Conflicts

/-!
# Tables of renumbered productions

States alike support actions alike, so what can be told of a cell without comparing numbers of
productions is the same in both tables: whether it is empty, shifts and accepting, and how many
reductions had to give way. Only which of several reductions stays is a matter of their numbers.
-/

namespace SyntaxTables

/-- Actions that differ in the number of a production only. -/
inductive Action.Alike (r : Nat → Nat → Prop) : Action → Action → Prop
  | shift (t : Nat) : Alike r (.shift t) (.shift t)
  | reduce {i j : Nat} : r i j → Alike r (.reduce i) (.reduce j)
  | accept : Alike r .accept .accept

theorem Action.alike_flip {r : Nat → Nat → Prop} {act act' : Action} :
    act'.Alike (flip r) act ↔ act.Alike r act' := by
  constructor <;> rintro (t | hij | _)
  · exact .shift t
  · exact .reduce hij
  · exact .accept
  · exact .shift t
  · exact .reduce hij
  · exact .accept

theorem Action.biUnique_alike {r : Nat → Nat → Prop} (hr : Relator.BiUnique r) :
    Relator.BiUnique (Action.Alike r) := by
  constructor
  · rintro _ _ _ (_ | hij | _) (_ | hkj | _)
    · rfl
    · rw [hr.1 hij hkj]
    · rfl
  · rintro _ _ _ (_ | hij | _) (_ | hik | _)
    · rfl
    · rw [hr.2 hij hik]
    · rfl

def Item.renumber (ρ : Nat → Nat) (it : Item) : Item := { it with production := ρ it.production }

theorem Item.renumber_injective {ρ : Nat → Nat} (hρ : ρ.Injective) :
    (Item.renumber ρ).Injective := by
  rintro ⟨i, d, x⟩ ⟨j, e, y⟩ heq
  simp only [Item.renumber, Item.mk.injEq] at heq
  obtain ⟨hp, rfl, rfl⟩ := heq
  rw [hρ hp]

def Action.renumber (ρ : Nat → Nat) : Action → Action
  | .reduce i => .reduce (ρ i)
  | act => act

namespace LrAutomaton

variable {r : Nat → Nat → Prop} {a b : LrAutomaton}

theorem Alike.flip {g h : Grammar} (halike : Alike (g.Matching h r) a b) :
    Alike (h.Matching g (flip r)) b a where
  length := halike.length.symm
  left hit' := by
    obtain ⟨it, hiit, hit⟩ := halike.right hit'
    exact ⟨it, Grammar.itemsAlike_flip.2 hiit, hit⟩
  right hit := by
    obtain ⟨it', hiit, hit'⟩ := halike.left hit
    exact ⟨it', Grammar.itemsAlike_flip.2 hiit, hit'⟩
  edge_iff := halike.edge_iff.symm

end LrAutomaton

namespace Grammar

open LrAutomaton

variable {g h : Grammar} {r : Nat → Nat → Prop} {a b : LrAutomaton}

/-! ### What a table has for every automaton -/

section Cells

variable (ha : Faithful g a)

include ha

theorem length_rows :
    (g.parseTable a).action.map List.length = List.replicate a.states.length g.width := by
  apply List.ext_getElem?
  intro s
  rw [List.getElem?_map, List.getElem?_replicate]
  cases hq : a.states[s]? with
  | none =>
    have hlength : (g.parseTable a).action.length = a.states.length := by
      simp [parseTable, placements]
    rw [List.getElem?_eq_none_iff] at hq
    rw [if_neg (Nat.not_lt.2 hq), List.getElem?_eq_none_iff.2 (hlength.trans_le hq)]
    rfl
  | some q =>
    rw [row_parseTable hq, if_pos (List.getElem?_eq_some_iff.1 hq).1, Option.map_some,
      length_fillState ha hq]

theorem action?_eq_none_iff {s x : Nat} :
    (g.parseTable a).action? s x = none ↔ ∀ act, ¬ Supports g a s x act := by
  constructor
  · intro hnone act hact
    obtain ⟨hs, hx⟩ := lt_of_supports ha hact
    have hchosen := chosen_action? ha hs hx
    rw [hnone] at hchosen
    exact hchosen act hact
  · intro hnone
    by_contra hne
    obtain ⟨act, hact⟩ := Option.ne_none_iff_exists'.1 hne
    exact hnone act (supports_of_action? ha hact)

theorem action?_eq_some_iff {s x : Nat} {act : Action} :
    (g.parseTable a).action? s x = some act ↔ Chosen g a s x (some act) := by
  constructor
  · intro hact
    obtain ⟨hs, hx⟩ := lt_of_action? ha hact
    rw [← hact]
    exact chosen_action? ha hs hx
  · intro hchosen
    obtain ⟨hs, hx⟩ := lt_of_supports ha hchosen.supports
    exact (chosen_action? ha hs hx).unique hchosen

/-- Where no conflict between reductions is on record, only the one that stays is supported. -/
theorem eq_of_reduce {s x i k : Nat} (hact : (g.parseTable a).action? s x = some (.reduce i))
    (hnone : ∀ c ∈ (g.parseTable a).conflicts, c.state = s → c.terminal = x →
      c.kind ≠ .reduceReduce) (hk : Supports g a s x (.reduce k)) : k = i := by
  by_contra hne
  refine hnone ⟨s, x, .reduceReduce, .reduce i, .reduce k⟩
    ((mem_conflicts_parseTable ha).2 ⟨k, _, hk, hact, ?_, rfl⟩) rfl rfl rfl
  simpa [eq_comm] using hne

end Cells

theorem goto_eq (halike : Alike r a b) (ha : Faithful g a) (hb : Faithful h b) :
    (h.parseTable b).goto = (g.parseTable a).goto := by
  have hlength : (h.parseTable b).goto.length = (g.parseTable a).goto.length := by
    simpa [parseTable] using halike.length
  have hgoto : ∀ s n, (h.parseTable b).goto? s n = (g.parseTable a).goto? s n := fun s n =>
    Option.ext fun t => by rw [goto?_parseTable hb, goto?_parseTable ha, halike.edge_iff]
  apply List.ext_getElem hlength
  intro s hs hs'
  apply NatMap.ext_get?
  intro n
  simpa [ParseTable.goto?, List.getElem?_eq_getElem hs, List.getElem?_eq_getElem hs'] using
    hgoto s n

namespace Renumbered

section Tables

variable (hr : g.Renumbered h r) (halike : Alike (g.Matching h r) a b)

include hr halike

/-! ### Cells -/

theorem exists_supports {s x : Nat} {act : Action} (hact : Supports g a s x act) :
    ∃ act', act.Alike r act' ∧ Supports h b s x act' := by
  cases act with
  | shift t => exact ⟨_, .shift t, halike.edge_iff.2 hact⟩
  | accept =>
    obtain ⟨rfl, hit⟩ := hact
    obtain ⟨⟨j, d, y⟩, ⟨hp, hd, hl⟩, hit'⟩ := halike.left hit
    obtain rfl := (hr.matching_augmented_iff hp).1 rfl
    obtain rfl : d = 1 := hd
    obtain rfl : y = g.eof := hl
    refine ⟨_, .accept, hr.eof_eq.symm, ?_⟩
    rwa [hr.eof_eq]
  | reduce i =>
    obtain ⟨hi, hit⟩ := hact
    obtain ⟨⟨j, d, y⟩, ⟨hp, hd, hl⟩, hit'⟩ := halike.left hit
    obtain rfl : d = (g.body i).length := hd
    obtain rfl : y = x := hl
    refine ⟨.reduce j, .reduce (hp.resolve_right fun he => hi he.1),
      mt (hr.matching_augmented_iff hp).2 hi, ?_⟩
    rwa [hr.body_eq hp]

theorem supports_iff {s x : Nat} {act act' : Action} (hacts : act.Alike r act') :
    Supports h b s x act' ↔ Supports g a s x act := by
  have hunique := Action.biUnique_alike hr.unique
  constructor
  · intro hact'
    obtain ⟨c, hc, hact⟩ := hr.symm.exists_supports halike.flip hact'
    rwa [hunique.1 hacts (Action.alike_flip.1 hc)]
  · intro hact
    obtain ⟨c, hc, hact'⟩ := hr.exists_supports halike hact
    rwa [hunique.2 hacts hc]

theorem shift_iff {s x t : Nat} : Supports h b s x (.shift t) ↔ Supports g a s x (.shift t) :=
  hr.supports_iff halike (.shift t)

theorem accept_iff {s x : Nat} : Supports h b s x .accept ↔ Supports g a s x .accept :=
  hr.supports_iff halike .accept

variable (ha : Faithful g a) (hb : Faithful h b)

include ha hb

theorem action?_eq_shift_iff {s x t : Nat} :
    (h.parseTable b).action? s x = some (.shift t) ↔
      (g.parseTable a).action? s x = some (.shift t) := by
  rw [action?_eq_some_iff ha, action?_eq_some_iff hb]
  exact hr.shift_iff halike

theorem action?_eq_accept_iff {s x : Nat} :
    (h.parseTable b).action? s x = some .accept ↔
      (g.parseTable a).action? s x = some .accept := by
  rw [action?_eq_some_iff ha, action?_eq_some_iff hb]
  exact and_congr (hr.accept_iff halike) (forall_congr' fun t => not_congr (hr.shift_iff halike))

theorem action?_isSome_eq {s x : Nat} :
    ((h.parseTable b).action? s x).isSome = ((g.parseTable a).action? s x).isSome := by
  rw [Bool.eq_iff_iff, ← Option.ne_none_iff_isSome, ← Option.ne_none_iff_isSome, ne_eq, ne_eq,
    action?_eq_none_iff ha, action?_eq_none_iff hb, not_iff_not]
  constructor
  · intro hnone act hact
    obtain ⟨act', -, hact'⟩ := hr.exists_supports halike hact
    exact hnone act' hact'
  · intro hnone act' hact'
    obtain ⟨act, -, hact⟩ := hr.symm.exists_supports halike.flip hact'
    exact hnone act hact

/-- What stays in a cell is a shift, accepting or a reduction in both tables alike. -/
theorem conflictKind_eq {s x : Nat} {act act' : Action}
    (hact : (g.parseTable a).action? s x = some act)
    (hact' : (h.parseTable b).action? s x = some act') :
    act'.conflictKind = act.conflictKind := by
  cases act with
  | shift t =>
    rw [(hr.action?_eq_shift_iff halike ha hb).2 hact] at hact'
    obtain rfl := Option.some.inj hact'
    rfl
  | accept =>
    rw [(hr.action?_eq_accept_iff halike ha hb).2 hact] at hact'
    obtain rfl := Option.some.inj hact'
    rfl
  | reduce i =>
    cases act' with
    | reduce j => rfl
    | shift t => simp [(hr.action?_eq_shift_iff halike ha hb).1 hact'] at hact
    | accept => simp [(hr.action?_eq_accept_iff halike ha hb).1 hact'] at hact

theorem exists_action?_eq_reduce {s x j : Nat}
    (hact' : (h.parseTable b).action? s x = some (.reduce j)) :
    ∃ i, (g.parseTable a).action? s x = some (.reduce i) := by
  have hsome := hr.action?_isSome_eq halike ha hb (s := s) (x := x)
  rw [hact', Option.isSome_some, eq_comm, Option.isSome_iff_exists] at hsome
  obtain ⟨act, hact⟩ := hsome
  have hkind := hr.conflictKind_eq halike ha hb hact hact'
  cases act with
  | reduce i => exact ⟨i, hact⟩
  | shift t => simp [Action.conflictKind] at hkind
  | accept => simp [Action.conflictKind] at hkind

/-- Without a conflict between reductions, a reduction that stays is the only one. -/
theorem action?_eq_reduce_iff {s x i j : Nat} (hij : r i j)
    (hnone : ∀ c ∈ (g.parseTable a).conflicts, c.state = s → c.terminal = x →
      c.kind ≠ .reduceReduce) :
    (h.parseTable b).action? s x = some (.reduce j) ↔
      (g.parseTable a).action? s x = some (.reduce i) := by
  constructor
  · intro hact'
    have hi : Supports g a s x (.reduce i) :=
      (hr.supports_iff halike (.reduce hij)).1 (supports_of_action? hb hact')
    obtain ⟨k, hact⟩ := hr.exists_action?_eq_reduce halike ha hb hact'
    rw [hact, eq_of_reduce ha hact hnone hi]
  · intro hact
    obtain ⟨k, hact'⟩ := hr.symm.exists_action?_eq_reduce halike.flip hb ha hact
    -- what is reduced instead corresponds to a reduction here, and there is only one
    obtain ⟨_, hkk, hk⟩ := hr.symm.exists_supports halike.flip (supports_of_action? hb hact')
    cases hkk with
    | reduce hik =>
      obtain rfl := eq_of_reduce ha hact hnone hk
      rw [hact', hr.unique.2 hik hij]

end Tables

/-- Where the added productions correspond, items alike differ by the function only. -/
theorem renumber_of_alike {ρ : Nat → Nat} (haugmented : ρ h.augmented = g.augmented) {it it' : Item}
    (halike : g.ItemsAlike h (h.Moved ρ) it it') : it'.renumber ρ = it := by
  obtain ⟨i, d, x⟩ := it
  obtain ⟨j, d', x'⟩ := it'
  obtain ⟨⟨rfl, -⟩ | ⟨rfl, rfl⟩, rfl, rfl⟩ := halike
  · rfl
  · rw [Item.renumber, haugmented]

theorem holds_renumber_iff {ρ : Nat → Nat} (halike : Alike (g.Matching h (h.Moved ρ)) a b)
    (hinj : ρ.Injective) (haugmented : ρ h.augmented = g.augmented) {s : Nat} {it : Item} :
    a.Holds s (it.renumber ρ) ↔ b.Holds s it := by
  constructor
  · intro hit
    obtain ⟨it', hiit, hit'⟩ := halike.left hit
    have heq := renumber_of_alike haugmented hiit
    rwa [← Item.renumber_injective hinj heq]
  · intro hit'
    obtain ⟨it', hiit, hit⟩ := halike.right hit'
    rwa [renumber_of_alike haugmented hiit]

/-- A cell is that of the other table with its production named by the other number, as soon as this
goes for reductions. -/
theorem action?_eq_map {ρ : Nat → Nat} (hr : g.Renumbered h (h.Moved ρ))
    (halike : Alike (g.Matching h (h.Moved ρ)) a b) (ha : Faithful g a) (hb : Faithful h b)
    {s x : Nat} (hreduce : ∀ {i j}, h.Moved ρ i j →
      (h.parseTable b).action? s x = some (.reduce j) →
        (g.parseTable a).action? s x = some (.reduce i)) :
    (g.parseTable a).action? s x = ((h.parseTable b).action? s x).map (.renumber ρ) := by
  cases hact' : (h.parseTable b).action? s x with
  | none =>
    have hsome := hr.action?_isSome_eq halike ha hb (s := s) (x := x)
    rw [hact'] at hsome
    simpa using hsome.symm
  | some act' =>
    cases act' with
    | shift t => exact (hr.action?_eq_shift_iff halike ha hb).1 hact'
    | accept => exact (hr.action?_eq_accept_iff halike ha hb).1 hact'
    | reduce j =>
      obtain ⟨hj, hit⟩ := supports_of_action? hb hact'
      have hp := (hb.admits hit).production.resolve_left hj
      exact hreduce ⟨rfl, hp⟩ hact'

end Renumbered

/-! ### Numbers of conflicts -/

section Competing

variable (ha : Faithful g a)

open scoped Classical in
noncomputable def competing (g : Grammar) (a : LrAutomaton) (s x : Nat) : Finset Nat :=
  (Finset.range g.productions.length).filter fun i => Supports g a s x (.reduce i)

include ha

theorem mem_competing {s x i : Nat} :
    i ∈ g.competing a s x ↔ Supports g a s x (.reduce i) := by
  classical
  rw [competing, Finset.mem_filter, Finset.mem_range, and_iff_right_iff_imp]
  rintro ⟨hi, hit⟩
  obtain ⟨p, hp⟩ := (ha.admits hit).production.resolve_left hi
  exact lt_length_of_usable hp

/-- The conflicts of a cell, by the action kept in it. -/
theorem mem_conflicts_of_action? {s x : Nat} {kept : Action}
    (hkept : (g.parseTable a).action? s x = some kept) {c : Conflict} :
    c ∈ (g.parseTable a).conflicts ∧ c.state = s ∧ c.terminal = x ↔
      ∃ i, (Supports g a s x (.reduce i) ∧ kept ≠ .reduce i) ∧
        ⟨s, x, kept.conflictKind, kept, .reduce i⟩ = c := by
  constructor
  · rintro ⟨hc, rfl, rfl⟩
    obtain ⟨i, kept', hact, hkept', hne, heq⟩ := (mem_conflicts_parseTable ha).1 hc
    obtain rfl := Option.some.inj (hkept.symm.trans hkept')
    exact ⟨i, ⟨hact, hne⟩, heq.symm⟩
  · rintro ⟨i, ⟨hact, hne⟩, rfl⟩
    exact ⟨(mem_conflicts_parseTable ha).2 ⟨i, kept, hact, hkept, hne, rfl⟩, rfl, rfl⟩

/-- The conflicts of a cell are as many as the reductions that do not stay, and all of the kind that
the action kept makes them. -/
theorem countP_conflicts_of_action? {s x : Nat} {kept : Action}
    (hkept : (g.parseTable a).action? s x = some kept) (kind : ConflictKind) :
    (g.parseTable a).conflicts.countP
        (fun c => c.state = s ∧ c.terminal = x ∧ c.kind = kind) =
      if kept.conflictKind = kind then
        ((g.competing a s x).filter fun i => kept ≠ .reduce i).card
      else 0 := by
  classical
  have hcell : ∀ c, (c ∈ (g.parseTable a).conflicts ∧ c.state = s ∧ c.terminal = x ∧
      c.kind = kind) ↔ (∃ i, (Supports g a s x (.reduce i) ∧ kept ≠ .reduce i) ∧
        ⟨s, x, kept.conflictKind, kept, .reduce i⟩ = c) ∧ c.kind = kind := fun c => by
    rw [← mem_conflicts_of_action? ha hkept, and_assoc, and_assoc]
  split_ifs with hkind
  · have hset : ((g.parseTable a).conflicts.filter
        fun c => c.state = s ∧ c.terminal = x ∧ c.kind = kind).toFinset =
          ((g.competing a s x).filter fun i => kept ≠ .reduce i).image
            fun i => ⟨s, x, kept.conflictKind, kept, .reduce i⟩ := by
      ext c
      simp only [List.mem_toFinset, List.mem_filter, decide_eq_true_eq, Finset.mem_image,
        Finset.mem_filter, mem_competing ha, hcell, and_iff_left_iff_imp]
      rintro ⟨i, -, rfl⟩
      exact hkind
    rw [List.countP_eq_length_filter, ← List.toFinset_card_of_nodup
      ((nodup_conflicts ha).filter _), hset, Finset.card_image_of_injective]
    intro i j hij
    simpa using hij
  · rw [List.countP_eq_zero]
    intro c hc hcounted
    obtain ⟨⟨i, -, rfl⟩, hck⟩ := (hcell c).1 ⟨hc, of_decide_eq_true hcounted⟩
    exact hkind hck

/-- Of the reductions at most one stays. -/
theorem card_rivals {s x : Nat} {kept : Action}
    (hkept : (g.parseTable a).action? s x = some kept) :
    ((g.competing a s x).filter fun i => kept ≠ .reduce i).card =
      (g.competing a s x).card - if kept.conflictKind = .reduceReduce then 1 else 0 := by
  classical
  cases kept with
  | reduce k =>
    have hk : k ∈ g.competing a s x := (mem_competing ha).2 (supports_of_action? ha hkept)
    have hrivals : ((g.competing a s x).filter fun i => Action.reduce k ≠ .reduce i) =
        (g.competing a s x).erase k := by
      ext i
      simp [eq_comm, and_comm]
    rw [hrivals, Finset.card_erase_of_mem hk, Action.conflictKind, if_pos rfl]
  | shift t => simp [Action.conflictKind]
  | accept => simp [Action.conflictKind]

theorem countP_conflicts_of_none {s x : Nat} (hnone : (g.parseTable a).action? s x = none)
    (kind : ConflictKind) :
    (g.parseTable a).conflicts.countP
      (fun c => c.state = s ∧ c.terminal = x ∧ c.kind = kind) = 0 := by
  rw [List.countP_eq_zero]
  simp only [decide_eq_true_eq]
  rintro c hc ⟨rfl, rfl, -⟩
  obtain ⟨i, kept, -, hkept, -⟩ := (mem_conflicts_parseTable ha).1 hc
  simp [hnone] at hkept

end Competing

namespace Renumbered

section Counts

variable (hr : g.Renumbered h r) (halike : Alike (g.Matching h r) a b) (ha : Faithful g a)
  (hb : Faithful h b)

include hr halike ha hb

theorem card_competing_le (s x : Nat) :
    (g.competing a s x).card ≤ (h.competing b s x).card := by
  apply Finset.card_le_card_of_forall_subsingleton r
  · intro i hi
    obtain ⟨_, hij, hj⟩ := hr.exists_supports halike ((mem_competing ha).1 hi)
    cases hij with
    | reduce hij => exact ⟨_, (mem_competing hb).2 hj, hij⟩
  · intro j _ i hi k hk
    exact hr.unique.1 hi.2 hk.2

theorem card_competing_eq (s x : Nat) :
    (h.competing b s x).card = (g.competing a s x).card :=
  Nat.le_antisymm (hr.symm.card_competing_le halike.flip hb ha s x)
    (hr.card_competing_le halike ha hb s x)

theorem countP_conflicts_eq (s x : Nat) (kind : ConflictKind) :
    (h.parseTable b).conflicts.countP
        (fun c => c.state = s ∧ c.terminal = x ∧ c.kind = kind) =
      (g.parseTable a).conflicts.countP
        (fun c => c.state = s ∧ c.terminal = x ∧ c.kind = kind) := by
  have hsome := hr.action?_isSome_eq halike ha hb (s := s) (x := x)
  cases hact : (g.parseTable a).action? s x with
  | none =>
    cases hact' : (h.parseTable b).action? s x with
    | none => rw [countP_conflicts_of_none ha hact, countP_conflicts_of_none hb hact']
    | some act' => simp [hact, hact'] at hsome
  | some act =>
    cases hact' : (h.parseTable b).action? s x with
    | none => simp [hact, hact'] at hsome
    | some act' =>
      rw [countP_conflicts_of_action? ha hact, countP_conflicts_of_action? hb hact',
        card_rivals ha hact, card_rivals hb hact', hr.conflictKind_eq halike ha hb hact hact',
        hr.card_competing_eq halike ha hb]

end Counts

end Renumbered

end Grammar

end SyntaxTables
