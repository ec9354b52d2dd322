import SyntaxTables.Proofs.ParseTable.Fill

/-!
# Conflicts and their records

All actions that a state supports on a terminal compete for one cell. The cell holds the action that
is preferred, and each of the others is on record once, with the action that stays and the kind of
the conflict between the two. So a table records no conflict exactly if nothing competes.
-/

namespace SyntaxTables

/-- The kind of a conflict tells which actions stay and go. A shift and accepting never meet. -/
inductive ConflictKind.Fits : ConflictKind → Action → Action → Prop
  | shiftReduce (t i : Nat) : Fits .shiftReduce (.shift t) (.reduce i)
  | reduceReduce (i j : Nat) : Fits .reduceReduce (.reduce i) (.reduce j)
  | reduceAccept (i : Nat) : Fits .reduceAccept .accept (.reduce i)

theorem ConflictKind.fits_conflictKind (kept : Action) (i : Nat) :
    kept.conflictKind.Fits kept (.reduce i) := by
  cases kept with
  | shift t => exact .shiftReduce t i
  | reduce j => exact .reduceReduce j i
  | accept => exact .reduceAccept i

namespace LrAutomaton

variable {g : Grammar} {a : LrAutomaton}

theorem Chosen.eq_reduce_of_ne (h : Faithful g a) {s x : Nat} {o : Option Action}
    (hchosen : Chosen g a s x o) {act : Action} (hact : Supports g a s x act) (hne : o ≠ some act) :
    ∃ i, act = .reduce i := by
  have hnever : ∀ t, Supports g a s x (.shift t) → ¬ Supports g a s x .accept :=
    fun t ht hacc => absurd (hacc.1 ▸ lt_eof_of_edge h ht) (Nat.lt_irrefl _)
  cases act with
  | reduce i => exact ⟨i, rfl⟩
  | shift t =>
    have hshift : Chosen g a s x (some (.shift t)) := hact
    exact absurd (hchosen.unique hshift) hne
  | accept =>
    have haccept : Chosen g a s x (some .accept) := ⟨hact, fun t ht => hnever t ht hact⟩
    exact absurd (hchosen.unique haccept) hne

end LrAutomaton

namespace Grammar

open LrAutomaton

variable {g : Grammar} {a : LrAutomaton}

theorem nodup_conflicts (h : Faithful g a) : (g.parseTable a).conflicts.Nodup := by
  change ((a.placements g).flatMap Placement.conflicts).Nodup
  rw [placements, List.flatMap_map, List.nodup_flatMap]
  constructor
  · rintro ⟨q, s⟩ hqs
    have hq := List.mem_zipIdx_iff_getElem?.1 hqs
    -- two records of one state differ in their terminals or in the productions that go
    rw [(placed_fillState h hq s).conflicts]
    apply (pairwise_reductions h hq).filterMap
    intro it it' hlater c hc c' hc' hsame
    obtain ⟨kept, -, -, heq⟩ := (conflict?_eq_some_iff hq).1 hc
    obtain ⟨kept', -, -, heq'⟩ := (conflict?_eq_some_iff hq).1 hc'
    rw [heq, heq'] at hsame
    simp only [Conflict.mk.injEq, Action.reduce.injEq] at hsame
    exact absurd (hlater hsame.2.1) (hsame.2.2.2.2 ▸ Nat.lt_irrefl _)
  · have hnumbers : a.states.zipIdx.Pairwise fun p p' => p.2 < p'.2 := by
      rw [← List.pairwise_map, List.zipIdx_map_snd]
      exact List.pairwise_lt_range'
    apply hnumbers.imp_of_mem
    rintro ⟨q, s⟩ ⟨q', s'⟩ hqs hqs' hlt c hc hc'
    have hq := List.mem_zipIdx_iff_getElem?.1 hqs
    have hq' := List.mem_zipIdx_iff_getElem?.1 hqs'
    obtain ⟨it, -, hlost⟩ := (mem_conflicts_fillState h hq s).1 hc
    obtain ⟨it', -, hlost'⟩ := (mem_conflicts_fillState h hq' s').1 hc'
    obtain ⟨kept, -, -, heq⟩ := (conflict?_eq_some_iff hq).1 hlost
    obtain ⟨kept', -, -, heq'⟩ := (conflict?_eq_some_iff hq').1 hlost'
    have hstate : s = s' := congrArg Conflict.state (heq.symm.trans heq')
    exact absurd hstate (Nat.ne_of_lt hlt)

/-- Each action that is supported and does not stay is on record exactly once. -/
theorem countP_conflicts (h : Faithful g a) {s x : Nat} {act : Action}
    (hact : Supports g a s x act) (hne : (g.parseTable a).action? s x ≠ some act) :
    (g.parseTable a).conflicts.countP
      (fun c => c.state = s ∧ c.terminal = x ∧ c.dropped = act) = 1 := by
  obtain ⟨hs, hx⟩ := lt_of_supports h hact
  have hchosen := chosen_action? h hs hx
  obtain ⟨i, rfl⟩ := hchosen.eq_reduce_of_ne h hact hne
  obtain ⟨kept, hkept⟩ := exists_action?_of_complete h hact.1 hact.2
  have hother : kept ≠ .reduce i := fun he => hne (he ▸ hkept)
  have hmem : ⟨s, x, kept.conflictKind, kept, .reduce i⟩ ∈ (g.parseTable a).conflicts :=
    (mem_conflicts_parseTable h).2 ⟨i, kept, hact, hkept, hother, rfl⟩
  rw [← List.count_eq_one_of_mem (nodup_conflicts h) hmem, List.count_eq_countP]
  apply List.countP_congr
  intro c hc
  obtain ⟨j, kept', -, hkept', -, heq⟩ := (mem_conflicts_parseTable h).1 hc
  simp only [decide_eq_true_eq, beq_iff_eq]
  constructor
  · rintro ⟨rfl, rfl, hdropped⟩
    obtain rfl := Option.some.inj (hkept.symm.trans hkept')
    rw [heq, Action.reduce.injEq] at hdropped
    rw [heq, hdropped]
  · rintro rfl
    exact ⟨rfl, rfl, rfl⟩

theorem conflicts_eq_nil_iff_unique (h : Faithful g a) :
    (g.parseTable a).conflicts = [] ↔
      ∀ s x act act', Supports g a s x act → Supports g a s x act' → act = act' := by
  constructor
  · intro hnone s x act act' hact hact'
    have hstays : ∀ act, Supports g a s x act → (g.parseTable a).action? s x = some act := by
      intro act hact
      by_contra hne
      simpa [hnone] using countP_conflicts h hact hne
    exact Option.some.inj ((hstays act hact).symm.trans (hstays act' hact'))
  · intro hunique
    rw [conflicts_eq_nil_iff h]
    intro s i x hi hit
    obtain ⟨act, hact⟩ := exists_action?_of_complete h hi hit
    rw [hact, hunique s x act (.reduce i) (supports_of_action? h hact) ⟨hi, hit⟩]

/-- What becomes of the actions that compete for one cell. -/
theorem buildParser_settles (h : g.validate.1 = .ok ()) (settings : ParserSettings) :
    ∃ t reports, g.buildParser settings = (.ok t, g.validate.2 ++ reports) ∧
      (∀ s x, s < (g.lrAutomaton settings).states.length → x ≤ g.eof →
        ∃ row cell, t.action[s]? = some row ∧ row[x]? = some cell ∧
          Chosen g (g.lrAutomaton settings) s x cell) ∧
      (∀ c ∈ t.conflicts, Supports g (g.lrAutomaton settings) c.state c.terminal c.dropped ∧
        t.action? c.state c.terminal = some c.kept ∧ c.kept ≠ c.dropped ∧
        c.kind.Fits c.kept c.dropped) ∧
      (∀ s x act, Supports g (g.lrAutomaton settings) s x act → t.action? s x ≠ some act →
        t.conflicts.countP (fun c => c.state = s ∧ c.terminal = x ∧ c.dropped = act) = 1) ∧
      List.Forall₂ (fun c d => d = g.conflictReport c ∧ d.severity = .warning) t.conflicts reports ∧
      (t.conflicts = [] ↔ ∀ s x act act', Supports g (g.lrAutomaton settings) s x act →
        Supports g (g.lrAutomaton settings) s x act' → act = act') := by
  have hfaithful := faithful_lrAutomaton (declares_start_of_validate h) settings
  refine ⟨_, _, buildParser_of_validate h settings, ?_, ?_, ?_, ?_, ?_⟩
  · intro s x hs hx
    have hq := List.getElem?_eq_getElem hs
    have hlength := length_fillState hfaithful hq s
    have hwidth : x < g.width := Nat.lt_succ_of_le hx
    have hlt := hwidth
    rw [← hlength] at hlt
    have hchosen := chosen_fillState hfaithful hq s hwidth
    rw [List.getElem?_eq_getElem hlt, Option.join_some] at hchosen
    exact ⟨_, _, row_parseTable hq, List.getElem?_eq_getElem hlt, hchosen⟩
  · intro c hc
    obtain ⟨i, kept, hact, hkept, hne, heq⟩ := (mem_conflicts_parseTable hfaithful).1 hc
    rw [heq]
    exact ⟨hact, hkept, hne, ConflictKind.fits_conflictKind kept i⟩
  · exact fun s x act hact hne => countP_conflicts hfaithful hact hne
  · rw [List.forall₂_map_right_iff, List.forall₂_same]
    exact fun c _ => ⟨rfl, rfl⟩
  · exact conflicts_eq_nil_iff_unique hfaithful

/-- A grammar whose table has conflicts of every kind. -/
def ambiguous : Grammar where
  terminals := ["a"]
  nonterminals := ["S"]
  start := 0
  productions := [⟨.normal, 0, [.nonterminal 0, .nonterminal 0], none⟩,
    ⟨.normal, 0, [.nonterminal 0], none⟩, ⟨.normal, 0, [.terminal 0], none⟩,
    ⟨.normal, 0, [.terminal 0], none⟩]

/-- Two reductions lose against one shift, and each of them is on record. -/
theorem buildParser_settles_ambiguous :
    (ambiguous.parseTable (ambiguous.lrAutomaton {})).conflicts =
      [⟨1, 0, .reduceReduce, .reduce 2, .reduce 3⟩, ⟨1, 1, .reduceReduce, .reduce 2, .reduce 3⟩,
        ⟨2, 0, .shiftReduce, .shift 1, .reduce 1⟩, ⟨2, 1, .reduceAccept, .accept, .reduce 1⟩,
        ⟨3, 0, .shiftReduce, .shift 1, .reduce 0⟩, ⟨3, 0, .shiftReduce, .shift 1, .reduce 1⟩,
        ⟨3, 1, .reduceReduce, .reduce 0, .reduce 1⟩] ∧
    ∃ t reports, ambiguous.buildParser {} = (.ok t, ambiguous.validate.2 ++ reports) ∧
      (∀ s x, s < (ambiguous.lrAutomaton {}).states.length → x ≤ ambiguous.eof →
        ∃ row cell, t.action[s]? = some row ∧ row[x]? = some cell ∧
          Chosen ambiguous (ambiguous.lrAutomaton {}) s x cell) ∧
      (∀ c ∈ t.conflicts,
        Supports ambiguous (ambiguous.lrAutomaton {}) c.state c.terminal c.dropped ∧
        t.action? c.state c.terminal = some c.kept ∧ c.kept ≠ c.dropped ∧
        c.kind.Fits c.kept c.dropped) ∧
      (∀ s x act, Supports ambiguous (ambiguous.lrAutomaton {}) s x act →
        t.action? s x ≠ some act →
        t.conflicts.countP (fun c => c.state = s ∧ c.terminal = x ∧ c.dropped = act) = 1) ∧
      List.Forall₂ (fun c d => d = ambiguous.conflictReport c ∧ d.severity = .warning)
        t.conflicts reports ∧
      (t.conflicts = [] ↔
        ∀ s x act act', Supports ambiguous (ambiguous.lrAutomaton {}) s x act →
          Supports ambiguous (ambiguous.lrAutomaton {}) s x act' → act = act') := by
  have hvalid : ambiguous.validate.1 = .ok () := by decide +kernel
  exact ⟨by decide +kernel, buildParser_settles hvalid {}⟩

end Grammar

end SyntaxTables
