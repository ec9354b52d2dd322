import SyntaxTables.Proofs.ParseTable.Placement

/-!
# What the cells of a table say

Whatever stands in a cell is supported by an item or an edge of the state. Shifts and accepting
always get their cells, and reductions do if the table records no conflict: a conflict is recorded
for each reduction that is supported and does not stay.
-/

namespace SyntaxTables

namespace Grammar

open LrAutomaton

variable {g : Grammar} {a : LrAutomaton}

theorem getElem?_placements {s : Nat} {f : Placement} :
    (a.placements g)[s]? = some f ↔ ∃ q, a.states[s]? = some q ∧ a.fillState g s q = f := by
  simp [placements, List.getElem?_zipIdx]

theorem row_parseTable {s : Nat} {q : LrState} (hq : a.states[s]? = some q) :
    (g.parseTable a).action[s]? = some (a.fillState g s q).row := by
  have hplaced := (getElem?_placements (g := g)).2 ⟨q, hq, rfl⟩
  simp [parseTable, hplaced]

theorem action?_parseTable {s : Nat} {q : LrState} (hq : a.states[s]? = some q) (x : Nat) :
    (g.parseTable a).action? s x = (a.fillState g s q).row[x]?.join := by
  rw [ParseTable.action?, row_parseTable hq, Option.bind_some]

theorem chosen_action? (h : Faithful g a) {s x : Nat} (hs : s < a.states.length)
    (hx : x < g.width) : Chosen g a s x ((g.parseTable a).action? s x) := by
  have hq := List.getElem?_eq_getElem hs
  rw [action?_parseTable hq]
  exact chosen_fillState h hq s hx

theorem lt_of_action? (h : Faithful g a) {s x : Nat} {act : Action}
    (hact : (g.parseTable a).action? s x = some act) : s < a.states.length ∧ x < g.width := by
  cases hq : a.states[s]? with
  | none =>
    have hnone : (a.placements g)[s]? = none := by
      rw [List.getElem?_eq_none_iff] at hq ⊢
      simpa [placements] using hq
    simp [ParseTable.action?, parseTable, hnone] at hact
  | some q =>
    refine ⟨(List.getElem?_eq_some_iff.1 hq).1, ?_⟩
    rw [action?_parseTable hq, Option.join_eq_some_iff] at hact
    rw [← length_fillState h hq s]
    exact (List.getElem?_eq_some_iff.1 hact).1

/-- The action of a state on a terminal, with what it rests on. -/
theorem supports_of_action? (h : Faithful g a) {s x : Nat} {act : Action}
    (hact : (g.parseTable a).action? s x = some act) : Supports g a s x act := by
  obtain ⟨hs, hx⟩ := lt_of_action? h hact
  have hchosen := chosen_action? h hs hx
  rw [hact] at hchosen
  exact hchosen.supports

theorem lt_of_supports (h : Faithful g a) {s x : Nat} {act : Action}
    (hact : Supports g a s x act) : s < a.states.length ∧ x < g.width := by
  have hholds : ∀ {it}, a.Holds s it → s < a.states.length :=
    fun ⟨_, hq, _⟩ => (List.getElem?_eq_some_iff.1 hq).1
  cases act with
  | shift t =>
    obtain ⟨it, hit, -⟩ := h.carries hact
    exact ⟨hholds hit, Nat.lt_succ_of_lt (lt_eof_of_edge h hact)⟩
  | reduce i => exact ⟨hholds hact.2, (h.admits hact.2).lookahead⟩
  | accept => exact ⟨hholds hact.2, hact.1 ▸ Nat.lt_succ_self _⟩

/-- An action comes from an item behind whose mark the terminal can come. -/
theorem exists_expects_of_action? (h : Faithful g a) {s x : Nat} {act : Action}
    (hact : (g.parseTable a).action? s x = some act) : ∃ it, a.Holds s it ∧ g.Expects it x := by
  have hsupports := supports_of_action? h hact
  cases act with
  | shift n =>
    obtain ⟨it, hit, hx⟩ := h.carries hsupports
    exact ⟨it, hit, expects_terminal hx⟩
  | reduce i => exact ⟨_, hsupports.2, expects_lookahead i x⟩
  | accept =>
    obtain ⟨rfl, hit⟩ := hsupports
    have hlength : (g.body g.augmented).length = 1 := by simp [body_augmented]
    exact ⟨_, hit, hlength ▸ expects_lookahead g.augmented g.eof⟩

theorem goto?_parseTable (h : Faithful g a) {s n t : Nat} :
    (g.parseTable a).goto? s n = some t ↔ a.Edge s (.nonterminal n) t := by
  unfold ParseTable.goto? LrAutomaton.Edge
  cases hq : a.states[s]? with
  | none => simp [parseTable, hq]
  | some q =>
    have hkeys := h.keys q (List.mem_of_getElem? hq)
    have hgoto : (g.parseTable a).goto[s]? = some (gotoRow q) := by simp [parseTable, hq]
    simp only [hgoto, Option.bind_some, Option.some.injEq, exists_eq_left', LrState.target?,
      lookup_eq_some_iff_mem hkeys]
    unfold gotoRow
    rw [NatMap.get?_ofList]
    · simp only [List.mem_filterMap, Prod.exists]
      constructor
      · rintro ⟨x, t', hmem, heq⟩
        cases x with
        | terminal a => simp at heq
        | nonterminal n' =>
          simp only [Option.some.injEq, Prod.mk.injEq] at heq
          obtain ⟨rfl, rfl⟩ := heq
          exact hmem
      · intro hmem
        exact ⟨_, _, hmem, rfl⟩
    · rw [List.map_filterMap]
      apply (List.pairwise_map.1 hkeys).filterMap _
      rintro ⟨x, t⟩ ⟨y, u⟩ hxy n hn m hm rfl
      cases x <;> cases y <;> simp_all

theorem action?_of_edge (h : Faithful g a) {s t x : Nat} (he : a.Edge s (.terminal x) t) :
    (g.parseTable a).action? s x = some (.shift t) := by
  have hshift : Supports g a s x (.shift t) := he
  obtain ⟨hs, hx⟩ := lt_of_supports h hshift
  exact (chosen_action? h hs hx).unique he

/-- The completed start accepts, because no edge is labelled by the end of input. -/
theorem action?_of_start (h : Faithful g a) {s : Nat}
    (hit : a.Holds s ⟨g.augmented, 1, g.eof⟩) :
    (g.parseTable a).action? s g.eof = some .accept := by
  have haccept : Supports g a s g.eof .accept := ⟨rfl, hit⟩
  obtain ⟨hs, hx⟩ := lt_of_supports h haccept
  have hchosen : Chosen g a s g.eof (some .accept) :=
    ⟨haccept, fun t ht => absurd (lt_eof_of_edge h ht) (Nat.lt_irrefl _)⟩
  exact (chosen_action? h hs hx).unique hchosen

theorem exists_action?_of_complete (h : Faithful g a) {s i x : Nat} (hi : i ≠ g.augmented)
    (hit : a.Holds s ⟨i, (g.body i).length, x⟩) :
    ∃ act, (g.parseTable a).action? s x = some act := by
  have hreduce : Supports g a s x (.reduce i) := ⟨hi, hit⟩
  obtain ⟨hs, hx⟩ := lt_of_supports h hreduce
  have hchosen := chosen_action? h hs hx
  cases hact : (g.parseTable a).action? s x with
  | none =>
    rw [hact] at hchosen
    exact absurd hreduce (hchosen (.reduce i))
  | some act => exact ⟨act, rfl⟩

/-! ### Conflicts -/

theorem conflict?_eq_some_iff {s : Nat} {q : LrState} (hq : a.states[s]? = some q) {it : Item}
    {c : Conflict} :
    conflict? s (a.fillState g s q).row it = some c ↔
      ∃ kept, (g.parseTable a).action? s it.lookahead = some kept ∧
        kept ≠ .reduce it.production ∧
        c = ⟨s, it.lookahead, kept.conflictKind, kept, .reduce it.production⟩ := by
  rw [conflict?, ← action?_parseTable hq]
  cases (g.parseTable a).action? s it.lookahead with
  | none => simp
  | some kept =>
    by_cases hkept : kept = .reduce it.production <;> simp [hkept, eq_comm]

/-- A conflict is recorded for each reduction that is supported and does not stay. -/
theorem mem_conflicts_parseTable (h : Faithful g a) {c : Conflict} :
    c ∈ (g.parseTable a).conflicts ↔
      ∃ i kept, Supports g a c.state c.terminal (.reduce i) ∧
        (g.parseTable a).action? c.state c.terminal = some kept ∧ kept ≠ .reduce i ∧
        c = ⟨c.state, c.terminal, kept.conflictKind, kept, .reduce i⟩ := by
  have hfill : c ∈ (g.parseTable a).conflicts ↔
      ∃ s q, a.states[s]? = some q ∧ c ∈ (a.fillState g s q).conflicts := by
    change c ∈ (a.placements g).flatMap Placement.conflicts ↔ _
    rw [List.mem_flatMap]
    constructor
    · rintro ⟨f, hf, hc⟩
      obtain ⟨s, hs⟩ := List.mem_iff_getElem?.1 hf
      obtain ⟨q, hq, rfl⟩ := getElem?_placements.1 hs
      exact ⟨s, q, hq, hc⟩
    · rintro ⟨s, q, hq, hc⟩
      exact ⟨_, List.mem_of_getElem? (getElem?_placements.2 ⟨q, hq, rfl⟩), hc⟩
  rw [hfill]
  constructor
  · rintro ⟨s, q, hq, hc⟩
    obtain ⟨it, hmem, hlost⟩ := (mem_conflicts_fillState h hq s).1 hc
    obtain ⟨hi, hit, hdot⟩ := (mem_reductions h hq).1 hmem
    obtain ⟨kept, hact, hne, rfl⟩ := (conflict?_eq_some_iff hq).1 hlost
    refine ⟨it.production, kept, ⟨hi, q, hq, ?_⟩, hact, hne, rfl⟩
    rwa [← hdot]
  · rintro ⟨i, kept, ⟨hi, q, hq, hit⟩, hact, hne, hc⟩
    have hmem := (mem_reductions h hq).2 ⟨hi, hit, rfl⟩
    refine ⟨c.state, q, hq, (mem_conflicts_fillState h hq c.state).2 ⟨_, hmem, ?_⟩⟩
    exact (conflict?_eq_some_iff hq).2 ⟨kept, hact, hne, hc⟩

/-- A complete item is reduced on its lookahead, or a conflict says why not. -/
theorem action?_or_conflict_of_complete (h : Faithful g a) {s i x : Nat} (hi : i ≠ g.augmented)
    (hit : a.Holds s ⟨i, (g.body i).length, x⟩) :
    (g.parseTable a).action? s x = some (.reduce i) ∨
      ∃ c ∈ (g.parseTable a).conflicts, c.state = s ∧ c.terminal = x ∧ c.dropped = .reduce i := by
  obtain ⟨kept, hact⟩ := exists_action?_of_complete h hi hit
  rw [hact, Option.some.injEq, or_iff_not_imp_left]
  intro hne
  refine ⟨⟨s, x, kept.conflictKind, kept, .reduce i⟩, ?_, rfl, rfl, rfl⟩
  exact (mem_conflicts_parseTable h).2 ⟨i, kept, ⟨hi, hit⟩, hact, hne, rfl⟩

theorem conflicts_eq_nil_iff (h : Faithful g a) :
    (g.parseTable a).conflicts = [] ↔
      ∀ {s i x}, i ≠ g.augmented → a.Holds s ⟨i, (g.body i).length, x⟩ →
        (g.parseTable a).action? s x = some (.reduce i) := by
  rw [List.eq_nil_iff_forall_not_mem]
  constructor
  · intro hnone s i x hi hit
    refine (action?_or_conflict_of_complete h hi hit).resolve_right ?_
    rintro ⟨c, hc, -⟩
    exact hnone c hc
  · rintro hall c hc
    obtain ⟨i, kept, ⟨hi, hit⟩, hact, hne, -⟩ := (mem_conflicts_parseTable h).1 hc
    exact hne (Option.some.inj (hact.symm.trans (hall hi hit)))

theorem action?_of_complete (h : Faithful g a) (hc : (g.parseTable a).conflicts = []) {s i x : Nat}
    (hi : i ≠ g.augmented) (hit : a.Holds s ⟨i, (g.body i).length, x⟩) :
    (g.parseTable a).action? s x = some (.reduce i) :=
  (conflicts_eq_nil_iff h).1 hc hi hit

/-! ### Built tables -/

theorem faithful_lrAutomaton (hstart : g.Declares (.nonterminal g.start))
    (settings : ParserSettings) : Faithful g (g.lrAutomaton settings) := by
  unfold lrAutomaton
  split_ifs
  · exact (faithful_canonicalLr hstart).mergeCores (uniform_canonicalLr hstart)
  · exact faithful_canonicalLr hstart

/-- A grammar that was validated has a table, and each conflict in it is reported. -/
theorem buildParser_of_validate (h : g.validate.1 = .ok ()) (settings : ParserSettings) :
    g.buildParser settings = (.ok (g.parseTable (g.lrAutomaton settings)), g.validate.2 ++
      (g.parseTable (g.lrAutomaton settings)).conflicts.map g.conflictReport) := by
  have hvalid : g.validate = (.ok (), g.validate.2) := Prod.ext h rfl
  rw [buildParser, hvalid]

theorem validate_of_buildParser {settings : ParserSettings} {t : ParseTable}
    {reports : List Diagnostic} (h : g.buildParser settings = (.ok t, reports)) :
    g.validate.1 = .ok () := by
  unfold buildParser at h
  split at h
  next => simp at h
  next hvalid => exact congrArg Prod.fst hvalid

/-- A table that was built is filled from the automaton that the settings ask for. -/
theorem eq_of_buildParser {settings : ParserSettings} {t : ParseTable} {reports : List Diagnostic}
    (h : g.buildParser settings = (.ok t, reports)) :
    g.Declares (.nonterminal g.start) ∧ t = g.parseTable (g.lrAutomaton settings) := by
  have hvalid := validate_of_buildParser h
  rw [buildParser_of_validate hvalid] at h
  exact ⟨declares_start_of_validate hvalid, (Except.ok.inj (Prod.mk.inj h).1).symm⟩

theorem exists_buildParser {settings : ParserSettings} {t : ParseTable} {reports : List Diagnostic}
    (h : g.buildParser settings = (.ok t, reports)) (settings' : ParserSettings) :
    ∃ reports', g.buildParser settings' =
      (.ok (g.parseTable (g.lrAutomaton settings')), reports') :=
  ⟨_, buildParser_of_validate (validate_of_buildParser h) settings'⟩

theorem exists_of_buildParser {settings : ParserSettings} {t : ParseTable}
    {reports : List Diagnostic} (h : g.buildParser settings = (.ok t, reports)) :
    g.Declares (.nonterminal g.start) ∧ ∃ a, Faithful g a ∧ t = g.parseTable a := by
  obtain ⟨hstart, ht⟩ := eq_of_buildParser h
  exact ⟨hstart, g.lrAutomaton settings, faithful_lrAutomaton hstart settings, ht⟩

end Grammar

end SyntaxTables
