import SyntaxTables.Proofs.Lr.Justified
import SyntaxTables.Proofs.ParseTable.Fill

/-!
# Conflicts of merged states

Whether a state shifts a terminal or completes the start depends on its core alone. So a reduction
that meets a shift or accepting in a merged state meets it already in the state that it comes from.
Two reductions can come from different states, and then merging makes them meet.
-/

namespace SyntaxTables

/-- A conflict of a kind is on record in which an action goes. -/
def ParseTable.Drops (t : ParseTable) (kind : ConflictKind) (s x : Nat) (act : Action) : Prop :=
  ∃ kept, ⟨s, x, kind, kept, act⟩ ∈ t.conflicts

namespace LrAutomaton

variable {g : Grammar} {a : LrAutomaton}

theorem drops_iff (h : Faithful g a) {kind : ConflictKind} {s x : Nat} {act : Action} :
    (g.parseTable a).Drops kind s x act ↔
      ∃ i kept, act = .reduce i ∧ Supports g a s x (.reduce i) ∧
        (g.parseTable a).action? s x = some kept ∧ kept ≠ .reduce i ∧ kept.conflictKind = kind := by
  constructor
  · rintro ⟨kept, hc⟩
    obtain ⟨i, kept', hreduce, hact, hne, heq⟩ := (Grammar.mem_conflicts_parseTable h).1 hc
    simp only [Conflict.mk.injEq, true_and] at heq
    obtain ⟨hkind, rfl, rfl⟩ := heq
    exact ⟨i, kept, rfl, hreduce, hact, hne, hkind.symm⟩
  · rintro ⟨i, kept, rfl, hreduce, hact, hne, rfl⟩
    exact ⟨kept, (Grammar.mem_conflicts_parseTable h).2 ⟨i, kept, hreduce, hact, hne, rfl⟩⟩

section State

variable (h : Faithful g a) {s x : Nat} {act : Action}

include h

theorem action?_of_conflictKind_ne (hact : Supports g a s x act)
    (hkind : act.conflictKind ≠ .reduceReduce) : (g.parseTable a).action? s x = some act := by
  cases act with
  | shift t => exact Grammar.action?_of_edge h hact
  | reduce i => exact absurd rfl hkind
  | accept =>
    obtain ⟨rfl, hit⟩ := hact
    exact Grammar.action?_of_start h hit

/-- A reduction goes for a shift or for accepting where the state supports both. -/
theorem drops_iff_of_ne {kind : ConflictKind} (hkind : kind ≠ .reduceReduce) :
    (g.parseTable a).Drops kind s x act ↔ (∃ i, act = .reduce i) ∧ Supports g a s x act ∧
      ∃ kept, Supports g a s x kept ∧ kept.conflictKind = kind := by
  rw [drops_iff h]
  constructor
  · rintro ⟨i, kept, rfl, hreduce, hact, -, rfl⟩
    exact ⟨⟨i, rfl⟩, hreduce, kept, Grammar.supports_of_action? h hact, rfl⟩
  · rintro ⟨⟨i, rfl⟩, hreduce, kept, hkept, rfl⟩
    refine ⟨i, kept, rfl, hreduce, action?_of_conflictKind_ne h hkept hkind, ?_, rfl⟩
    rintro rfl
    exact hkind rfl

/-- A reduction goes for another one, declared before it, where nothing but reductions compete. -/
theorem drops_reduceReduce_iff :
    (g.parseTable a).Drops .reduceReduce s x act ↔
      ∃ i, act = .reduce i ∧ Supports g a s x act ∧ (∀ t, ¬ Supports g a s x (.shift t)) ∧
        ¬ Supports g a s x .accept ∧ ∃ j < i, Supports g a s x (.reduce j) := by
  rw [drops_iff h]
  constructor
  · rintro ⟨i, kept, rfl, hreduce, hact, hne, hkind⟩
    obtain ⟨hs, hx⟩ := Grammar.lt_of_action? h hact
    have hchosen := Grammar.chosen_action? h hs hx
    rw [hact] at hchosen
    cases kept with
    | shift t => cases hkind
    | accept => cases hkind
    | reduce j =>
      obtain ⟨hj, hshift, haccept, hleast⟩ := hchosen
      have hji : j ≠ i := fun he => hne (congrArg _ he)
      exact ⟨i, rfl, hreduce, hshift, haccept, j, Nat.lt_of_le_of_ne (hleast i hreduce) hji, hj⟩
  · rintro ⟨i, rfl, hreduce, hshift, haccept, j, hji, hj⟩
    obtain ⟨kept, hact⟩ := Grammar.exists_action?_of_complete h hreduce.1 hreduce.2
    obtain ⟨hs, hx⟩ := Grammar.lt_of_action? h hact
    have hchosen := Grammar.chosen_action? h hs hx
    rw [hact] at hchosen
    cases kept with
    | shift t => exact absurd hchosen (hshift t)
    | accept => exact absurd hchosen.1 haccept
    | reduce k =>
      refine ⟨i, .reduce k, rfl, hreduce, hact, ?_, rfl⟩
      rintro he
      obtain rfl := Action.reduce.inj he
      exact absurd (hchosen.2.2.2 j hj) (Nat.not_le.2 hji)

end State

/-! ### Merged states -/

section Merged

variable (h : Faithful g a) (hu : a.Uniform)

theorem supports_reduce_mergeCores {m x i : Nat} :
    Supports g a.mergeCores m x (.reduce i) ↔
      ∃ s, a.place s = m ∧ Supports g a s x (.reduce i) := by
  simp only [Supports, holds_mergeCores]
  constructor
  · rintro ⟨hi, s, hit, hm⟩
    exact ⟨s, hm, hi, hit⟩
  · rintro ⟨s, hm, hi, hit⟩
    exact ⟨hi, s, hit, hm⟩

include h hu

theorem exists_shift_mergeCores {s x : Nat} (hs : s < a.states.length) :
    (∃ t, Supports g a.mergeCores (a.place s) x (.shift t)) ↔
      ∃ t, Supports g a s x (.shift t) := by
  simp only [Supports, edge_mergeCores h hu]
  constructor
  · rintro ⟨-, s', t', he, hplace, -⟩
    obtain ⟨t, he, -⟩ := exists_edge_of_place h hu he hplace hs
    exact ⟨t, he⟩
  · rintro ⟨t, he⟩
    exact ⟨a.place t, s, t, he, rfl, rfl⟩

omit h hu in
/-- A merged state accepts if any of the states that go into it does, because the start is followed
by nothing but the end of input. -/
theorem supports_accept_mergeCores (hg : Grounded g a) {s x : Nat} (hs : s < a.states.length) :
    Supports g a.mergeCores (a.place s) x .accept ↔ Supports g a s x .accept := by
  simp only [Supports, holds_mergeCores]
  constructor
  · rintro ⟨hx, s', hit, hplace⟩
    obtain ⟨b, hit⟩ := exists_holds_of_place hit hplace hs
    obtain ⟨ss, hj⟩ := hg.held hit
    obtain rfl : b = g.eof := hj.lookahead_eq_eof rfl
    exact ⟨hx, hit⟩
  · rintro ⟨hx, hit⟩
    exact ⟨hx, s, hit, rfl⟩

/-- What a reduction can go for in a merged state, it can go for in each state that goes into it. -/
theorem exists_supports_mergeCores (hg : Grounded g a) {kind : ConflictKind}
    (hkind : kind ≠ .reduceReduce) {s x : Nat} (hs : s < a.states.length) :
    (∃ kept, Supports g a.mergeCores (a.place s) x kept ∧ kept.conflictKind = kind) ↔
      ∃ kept, Supports g a s x kept ∧ kept.conflictKind = kind := by
  constructor
  · rintro ⟨kept, hkept, rfl⟩
    cases kept with
    | shift t =>
      obtain ⟨t', ht'⟩ := (exists_shift_mergeCores h hu hs).1 ⟨t, hkept⟩
      exact ⟨.shift t', ht', rfl⟩
    | reduce i => exact absurd rfl hkind
    | accept => exact ⟨.accept, (supports_accept_mergeCores hg hs).1 hkept, rfl⟩
  · rintro ⟨kept, hkept, rfl⟩
    cases kept with
    | shift t =>
      obtain ⟨t', ht'⟩ := (exists_shift_mergeCores h hu hs).2 ⟨t, hkept⟩
      exact ⟨.shift t', ht', rfl⟩
    | reduce i => exact absurd rfl hkind
    | accept => exact ⟨.accept, (supports_accept_mergeCores hg hs).2 hkept, rfl⟩

/-- A reduction goes for a shift or for accepting in a merged state exactly if it does so in one of
the states that go into it. -/
theorem drops_mergeCores_iff (hg : Grounded g a) {kind : ConflictKind}
    (hkind : kind ≠ .reduceReduce) {m x : Nat} {act : Action} :
    (g.parseTable a.mergeCores).Drops kind m x act ↔
      ∃ s < a.states.length, a.place s = m ∧ (g.parseTable a).Drops kind s x act := by
  simp only [drops_iff_of_ne h hkind, drops_iff_of_ne (h.mergeCores hu) hkind]
  constructor
  · rintro ⟨⟨i, rfl⟩, hmerged, hkept⟩
    obtain ⟨s, rfl, hreduce⟩ := supports_reduce_mergeCores.1 hmerged
    have hs := (Grammar.lt_of_supports h hreduce).1
    exact ⟨s, hs, rfl, ⟨i, rfl⟩, hreduce, (exists_supports_mergeCores h hu hg hkind hs).1 hkept⟩
  · rintro ⟨s, hs, rfl, ⟨i, rfl⟩, hreduce, hkept⟩
    exact ⟨⟨i, rfl⟩, supports_reduce_mergeCores.2 ⟨s, rfl, hreduce⟩,
      (exists_supports_mergeCores h hu hg hkind hs).2 hkept⟩

/-- Reductions that compete in one state compete in the merged state, too. -/
theorem drops_reduceReduce_mergeCores (hg : Grounded g a) {s x : Nat} {act : Action}
    (hdrops : (g.parseTable a).Drops .reduceReduce s x act) :
    (g.parseTable a.mergeCores).Drops .reduceReduce (a.place s) x act := by
  rw [drops_reduceReduce_iff h] at hdrops
  obtain ⟨i, rfl, hreduce, hshift, haccept, j, hji, hj⟩ := hdrops
  have hs := (Grammar.lt_of_supports h hreduce).1
  refine (drops_reduceReduce_iff (h.mergeCores hu)).2
    ⟨i, rfl, supports_reduce_mergeCores.2 ⟨s, rfl, hreduce⟩, ?_, ?_, j, hji,
      supports_reduce_mergeCores.2 ⟨s, rfl, hj⟩⟩
  · intro t ht
    obtain ⟨t', ht'⟩ := (exists_shift_mergeCores h hu hs).1 ⟨t, ht⟩
    exact hshift t' ht'
  · rwa [supports_accept_mergeCores hg hs]

end Merged

end LrAutomaton

namespace Grammar

open LrAutomaton

variable {g : Grammar}

/-- Merging brings no reduction together with a shift or with accepting that were apart, and it
keeps reductions together that were so before. -/
theorem buildParser_mergedConflicts (h : g.validate.1 = .ok ()) :
    ∃ merged canonical, (g.buildParser { lalr := true }).1 = .ok merged ∧
      (g.buildParser { lalr := false }).1 = .ok canonical ∧
      (∀ kind m x act, kind ≠ .reduceReduce → (merged.Drops kind m x act ↔
        ∃ s < g.canonicalLr.states.length, g.canonicalLr.place s = m ∧
          canonical.Drops kind s x act)) ∧
      (∀ s x act, canonical.Drops .reduceReduce s x act →
        merged.Drops .reduceReduce (g.canonicalLr.place s) x act) ∧
      (canonical.conflicts = [] → ∀ c ∈ merged.conflicts, c.kind = .reduceReduce) := by
  have hstart := declares_start_of_validate h
  have hfaithful := faithful_canonicalLr hstart
  have hgrounded := grounded_canonicalLr hstart
  have huniform : g.canonicalLr.Uniform := uniform_canonicalLr hstart
  have hmeets : ∀ kind m x act, kind ≠ .reduceReduce →
      ((g.parseTable g.canonicalLr.mergeCores).Drops kind m x act ↔
        ∃ s < g.canonicalLr.states.length, g.canonicalLr.place s = m ∧
          (g.parseTable g.canonicalLr).Drops kind s x act) :=
    fun _ _ _ _ hkind => drops_mergeCores_iff hfaithful huniform hgrounded hkind
  refine ⟨g.parseTable g.canonicalLr.mergeCores, g.parseTable g.canonicalLr,
    congrArg Prod.fst (buildParser_of_validate h _),
    congrArg Prod.fst (buildParser_of_validate h _), hmeets, ?_, ?_⟩
  · exact fun s x act => drops_reduceReduce_mergeCores hfaithful huniform hgrounded
  · intro hnone c hc
    by_contra hkind
    obtain ⟨s, -, -, kept, hmem⟩ :=
      (hmeets c.kind c.state c.terminal c.dropped hkind).1 ⟨c.kept, hc⟩
    simp [hnone] at hmem

/-- A grammar whose merged state reduces `c` in two ways on each of two terminals, of which the
states that go into it do one each. -/
def crossed : Grammar where
  terminals := ["a", "b", "c", "d", "e"]
  nonterminals := ["S", "A", "B"]
  start := 0
  productions := [⟨.normal, 0, [.terminal 0, .nonterminal 1, .terminal 3], none⟩,
    ⟨.normal, 0, [.terminal 1, .nonterminal 2, .terminal 3], none⟩,
    ⟨.normal, 0, [.terminal 0, .nonterminal 2, .terminal 4], none⟩,
    ⟨.normal, 0, [.terminal 1, .nonterminal 1, .terminal 4], none⟩,
    ⟨.normal, 1, [.terminal 2], none⟩, ⟨.normal, 2, [.terminal 2], none⟩]

theorem buildParser_mergedConflicts_crossed :
    (crossed.parseTable crossed.canonicalLr).conflicts = [] ∧
    (crossed.parseTable crossed.canonicalLr.mergeCores).conflicts.map
      (fun c => (c.terminal, c.kept, c.dropped)) = [(3, .reduce 4, .reduce 5),
        (4, .reduce 4, .reduce 5)] ∧
    ∃ merged canonical, (crossed.buildParser { lalr := true }).1 = .ok merged ∧
      (crossed.buildParser { lalr := false }).1 = .ok canonical ∧
      (∀ kind m x act, kind ≠ .reduceReduce → (merged.Drops kind m x act ↔
        ∃ s < crossed.canonicalLr.states.length, crossed.canonicalLr.place s = m ∧
          canonical.Drops kind s x act)) ∧
      (∀ s x act, canonical.Drops .reduceReduce s x act →
        merged.Drops .reduceReduce (crossed.canonicalLr.place s) x act) ∧
      (canonical.conflicts = [] → ∀ c ∈ merged.conflicts, c.kind = .reduceReduce) := by
  have hvalid : crossed.validate.1 = .ok () := by decide +kernel
  exact ⟨by decide +kernel, by decide +kernel, buildParser_mergedConflicts hvalid⟩

end Grammar

end SyntaxTables
