import SyntaxTables.Proofs.ParseTable.Fill

/-!
# Productions that are left out are reported

An ill-formed production takes part neither in the first sets nor in the closed sets of items. Every
such production is reported, and so is one that does not have the shape of its kind. Conflicts are
warnings, so if a table was built without an error, every production is in it.
-/

namespace SyntaxTables.Grammar

variable {g : Grammar}

/-- A production is as its kind demands. -/
structure WellShaped (g : Grammar) (p : Production) : Prop where
  wellFormed : g.WellFormed p
  removed : p.kind = .removed → p.rhs = []
  flatten : p.kind = .flatten → ∃ s, p.rhs = [.nonterminal p.lhs, s]

theorem defects_eq_nil_iff {p : Production} : g.defects p = [] ↔ g.WellShaped p := by
  by_cases hlhs : g.Declares (.nonterminal p.lhs)
  · have hundeclared : (p.rhs.filter fun s => ¬ g.Declares s).map
        ProductionDefect.undeclaredSymbol = [] ↔ g.WellFormed p := by
      simp [WellFormed, hlhs]
    rw [defects, if_neg (not_not.2 hlhs), List.append_eq_nil_iff, hundeclared]
    constructor
    · rintro ⟨hwell, hshape⟩
      refine ⟨hwell, fun hkind => ?_, fun hkind => ?_⟩
      · cases hrhs : p.rhs with
        | nil => rfl
        | cons s rest => simp [hkind, hrhs] at hshape
      · rw [hkind] at hshape
        split at hshape
        next hother _ => simp at hother
        next s x _ hrhs =>
          split_ifs at hshape with hs
          exact ⟨x, by rw [hrhs, hs]⟩
        next => simp at hshape
        next hne _ _ => exact absurd rfl hne
    · rintro ⟨hwell, hremoved, hflatten⟩
      refine ⟨hwell, ?_⟩
      split
      next hkind hrhs => simp [hremoved hkind] at hrhs
      next s x hkind hrhs =>
        obtain ⟨y, hy⟩ := hflatten hkind
        rw [hrhs, List.cons.injEq] at hy
        rw [if_pos hy.1]
      next hkind hne =>
        obtain ⟨y, hy⟩ := hflatten hkind
        exact absurd hy (hne _ _)
      next => rfl
  · refine iff_of_false ?_ fun h => hlhs h.wellFormed.1
    simp [defects, hlhs]

theorem isError_of_mem_defectReports {r : Diagnostic} (hr : r ∈ g.defectReports) :
    r.isError = true := by
  obtain ⟨q, -, hr⟩ := List.mem_flatMap.1 hr
  obtain ⟨d, -, rfl⟩ := List.mem_map.1 hr
  rfl

theorem defectReports_eq_nil_iff :
    g.defectReports = [] ↔ ∀ p ∈ g.productions, g.WellShaped p := by
  simp only [defectReports, List.flatMap_eq_nil_iff, List.map_eq_nil_iff, defects_eq_nil_iff,
    Prod.forall]
  constructor
  · intro h p hp
    obtain ⟨i, hi⟩ := List.mem_iff_getElem?.1 hp
    exact h p i (List.mem_zipIdx_iff_getElem?.2 hi)
  · intro h p i hi
    exact h p (List.mem_of_getElem? (List.mem_zipIdx_iff_getElem?.1 hi))

theorem hadError_conflictReports (g : Grammar) (conflicts : List Conflict) :
    hadError (conflicts.map g.conflictReport) = false := by
  rw [hadError, List.any_eq_false]
  intro r hr
  obtain ⟨c, -, rfl⟩ := List.mem_map.1 hr
  simp [conflictReport, Diagnostic.warning, Diagnostic.isError]

theorem reports_of_validate (h : g.validate.1 = .ok ()) : g.validate.2 = g.defectReports := by
  unfold validate at h ⊢
  cases hfatal : g.fatal? with
  | some e => simp [hfatal] at h
  | none => rfl

/-- Of the reports on a grammar whose table was built only those on its productions are errors. -/
theorem hadError_buildParser {settings : ParserSettings} {t : ParseTable}
    {reports : List Diagnostic} (h : g.buildParser settings = (.ok t, reports)) :
    hadError reports = false ↔ ∀ p ∈ g.productions, g.WellShaped p := by
  have hvalid := validate_of_buildParser h
  rw [buildParser_of_validate hvalid] at h
  rw [← (Prod.mk.inj h).2, reports_of_validate hvalid, hadError_append, hadError_conflictReports,
    Bool.or_false, hadError_eq_false_iff fun _ => isError_of_mem_defectReports,
    defectReports_eq_nil_iff]

/-- Production `i` takes part in all that a table is made from: in the first sets, among the
alternatives of its left-hand side, and wherever this is expected in a state. -/
structure TakesPart (g : Grammar) (a : LrAutomaton) (i : Nat) (p : Production) : Prop where
  first : ∀ {o}, (g.firstSets.ofSequence p.rhs).Has o → (g.firstSets.ofNonterminal p.lhs).Has o
  alternative : i ∈ g.alternatives p.lhs
  predicted : ∀ {s it rest}, a.Holds s it →
    (g.body it.production).drop it.dot = .nonterminal p.lhs :: rest →
      ∀ b ∈ g.firstSets.lookaheads rest it.lookahead, a.Holds s ⟨i, 0, b⟩

theorem Usable.takesPart {a : LrAutomaton} (h : LrAutomaton.Faithful g a) {i : Nat} {p : Production}
    (hp : g.Usable i p) : g.TakesPart a i p where
  first := has_firstSets hp
  alternative := mem_alternatives.2 ⟨p, hp, rfl⟩
  predicted := fun hit hdrop _ hb =>
    h.predicts hit (mem_predictions.2 ⟨p, _, hdrop, hp, rfl, hb⟩)

end SyntaxTables.Grammar
