import SyntaxTables.Format.ParseTable
import SyntaxTables.Proofs.Format.Grammar
import SyntaxTables.Proofs.ParseTable.Safety

/-!
# Parse tables in files

A table whose numbers are words is restored from its text, part by part. What is then checked are
the sizes of the two parts, so a table comes back if and only if they fit together, and those of a
table that was filled from a grammar always do.
-/

namespace SyntaxTables

open Json

/-! ### The parts of a table -/

section Restores

variable {L : Library} (hL : L.Lawful)

include hL

namespace Action

def OfWords : Action → Prop
  | shift state => state < wordLimit
  | reduce production => production < wordLimit
  | accept => True

theorem write_ne_null (act : Action) : (codec L).write act ≠ .null := by
  rw [codec, Codec.via, hL.write_choice]
  cases act <;> rintro ⟨⟩

theorem restores {act : Action} (h : act.OfWords) : (codec L).Restores 1 act := by
  refine .via (hL.restores_choice (by simp [Cases.tags]) ?_) (by cases act <;> rfl)
  cases act with
  | shift state => exact ⟨0, rfl, hL.restores_word h⟩
  | reduce production => exact ⟨0, rfl, hL.restores_word h⟩
  | accept => trivial

end Action

theorem ConflictKind.restores {depth : Nat} (k : ConflictKind) : (codec L).Restores depth k := by
  refine .via (hL.restores_choice (by simp [Cases.tags]) ?_) ?_
  · cases k <;> trivial
  · cases k <;> rfl

namespace Conflict

/-- The numbers in a conflict are words. -/
structure OfWords (c : Conflict) : Prop where
  state : c.state < wordLimit
  terminal : c.terminal < wordLimit
  kept : c.kept.OfWords
  dropped : c.dropped.OfWords

theorem restores {c : Conflict} (h : c.OfWords) : (codec L).Restores 2 c := by
  refine .via (hL.restores_record (by simp [Fields.names]) ?_) rfl
  exact ⟨hL.restores_word h.state, hL.restores_word h.terminal, c.kind.restores hL,
    Action.restores hL h.kept, Action.restores hL h.dropped, trivial⟩

end Conflict

namespace ProductionInfo

/-- The numbers in the entry of a production are words. -/
structure OfWords (p : ProductionInfo) : Prop where
  lhs : p.lhs < wordLimit
  length : p.length < wordLimit

theorem restores {p : ProductionInfo} (h : p.OfWords) : (codec L).Restores 1 p := by
  refine .via (hL.restores_record (by simp [Fields.names]) ?_) rfl
  have hname : (L.nullable L.string).Restores 0 p.name :=
    hL.restores_nullable (fun s _ => hL.restores_string s) fun s _ => hL.write_string_ne_null s
  exact ⟨hL.restores_word h.lhs, hL.restores_word h.length, p.kind.restores hL, hname, trivial⟩

end ProductionInfo

/-! ### Tables -/

namespace ParseTable

/-- All numbers in a table are words. -/
structure OfWords (t : ParseTable) : Prop where
  eof : t.eof < wordLimit
  action : ∀ row ∈ t.action, ∀ cell ∈ row, ∀ act ∈ cell, act.OfWords
  goto : ∀ row ∈ t.goto, ∀ p ∈ row.entries, p.1 < wordLimit ∧ p.2 < wordLimit
  productions : ∀ p ∈ t.productions, p.OfWords
  conflicts : ∀ c ∈ t.conflicts, c.OfWords

theorem restores {t : ParseTable} (h : t.OfWords) : (codec L).Restores 4 t := by
  refine .via (hL.restores_record (by simp [Fields.names]) ?_) rfl
  have hnames (names : List String) : (L.list L.string).Restores 3 names :=
    hL.restores_list fun s _ => hL.restores_string s
  have haction : (L.list (L.list (L.nullable (Action.codec L)))).Restores 3 t.action := by
    refine hL.restores_list fun row hrow => hL.restores_list fun cell hcell => ?_
    exact hL.restores_nullable
      (fun act hact => Action.restores hL (h.action row hrow cell hcell act hact))
      fun act _ => act.write_ne_null hL
  have hgoto : (L.list (L.map L.word)).Restores 3 t.goto :=
    hL.restores_list fun row hrow => hL.restores_map fun p hp =>
      ⟨(h.goto row hrow p hp).1, hL.restores_word (h.goto row hrow p hp).2⟩
  have hproductions : (L.list (ProductionInfo.codec L)).Restores 3 t.productions :=
    (hL.restores_list fun p hp => ProductionInfo.restores hL (h.productions p hp)).mono (by decide)
  have hconflicts : (L.list (Conflict.codec L)).Restores 3 t.conflicts :=
    hL.restores_list fun c hc => Conflict.restores hL (h.conflicts c hc)
  exact ⟨hnames _, hnames _, hL.restores_word h.eof, haction, hgoto, hproductions, hconflicts,
    trivial⟩

end ParseTable

end Restores

namespace ParseTable

/-- The two parts of a table have a row for each state, and its rows of actions all cells. -/
structure Sized (t : ParseTable) : Prop where
  width : ∀ row ∈ t.action, row.length = t.eof + 1
  height : t.goto.length = t.action.length

/-- What is wrong with the sizes of a table; the first row of a wrong width is the one to name. -/
inductive Misfit (t : ParseTable) : LoadError → Prop
  | width {s : Nat} {row : List (Option Action)} (hrow : t.action[s]? = some row)
      (hwidth : row.length ≠ t.eof + 1)
      (hbefore : ∀ row ∈ t.action.take s, row.length = t.eof + 1) :
      Misfit t (.wrongRowWidth s (t.eof + 1))
  | height (hwidth : ∀ row ∈ t.action, row.length = t.eof + 1)
      (hheight : t.goto.length ≠ t.action.length) : Misfit t .rowCountMismatch

theorem Misfit.not_sized {t : ParseTable} {e : LoadError} (h : t.Misfit e) : ¬ t.Sized := by
  intro hsized
  cases h with
  | width hrow hwidth _ => exact hwidth (hsized.width _ (List.mem_of_getElem? hrow))
  | height _ hheight => exact hheight hsized.height

theorem checkSizes_cases (t : ParseTable) :
    t.Sized ∧ t.checkSizes = .ok t ∨ ∃ e, t.Misfit e ∧ t.checkSizes = .error e := by
  unfold checkSizes
  split
  next s hs =>
    obtain ⟨hlt, hwidth, hbefore⟩ := List.findIdx?_eq_some_iff_getElem.1 hs
    refine Or.inr ⟨_, .width (List.getElem?_eq_getElem hlt) (of_decide_eq_true hwidth) ?_, rfl⟩
    intro row hrow
    obtain ⟨i, hi, rfl⟩ := List.mem_take_iff_getElem.1 hrow
    simpa using hbefore i (by omega)
  next hnone =>
    have hwidth : ∀ row ∈ t.action, row.length = t.eof + 1 := by
      simpa [List.findIdx?_eq_none_iff] using hnone
    by_cases hheight : t.goto.length = t.action.length
    · exact Or.inl ⟨⟨hwidth, hheight⟩, if_neg (not_not_intro hheight)⟩
    · exact Or.inr ⟨_, .height hwidth hheight, if_pos hheight⟩

variable {L : Library}

/-- Of the text of a table only the sizes are still checked. -/
theorem ofText_toText_eq (hL : L.Lawful) {t : ParseTable} (h : t.OfWords) :
    ofText L (t.toText L) = t.checkSizes := by
  rw [ofText, toText, hL.ofText_toText_of_restores (restores hL h) (by decide)]

theorem sized_of_ofText {text : List UInt8} {t : ParseTable} (h : ofText L text = .ok t) :
    t.Sized := by
  unfold ofText at h
  split at h
  next => simp at h
  next u _ =>
    rcases checkSizes_cases u with ⟨hsized, hok⟩ | ⟨e, -, herror⟩
    · obtain rfl := Except.ok.inj (hok.symm.trans h)
      exact hsized
    · simp [herror] at h

end ParseTable

/-! ### Built tables -/

namespace ParseTable

open LrAutomaton

variable {g : Grammar} {a : LrAutomaton}

theorem sized_parseTable (h : Faithful g a) : (g.parseTable a).Sized where
  width := by
    intro row hrow
    obtain ⟨f, hf, rfl⟩ := List.mem_map.1 hrow
    obtain ⟨s, hs⟩ := List.mem_iff_getElem?.1 hf
    obtain ⟨q, hq, rfl⟩ := Grammar.getElem?_placements.1 hs
    exact length_fillState h hq s
  height := by simp [Grammar.parseTable, placements]

theorem ofWords_of_supports (h : Faithful g a) (hg : g.OfWords)
    (hstates : a.states.length ≤ wordLimit) {s x : Nat} {act : Action}
    (hact : Supports g a s x act) : act.OfWords := by
  cases act with
  | shift t => exact Nat.lt_of_lt_of_le (h.enters hact).1 hstates
  | reduce i =>
    obtain ⟨hi, hit⟩ := hact
    obtain ⟨p, hp⟩ := (h.admits hit).production.resolve_left hi
    exact Nat.lt_of_lt_of_le (List.getElem?_eq_some_iff.1 hp.1).1 hg.productions
  | accept => trivial

theorem ofWords_parseTable (h : Faithful g a) (hstart : g.Declares (.nonterminal g.start))
    (hg : g.OfWords) (hstates : a.states.length ≤ wordLimit) : (g.parseTable a).OfWords where
  eof := hg.terminals
  action := by
    intro row hrow cell hcell act hact
    obtain ⟨s, hs⟩ := List.mem_iff_getElem?.1 hrow
    obtain ⟨x, hx⟩ := List.mem_iff_getElem?.1 hcell
    have hcell : (g.parseTable a).action? s x = some act := by
      rw [action?, hs, Option.bind_some, hx, hact]
      rfl
    exact ofWords_of_supports h hg hstates (Grammar.supports_of_action? h hcell)
  goto := by
    intro row hrow p hp
    obtain ⟨s, hs⟩ := List.mem_iff_getElem?.1 hrow
    have hgoto : (g.parseTable a).goto? s p.1 = some p.2 := by
      rw [goto?, hs, Option.bind_some]
      exact NatMap.get?_eq_some_iff.2 hp
    have hedge := (Grammar.goto?_parseTable h).1 hgoto
    exact ⟨Nat.lt_of_lt_of_le (h.declares hstart hedge) hg.nonterminals,
      Nat.lt_of_lt_of_le (h.enters hedge).1 hstates⟩
  productions := by
    intro p hp
    obtain ⟨q, hq, rfl⟩ := List.mem_map.1 hp
    exact ⟨(hg.production q hq).1, (hg.production q hq).2⟩
  conflicts := by
    intro c hc
    obtain ⟨i, kept, hreduce, hkept, -, hc⟩ := (Grammar.mem_conflicts_parseTable h).1 hc
    obtain ⟨hs, hx⟩ := Grammar.lt_of_supports h hreduce
    rw [hc]
    exact ⟨Nat.lt_of_lt_of_le hs hstates, Nat.lt_of_lt_of_le hx hg.terminals,
      ofWords_of_supports h hg hstates (Grammar.supports_of_action? h hkept),
      ofWords_of_supports h hg hstates hreduce⟩

/-- A table is read back from its text exactly if its sizes fit together; otherwise its text is
refused for what is wrong with them, as any text with such a table is. Built tables are read
back. -/
theorem ofText_toText (L : Library) (hL : L.Lawful) :
    (∀ t : ParseTable, t.OfWords → (t.Sized → ofText L (t.toText L) = .ok t) ∧
      (¬ t.Sized → ∃ e, t.Misfit e ∧ ofText L (t.toText L) = .error e)) ∧
    (∀ text t, ofText L text = .ok t → t.Sized) ∧
    ∀ (g : Grammar) settings t reports, g.buildParser settings = (.ok t, reports) →
      t.Sized ∧ (g.OfWords → t.stateCount ≤ wordLimit → ofText L (t.toText L) = .ok t) := by
  have hback : ∀ t : ParseTable, t.OfWords → t.Sized → ofText L (t.toText L) = .ok t := by
    intro t hwords hsized
    rw [ofText_toText_eq hL hwords]
    rcases checkSizes_cases t with ⟨-, hok⟩ | ⟨e, he, -⟩
    · exact hok
    · exact absurd hsized he.not_sized
  refine ⟨fun t hwords => ⟨hback t hwords, fun hragged => ?_⟩, fun _ _ => sized_of_ofText, ?_⟩
  · rw [ofText_toText_eq hL hwords]
    exact (checkSizes_cases t).resolve_left fun h => hragged h.1
  · intro g settings t reports hbuilt
    obtain ⟨hstart, rfl⟩ := Grammar.eq_of_buildParser hbuilt
    have hfaithful := Grammar.faithful_lrAutomaton hstart settings
    have hsized := sized_parseTable hfaithful
    refine ⟨hsized, fun hg hstates => hback _ ?_ hsized⟩
    rw [stateCount_parseTable] at hstates
    exact ofWords_parseTable hfaithful hstart hg hstates

/-- A table with names that need escapes, or are empty, and with a part of each kind. -/
def awkwardNames : ParseTable where
  terminalNames := ["\"", "\\", "\t\x01", "𝄞", ""]
  nonterminalNames := ["S\n"]
  eof := 5
  action := [[some (.shift 1), none, some (.reduce 1), none, none, some (.reduce 1)],
    [none, none, none, none, none, some .accept]]
  goto := [.ofList [(0, 1)], .ofList []]
  productions := [⟨0, 1, .normal, some "/"⟩, ⟨0, 0, .removed, none⟩]
  conflicts := [⟨0, 0, .shiftReduce, .shift 1, .reduce 1⟩]

theorem ofText_toText_awkwardNames :
    Library.strict.Lawful ∧ awkwardNames.OfWords ∧ awkwardNames.Sized ∧
      ofText .strict (awkwardNames.toText .strict) = .ok awkwardNames ∧
      ofText .strict (toText .strict { awkwardNames with goto := [] }) =
        .error .rowCountMismatch ∧
      ∃ t, (conditionals.buildParser {}).1 = .ok t ∧ ofText .strict (t.toText .strict) = .ok t := by
  obtain ⟨hback, -, hbuild⟩ := ofText_toText .strict lawful_strict
  have hwords : awkwardNames.OfWords := {
    eof := by decide
    action := by simp [awkwardNames, Action.OfWords, wordLimit]
    goto := by decide
    productions := List.forall_mem_cons.2 ⟨⟨by decide, by decide⟩,
      List.forall_mem_singleton.2 ⟨by decide, by decide⟩⟩
    conflicts := List.forall_mem_singleton.2 ⟨by decide, by decide,
      by simp [Action.OfWords, wordLimit], by simp [Action.OfWords, wordLimit]⟩ }
  have hsized : awkwardNames.Sized := ⟨by decide, rfl⟩
  have hwide : ∀ row ∈ awkwardNames.action, row.length = awkwardNames.eof + 1 := hsized.width
  have hfewer : ({ awkwardNames with goto := [] } : ParseTable).OfWords :=
    { hwords with goto := by simp }
  have hragged : ¬ ({ awkwardNames with goto := [] } : ParseTable).Sized :=
    fun h => absurd h.height (by decide)
  have hbuilt : conditionals.buildParser {} =
      (.ok (conditionals.parseTable conditionals.canonicalLr.mergeCores),
        (conditionals.buildParser {}).2) := rfl
  have hg : conditionals.OfWords := ⟨by decide, by decide, by decide, by decide⟩
  have hstates : (conditionals.parseTable conditionals.canonicalLr.mergeCores).stateCount ≤
      wordLimit := by decide +kernel
  obtain ⟨e, hmisfit, herror⟩ := (hback _ hfewer).2 hragged
  refine ⟨lawful_strict, hwords, hsized, (hback _ hwords).1 hsized, ?_, _,
    congrArg Prod.fst hbuilt, (hbuild _ _ _ _ hbuilt).2 hg hstates⟩
  cases hmisfit with
  | width hrow hwidth _ => exact absurd (hwide _ (List.mem_of_getElem? hrow)) hwidth
  | height _ _ => exact herror

end ParseTable

end SyntaxTables
