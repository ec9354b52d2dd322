import SyntaxTables.Proofs.Lexer.Munch

/-!
# Tokens that are left out are reported

A token is left out because its name is taken, because a reference in it cannot be built, or because
it matches the empty string. The first is reported before any token is built, the other two while
the tokens are added, so each step that leaves a token out leaves a report as well. If there is no
report, all tokens are in the automaton.
-/

namespace SyntaxTables

namespace Lexicon

variable {lexicon : Lexicon}

/-! ### Names that are taken -/

theorem repeated_eq_nil_iff {taken : List String} {ds : List Definition} :
    repeated taken ds = [] ↔
      (ds.map Definition.name).Nodup ∧ ∀ d ∈ ds, d.name ∉ taken := by
  induction ds generalizing taken with
  | nil => simp [repeated]
  | cons d ds ih =>
    rw [repeated]
    split_ifs with hd
    · simp [hd]
    · rw [ih, List.map_cons, List.nodup_cons, List.forall_mem_cons]
      simp only [List.mem_cons, not_or, List.mem_map, not_exists, not_and]
      constructor
      · rintro ⟨hnodup, hnot⟩
        exact ⟨⟨fun e he => (hnot e he).1, hnodup⟩, hd, fun e he => (hnot e he).2⟩
      · rintro ⟨⟨hne, hnodup⟩, -, hnot⟩
        exact ⟨hnodup, fun e he => ⟨hne e he, hnot e he⟩⟩

theorem nodup_names_iff {ds : List Definition} :
    (ds.map Definition.name).Nodup ↔ ∀ (i : Nat) (d : Definition), ds[i]? = some d →
      ∀ j < i, ∀ e : Definition, ds[j]? = some e → e.name ≠ d.name := by
  rw [List.Nodup, List.pairwise_map, List.pairwise_iff_getElem]
  constructor
  · intro h i d hd j hji e he
    obtain ⟨hi, rfl⟩ := List.getElem?_eq_some_iff.1 hd
    obtain ⟨hj, rfl⟩ := List.getElem?_eq_some_iff.1 he
    exact h j i hj hi hji
  · intro h j i hj hi hji
    exact h i _ (List.getElem?_eq_getElem hi) j hji _ (List.getElem?_eq_getElem hj)

/-- No name is reported exactly if no token is passed over for its name. -/
theorem duplicateReports_eq_nil_iff :
    lexicon.duplicateReports = [] ↔ (lexicon.fragments.map Definition.name).Nodup ∧
      ∀ i < lexicon.tokens.length, lexicon.isDuplicateToken i = false := by
  have htokens : repeated (lexicon.fragments.map Definition.name) lexicon.tokens = [] ↔
      ∀ i < lexicon.tokens.length, lexicon.isDuplicateToken i = false := by
    rw [repeated_eq_nil_iff, nodup_names_iff]
    constructor
    · rintro ⟨hearlier, hfragments⟩ i hi
      have hd := List.getElem?_eq_getElem hi
      rw [isDuplicateToken_eq_false_iff hd]
      refine ⟨fun f hf he => ?_, hearlier i _ hd⟩
      exact hfragments _ (List.getElem_mem hi) (List.mem_map.2 ⟨f, hf, he⟩)
    · intro h
      have hfree : ∀ {i d}, lexicon.tokens[i]? = some d → _ := fun {i d} hd =>
        (isDuplicateToken_eq_false_iff hd).1 (h i (List.getElem?_eq_some_iff.1 hd).1)
      refine ⟨fun i d hd => (hfree hd).2, fun d hd hmem => ?_⟩
      obtain ⟨i, hi⟩ := List.mem_iff_getElem?.1 hd
      obtain ⟨f, hf, he⟩ := List.mem_map.1 hmem
      exact (hfree hi).1 f hf he
  rw [duplicateReports, List.append_eq_nil_iff, List.map_eq_nil_iff, List.map_eq_nil_iff, htokens,
    repeated_eq_nil_iff]
  simp

theorem isError_of_mem_duplicateReports {r : Diagnostic} (hr : r ∈ lexicon.duplicateReports) :
    r.isError = true := by
  rcases List.mem_append.1 hr with hr | hr
  · obtain ⟨d, -, rfl⟩ := List.mem_map.1 hr
    rfl
  · obtain ⟨d, -, rfl⟩ := List.mem_map.1 hr
    rfl

end Lexicon

/-! ### Tokens that cannot be used -/

namespace TokenNfa

variable {alphabet : Alphabet} {lexicon : Lexicon} {t u : TokenNfa} {k : Nat}

/-- The first `k` tokens are accounted for. All of them are accepted exactly if they are live, and
nothing is reported exactly if none of them was left out and no name is taken. -/
structure Accounts (lexicon : Lexicon) (k : Nat) (t : TokenNfa) : Prop where
  accepted_le : t.accepted ≤ k
  accepted_iff : t.accepted = k ↔ ∀ i < k, ∃ d, lexicon.Live i d
  errors : ∀ r ∈ t.reports, r.isError = true
  silent_iff : t.reports = [] ↔ lexicon.duplicateReports = [] ∧
    ∀ i < k, lexicon.isDuplicateToken i = false → ∃ d, lexicon.Live i d

theorem accounts_empty (lexicon : Lexicon) :
    Accounts lexicon 0 (empty lexicon.duplicateReports) where
  accepted_le := Nat.le_refl 0
  accepted_iff := by simp [empty]
  errors := fun _ => Lexicon.isError_of_mem_duplicateReports
  silent_iff := by simp [empty]

theorem Accounts.skip (h : Accounts lexicon k t) (hduplicate : lexicon.isDuplicateToken k = true) :
    Accounts lexicon (k + 1) t := by
  have hdead : ¬ ∃ d, lexicon.Live k d := by
    rintro ⟨d, hd⟩
    simp [hd.isDuplicateToken_eq_false] at hduplicate
  refine ⟨Nat.le_succ_of_le h.accepted_le, ?_, h.errors, ?_⟩
  · have hle := h.accepted_le
    rw [Nat.forall_lt_succ_right]
    exact iff_of_false (by omega) fun hall => hdead hall.2
  · rw [h.silent_iff, Nat.forall_lt_succ_right, hduplicate]
    simp

theorem Accounts.adds (h : Accounts lexicon k t) (hduplicate : lexicon.isDuplicateToken k = false)
    (hadds : Adds alphabet lexicon k t u) : Accounts lexicon (k + 1) u := by
  have hle := h.accepted_le
  cases hadds with
  | entered live _ _ _ accepted reports =>
    have hlive : ∃ d, lexicon.Live k d := ⟨_, live⟩
    refine ⟨by omega, ?_, ?_, ?_⟩
    · rw [accepted, Nat.add_right_cancel_iff, h.accepted_iff, Nat.forall_lt_succ_right]
      exact (and_iff_left hlive).symm
    · rw [reports]
      exact h.errors
    · rw [reports, h.silent_iff, Nat.forall_lt_succ_right]
      simp [hlive]
  | rejected dead _ accepted reports =>
    have hdead : ¬ ∃ d, lexicon.Live k d := fun ⟨d, hd⟩ => dead d hd
    refine ⟨by omega, ?_, ?_, ?_⟩
    · rw [Nat.forall_lt_succ_right]
      exact iff_of_false (by omega) fun hall => hdead hall.2
    · rw [reports]
      intro r hr
      rcases List.mem_append.1 hr with hr | hr
      · exact h.errors r hr
      · rw [List.mem_singleton.1 hr]
        rfl
    · rw [reports, Nat.forall_lt_succ_right]
      exact iff_of_false (by simp) fun hall => hdead (hall.2.2 hduplicate)

theorem accounts_tokenNfa (lexicon : Lexicon) :
    Accounts lexicon lexicon.tokens.length (lexicon.tokenNfa lexicon.alphabet) := by
  apply Lexicon.tokenNfa_induction (Accounts lexicon) (accounts_empty lexicon)
  · exact fun hduplicate h => h.skip hduplicate
  · exact fun hduplicate _ hadds h => h.adds hduplicate hadds

end TokenNfa

namespace Lexicon

variable {lexicon : Lexicon}

/-- All that is declared in a lexicon can be used. -/
structure Sound (lexicon : Lexicon) : Prop where
  fragments : (lexicon.fragments.map Definition.name).Nodup
  tokens : ∀ i d, lexicon.tokens[i]? = some d → lexicon.Live i d

theorem Sound.live_of_lt (h : lexicon.Sound) {i : Nat} (hi : i < lexicon.tokens.length) :
    ∃ d, lexicon.Live i d :=
  ⟨_, h.tokens i _ (List.getElem?_eq_getElem hi)⟩

theorem Sound.accepted_eq (h : lexicon.Sound) :
    (lexicon.tokenNfa lexicon.alphabet).accepted = lexicon.tokens.length :=
  (TokenNfa.accounts_tokenNfa lexicon).accepted_iff.2 fun _ hi => h.live_of_lt hi

theorem reports_tokenNfa_eq_nil_iff :
    (lexicon.tokenNfa lexicon.alphabet).reports = [] ↔ lexicon.Sound := by
  rw [(TokenNfa.accounts_tokenNfa lexicon).silent_iff, duplicateReports_eq_nil_iff]
  constructor
  · rintro ⟨⟨hfragments, hfree⟩, hlive⟩
    refine ⟨hfragments, fun i d hd => ?_⟩
    have hi := (List.getElem?_eq_some_iff.1 hd).1
    obtain ⟨e, he⟩ := hlive i hi (hfree i hi)
    rwa [Option.some.inj (hd.symm.trans he.token)]
  · intro h
    refine ⟨⟨h.fragments, fun i hi => ?_⟩, fun i hi _ => h.live_of_lt hi⟩
    obtain ⟨d, hd⟩ := h.live_of_lt hi
    exact hd.isDuplicateToken_eq_false

theorem hadError_buildLexer {settings : LexerSettings} {dfa : Dfa} {reports : List Diagnostic}
    (h : lexicon.buildLexer settings = (.ok dfa, reports)) :
    hadError reports = false ↔ lexicon.Sound := by
  rw [(eq_of_buildLexer h).2, hadError_eq_false_iff (TokenNfa.accounts_tokenNfa lexicon).errors,
    reports_tokenNfa_eq_nil_iff]

/-- What a token stands for is read as this token or as an earlier one. -/
theorem ReadBy.exists_le {a : Automaton} (h : lexicon.ReadBy a) {i : Nat} {d : Definition}
    (hlive : lexicon.Live i d) {text : List Char}
    (hmatches : d.pattern.Matches lexicon (text.map Char.toNat)) :
    ∃ j ≤ i, a.wholeMatch text = .ok (some j) := by
  obtain ⟨k, hrun, hk⟩ := h text
  cases k with
  | none => exact absurd hmatches (hk i d hlive)
  | some j =>
    refine ⟨j, ?_, hrun⟩
    by_contra hlt
    exact hk.2 i (Nat.lt_of_not_le hlt) d hlive hmatches

end Lexicon

end SyntaxTables
