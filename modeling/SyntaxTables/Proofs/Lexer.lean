import SyntaxTables.Lexer
import SyntaxTables.Proofs.Dfa.Minimal
import SyntaxTables.Proofs.Dfa.Subset

/-!
# What a built lexer recognizes

The alphabet of a lexicon respects every interval that some definition names, so the automaton of
the lexicon accepts what its live tokens stand for. The subset construction answers the best label,
which is the least of these tokens, and the minimal automaton answers the same.
-/

namespace SyntaxTables.Lexicon

/-- The least live token that stands for a string, if there is one. -/
def IsTokenOf (lexicon : Lexicon) (w : List Nat) : Option Nat → Prop
  | none => ∀ i d, lexicon.Live i d → ¬ d.pattern.Matches lexicon w
  | some i => (∃ d, lexicon.Live i d ∧ d.pattern.Matches lexicon w) ∧
      ∀ j < i, ∀ d, lexicon.Live j d → ¬ d.pattern.Matches lexicon w

variable {lexicon : Lexicon}

theorem Live.lt_length {i : Nat} {d : Definition} (h : lexicon.Live i d) :
    i < lexicon.tokens.length := (List.getElem?_eq_some_iff.1 h.token).1

theorem respects_of_mem {d : Definition} (hd : d ∈ lexicon.fragments ++ lexicon.tokens) :
    ∀ r ∈ d.pattern.intervals, lexicon.alphabet.Respects r := by
  intro r hr
  exact Alphabet.respects_ofRanges (List.mem_flatMap.2 ⟨d, hd, hr⟩)

theorem respects_of_find? {n : String} {p : Pattern} (h : lexicon.find? n = some p) :
    ∀ r ∈ p.intervals, lexicon.alphabet.Respects r :=
  fun _ hr => Alphabet.respects_ofRanges (mem_intervals_of_find? h hr)

theorem joins_tokenNfa_alphabet (lexicon : Lexicon) :
    (lexicon.tokenNfa lexicon.alphabet).Joins lexicon.alphabet lexicon lexicon.tokens.length :=
  TokenNfa.joins_tokenNfa (Alphabet.ordered_ofRanges _) (fun _ _ => respects_of_find?)
    fun _ hd => respects_of_mem (List.mem_append_right _ hd)

/-- What is kept when a token is left out or added holds of the automaton of a lexicon. -/
theorem tokenNfa_induction (holds : Nat → TokenNfa → Prop)
    (empty : holds 0 (.empty lexicon.duplicateReports))
    (skip : ∀ {k t}, lexicon.isDuplicateToken k = true → holds k t → holds (k + 1) t)
    (adds : ∀ {k t u}, lexicon.isDuplicateToken k = false →
      t.automaton.Rooted lexicon.alphabet → TokenNfa.Adds lexicon.alphabet lexicon k t u →
      holds k t → holds (k + 1) u) :
    holds lexicon.tokens.length (lexicon.tokenNfa lexicon.alphabet) := by
  have hordered := Alphabet.ordered_ofRanges lexicon.intervals
  have hfind : ∀ n p, lexicon.find? n = some p → ∀ r ∈ p.intervals, lexicon.alphabet.Respects r :=
    fun _ _ => respects_of_find?
  -- whether a pattern can be built is only known while all templates made so far are right
  have hkept : (lexicon.tokenNfa lexicon.alphabet).Joins lexicon.alphabet lexicon
      lexicon.tokens.length ∧ holds lexicon.tokens.length (lexicon.tokenNfa lexicon.alphabet) := by
    apply TokenNfa.addTokens_induction
      (fun k t => t.Joins lexicon.alphabet lexicon k ∧ holds k t) _ _ _
      ⟨TokenNfa.joins_empty _, empty⟩ (Nat.zero_le _) rfl
    · rintro k t hduplicate ⟨hjoins, h⟩
      refine ⟨hjoins.skip hjoins.stocked (.refl _) rfl ?_, skip hduplicate h⟩
      intro d hd
      simp [hd.isDuplicateToken_eq_false] at hduplicate
    · rintro k t d hd hduplicate ⟨hjoins, h⟩
      have hpattern := respects_of_mem (List.mem_append_right lexicon.fragments
        (List.mem_of_getElem? hd))
      exact ⟨hjoins.addToken hordered hfind hd hduplicate hpattern,
        adds hduplicate hjoins.rooted
          (TokenNfa.adds_addToken hordered hfind hjoins.stocked hd hduplicate hpattern).2 h⟩
  exact hkept.2

theorem isTokenOf_of_isBest {t : TokenNfa} {alphabet : Alphabet}
    (ht : t.Joins alphabet lexicon lexicon.tokens.length) {w : List Nat} {best : Option Label}
    (h : Label.IsBest (t.automaton.Accepts alphabet w) best) :
    lexicon.IsTokenOf w (best.map Label.token) := by
  have haccepts : ∀ {i d}, lexicon.Live i d → d.pattern.Matches lexicon w →
      t.automaton.Accepts alphabet w ⟨i, i⟩ :=
    fun hd hw => (ht.accepts _ _).2 ⟨_, hd.lt_length, rfl, _, hd, hw⟩
  cases best with
  | none => exact fun i d hd hw => h _ (haccepts hd hw)
  | some label =>
    obtain ⟨hlabel, hbest⟩ := h
    obtain ⟨i, -, rfl, d, hd, hw⟩ := (ht.accepts _ _).1 hlabel
    refine ⟨⟨d, hd, hw⟩, fun j hj e he hew => ?_⟩
    have hpreferred := hbest _ (haccepts he hew)
    simp [Label.preferred, hj] at hpreferred

theorem accepted_eq_zero_iff :
    (lexicon.tokenNfa lexicon.alphabet).accepted = 0 ↔ ¬ ∃ i d, lexicon.Live i d := by
  rw [(joins_tokenNfa_alphabet lexicon).accepted]
  constructor
  · rintro hnone ⟨i, d, hd⟩
    exact hnone i hd.lt_length d hd
  · exact fun hnone i _ d hd => hnone ⟨i, d, hd⟩

theorem wellFormed_tokenDfa (lexicon : Lexicon) :
    ((lexicon.tokenNfa lexicon.alphabet).automaton.toDfa lexicon.alphabet).WellFormed := by
  have hrooted := (joins_tokenNfa_alphabet lexicon).rooted
  exact Nfa.wellFormed_toDfa hrooted.closed hrooted.start_lt hrooted.symbols

theorem wholeMatch_tokenDfa (lexicon : Lexicon) (text : List Char) :
    ∃ k, ((lexicon.tokenNfa lexicon.alphabet).automaton.toDfa
        lexicon.alphabet).automaton.wholeMatch text = .ok k ∧
      lexicon.IsTokenOf (text.map Char.toNat) k := by
  have ht := joins_tokenNfa_alphabet lexicon
  obtain ⟨best, hrun, hbest⟩ :=
    Nfa.wholeMatch_toDfa ht.rooted.closed ht.rooted.start_lt text
  exact ⟨_, hrun, isTokenOf_of_isBest ht hbest⟩

/-- An automaton that was built is that of the accepted tokens, made minimal or not, with all
reports on the tokens. -/
theorem eq_of_buildLexer {settings : LexerSettings} {dfa : Dfa} {reports : List Diagnostic}
    (h : lexicon.buildLexer settings = (.ok dfa, reports)) :
    dfa = (if settings.minimize then
      ((lexicon.tokenNfa lexicon.alphabet).automaton.toDfa lexicon.alphabet).minimize
      else (lexicon.tokenNfa lexicon.alphabet).automaton.toDfa lexicon.alphabet) ∧
    reports = (lexicon.tokenNfa lexicon.alphabet).reports := by
  unfold buildLexer at h
  by_cases htokens : lexicon.tokens.isEmpty = true
  · simp [htokens] at h
  · by_cases haccepted : (lexicon.tokenNfa lexicon.alphabet).accepted = 0
    · simp [htokens, haccepted] at h
    · simp only [if_neg htokens, if_neg haccepted, Prod.mk.injEq, Except.ok.injEq] at h
      exact ⟨h.1.symm, h.2.symm⟩

/-- If some token is live, the lexicon has an automaton, which reads every text as the least live
token that stands for it. Otherwise all tokens are rejected. -/
theorem buildLexer_recognizes (settings : LexerSettings) (htokens : lexicon.tokens ≠ []) :
    ((∃ i d, lexicon.Live i d) → ∃ dfa, (lexicon.buildLexer settings).1 = .ok dfa ∧
      ∀ text : List Char, ∃ k, dfa.automaton.wholeMatch text = .ok k ∧
        lexicon.IsTokenOf (text.map Char.toNat) k) ∧
    ((¬ ∃ i d, lexicon.Live i d) →
      (lexicon.buildLexer settings).1 = .error (.allTokensRejected lexicon.tokens.length)) := by
  have hempty : ¬ lexicon.tokens.isEmpty = true := by simpa using htokens
  unfold buildLexer
  rw [if_neg hempty]
  constructor
  · intro hlive
    have haccepted : ¬ (lexicon.tokenNfa lexicon.alphabet).accepted = 0 := by
      rw [accepted_eq_zero_iff, not_not]
      exact hlive
    simp only [if_neg haccepted]
    refine ⟨_, rfl, fun text => ?_⟩
    obtain ⟨k, hrun, hk⟩ := wholeMatch_tokenDfa lexicon text
    refine ⟨k, ?_, hk⟩
    split_ifs
    · obtain ⟨k', hrun', hminimal⟩ :=
        (Dfa.tracks_minimize (wellFormed_tokenDfa lexicon)).wholeMatch_eq text
      obtain rfl := Except.ok.inj (hrun.symm.trans hrun')
      exact hminimal
    · exact hrun
  · intro hnone
    simp only [if_pos (accepted_eq_zero_iff.2 hnone)]

/-- A keyword before the names that it is one of. -/
def keywordAndNames : Lexicon where
  fragments := [⟨"letter", .oneOf [⟨97, 122⟩], none⟩]
  tokens := [⟨"if", .literal ['i', 'f'], none⟩, ⟨"name", .plus (.reference "letter"), none⟩]

/-- One token that stands for itself, so it cannot be built. -/
def loopOnly : Lexicon where
  tokens := [⟨"loop", .reference "loop", none⟩]

theorem buildLexer_recognizes_keyword :
    keywordAndNames.tokens ≠ [] ∧ loopOnly.tokens ≠ [] ∧
      (∃ dfa, (keywordAndNames.buildLexer {}).1 = .ok dfa ∧
        dfa.automaton.wholeMatch ['i', 'f'] = .ok (some 0)) ∧
      (loopOnly.buildLexer {}).1 = .error (.allTokensRejected 1) := by
  have htokens : keywordAndNames.tokens ≠ [] := by simp [keywordAndNames]
  have hmatches : Pattern.Matches keywordAndNames (.literal ['i', 'f'])
      (['i', 'f'].map Char.toNat) := .literal _
  have hneeds : ∀ n, ¬ keywordAndNames.Needs (.literal ['i', 'f']) n := by
    rintro n ⟨m, hm, -⟩
    simp [Pattern.references] at hm
  have hlive : keywordAndNames.Live 0 ⟨"if", .literal ['i', 'f'], none⟩ := by
    refine ⟨rfl, by simp [keywordAndNames], by simp, fun n hn => absurd hn (hneeds n),
      fun n hn => absurd hn (hneeds n), ?_⟩
    simp [Pattern.matches_literal]
  have hnone : ¬ ∃ i d, loopOnly.Live i d := by
    rintro ⟨i, d, hd⟩
    have hmem : d ∈ loopOnly.tokens := List.mem_of_getElem? hd.token
    obtain rfl : d = ⟨"loop", .reference "loop", none⟩ := by simpa [loopOnly] using hmem
    have hloop : loopOnly.Refers "loop" "loop" :=
      ⟨.reference "loop", by simp [Lexicon.find?, loopOnly], by simp [Pattern.references]⟩
    exact hd.acyclic "loop" ⟨"loop", by simp [Pattern.references], .refl⟩ (.single hloop)
  refine ⟨htokens, by simp [loopOnly], ?_,
    (buildLexer_recognizes {} (by simp [loopOnly])).2 hnone⟩
  obtain ⟨dfa, hdfa, hruns⟩ := (buildLexer_recognizes {} htokens).1 ⟨0, _, hlive⟩
  obtain ⟨k, hrun, hk⟩ := hruns ['i', 'f']
  refine ⟨dfa, hdfa, ?_⟩
  cases k with
  | none => exact absurd hmatches (hk 0 _ hlive)
  | some i =>
    cases i with
    | zero => exact hrun
    | succ i => exact absurd hmatches (hk.2 0 (Nat.succ_pos i) _ hlive)

end SyntaxTables.Lexicon
