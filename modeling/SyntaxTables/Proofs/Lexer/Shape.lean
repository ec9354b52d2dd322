import SyntaxTables.Proofs.Dfa.Canonical
import SyntaxTables.Proofs.Dfa.Subset.Runs
import SyntaxTables.Proofs.Lexer.Munch

/-!
# The shape of a built lexer

A state of the automaton of a lexicon is labelled only where a live token was added, the subset
construction keeps one of the labels of the states that it joins, and the states of a block have the
same token. So all tokens of a built automaton are live. It is well-formed, and its cells lie inside
intervals of the lexicon. Words lead to all states, and since the start reads the empty text, which
no live token stands for, it has no token.
-/

namespace SyntaxTables

theorem Nfa.Grown.label_eq {alphabet : Alphabet} {a b : Nfa} (h : Nfa.Grown alphabet a b) {s : Nat}
    {label : Label} (hs : (b.state s).label = some label) : (a.state s).label = some label := by
  rcases Nat.lt_or_ge s a.size with hlt | hge
  · rwa [h.old s hlt] at hs
  · rw [h.unlabelled s hge] at hs
    cases hs

namespace TokenNfa

variable {alphabet : Alphabet} {lexicon : Lexicon} {t u : TokenNfa} {k : Nat}

def Labelled (lexicon : Lexicon) (t : TokenNfa) : Prop :=
  ∀ s label, (t.automaton.state s).label = some label → ∃ d, lexicon.Live label.token d

theorem labelled_empty (reports : List Diagnostic) : Labelled lexicon (empty reports) := by
  intro s label hs
  have hstate : (empty reports).automaton.state s = {} :=
    (Nfa.state_addState {} s).trans (Nfa.state_of_size_le (Nat.zero_le _))
  rw [hstate] at hs
  cases hs

theorem Labelled.adds (ht : t.Labelled lexicon) (hrooted : t.automaton.Rooted alphabet)
    (h : Adds alphabet lexicon k t u) : u.Labelled lexicon := by
  intro s label hs
  cases h with
  | entered hlive hgrown hx hautomaton =>
    rw [hautomaton, Nfa.state_addEntry hrooted hgrown hx] at hs
    split_ifs at hs
    · obtain rfl := Option.some.inj hs
      exact ⟨_, hlive⟩
    · exact ht s label (hgrown.label_eq hs)
    · exact ht s label (hgrown.label_eq hs)
  | rejected _ hgrown => exact ht s label (hgrown.label_eq hs)

theorem labelled_tokenNfa (lexicon : Lexicon) :
    (lexicon.tokenNfa lexicon.alphabet).Labelled lexicon := by
  apply Lexicon.tokenNfa_induction (fun _ t => t.Labelled lexicon) (labelled_empty _)
  · exact fun _ h => h
  · exact fun _ hrooted hadds h => h.adds hrooted hadds

end TokenNfa

namespace Dfa

theorem lt_size_of_token? {d : Dfa} {s k : Nat} (hk : d.token? s = some k) : s < d.size := by
  by_contra hge
  rw [token?, state, Array.getD_eq_getD_getElem?, Array.getElem?_eq_none (Nat.not_lt.1 hge)] at hk
  cases hk

theorem alphabet_minimize (d : Dfa) : d.minimize.alphabet = d.alphabet := by
  unfold minimize
  split_ifs
  · rfl
  · exact alphabet_merge d _

theorem wellFormed_minimize {d : Dfa} (h : d.WellFormed) : d.minimize.WellFormed := by
  rw [minimize_eq_merge h]
  exact wellFormed_merge h (stable_partition h)

theorem exists_token?_of_minimize {d : Dfa} (h : d.WellFormed) {i k : Nat}
    (hk : d.minimize.token? i = some k) : ∃ s < d.size, d.token? s = some k := by
  have hp := stable_partition h
  rw [minimize_eq_merge h] at hk
  obtain ⟨s, hs, hblock⟩ := exists_block_of_lt h hp (lt_size_of_token? hk)
  rw [(merge_simulates h hp hs hblock).1] at hk
  exact ⟨s, hs, hk⟩

end Dfa

theorem Nfa.exists_label_of_token? {a : Nfa} {alphabet : Alphabet} {i k : Nat}
    (hk : (a.toDfa alphabet).token? i = some k) :
    ∃ s label, (a.state s).label = some label ∧ label.token = k := by
  have hi := Dfa.lt_size_of_token? hk
  rw [size_toDfa] at hi
  rw [token?_toDfa (List.getElem?_eq_getElem hi), Option.map_eq_some_iff] at hk
  obtain ⟨label, hbest, hlabel⟩ := hk
  have hmem := Label.isBest_best? ((a.reachableSets[i]).filterMap fun s => (a.state s).label)
  rw [hbest] at hmem
  obtain ⟨s, -, hs⟩ := List.mem_filterMap.1 hmem.1
  exact ⟨s, label, hs, hlabel⟩

theorem Alphabet.exists_le_of_mem_cells {ranges : List Interval} {s : Interval}
    (hs : s ∈ (ofRanges ranges).cells) : ∃ r ∈ ranges, r.min ≤ s.min ∧ s.max ≤ r.max := by
  obtain ⟨hpiece, r, hr, hmin⟩ := mem_cells_ofRanges.1 hs
  have hmax : s.max ∈ r :=
    (hpiece.mem_iff hr (Interval.mem_iff.2 ⟨hpiece.nonempty, Nat.le_refl _⟩)).2 hmin
  exact ⟨r, hr, (Interval.mem_iff.1 hmin).1, (Interval.mem_iff.1 hmax).2⟩

namespace Lexicon

variable {lexicon : Lexicon} {settings : LexerSettings} {d : Dfa}

theorem alphabet_of_buildLexer (h : (lexicon.buildLexer settings).1 = .ok d) :
    d.alphabet = lexicon.alphabet := by
  rw [(eq_of_buildLexer (Prod.ext h rfl)).1]
  split_ifs
  · exact Dfa.alphabet_minimize _
  · rfl

theorem wellFormed_of_buildLexer (h : (lexicon.buildLexer settings).1 = .ok d) :
    d.WellFormed := by
  rw [(eq_of_buildLexer (Prod.ext h rfl)).1]
  split_ifs
  · exact Dfa.wellFormed_minimize (wellFormed_tokenDfa lexicon)
  · exact wellFormed_tokenDfa lexicon

theorem live_of_buildLexer (h : (lexicon.buildLexer settings).1 = .ok d) {s k : Nat}
    (hk : d.token? s = some k) : ∃ e, lexicon.Live k e := by
  have hbuilt : ∃ s, ((lexicon.tokenNfa lexicon.alphabet).automaton.toDfa
      lexicon.alphabet).token? s = some k := by
    rw [(eq_of_buildLexer (Prod.ext h rfl)).1] at hk
    split_ifs at hk
    · obtain ⟨s', -, hs'⟩ := Dfa.exists_token?_of_minimize (wellFormed_tokenDfa lexicon) hk
      exact ⟨s', hs'⟩
    · exact ⟨s, hk⟩
  obtain ⟨i, hi⟩ := hbuilt
  obtain ⟨q, label, hq, rfl⟩ := Nfa.exists_label_of_token? hi
  exact TokenNfa.labelled_tokenNfa lexicon q label hq

theorem ordered_of_buildLexer (h : (lexicon.buildLexer settings).1 = .ok d) :
    d.alphabet.Ordered := by
  rw [alphabet_of_buildLexer h]
  exact Alphabet.ordered_ofRanges _

theorem exists_run_of_buildLexer (h : (lexicon.buildLexer settings).1 = .ok d) {s : Nat}
    (hs : s < d.size) : ∃ word, d.run d.start word = some s := by
  rw [(eq_of_buildLexer (Prod.ext h rfl)).1] at hs ⊢
  split_ifs at hs ⊢
  · have hminimal := Dfa.minimal_minimize (wellFormed_tokenDfa lexicon)
    rw [hminimal.start_eq]
    exact hminimal.reached s hs
  · have hrooted := (joins_tokenNfa_alphabet lexicon).rooted
    exact (Nfa.determinizedBy_toDfa hrooted.closed hrooted.start_lt).reachable s hs

theorem start_of_buildLexer (h : (lexicon.buildLexer settings).1 = .ok d) :
    d.token? d.start = none := by
  obtain ⟨k, hrun, hk⟩ := readBy_of_buildLexer h []
  have hstart := (Dfa.automaton_token (wellFormed_of_buildLexer h).start_lt).symm.trans hrun
  rw [Except.ok.inj hstart]
  cases k with
  | none => rfl
  | some i =>
    obtain ⟨e, he, hmatches⟩ := hk.1
    exact absurd hmatches he.nonempty

theorem exists_token_of_buildLexer (h : (lexicon.buildLexer settings).1 = .ok d)
    (hminimize : settings.minimize = true) {s : Nat} (hs : s < d.size) (hne : s ≠ d.start) :
    ∃ word k, d.tokenAlong s word = some k := by
  rw [(eq_of_buildLexer (Prod.ext h rfl)).1, if_pos hminimize] at hs hne ⊢
  have hminimal := Dfa.minimal_minimize (wellFormed_tokenDfa lexicon)
  rw [hminimal.start_eq] at hne
  exact hminimal.live s hs hne

/-- The cells of a built automaton are in order and its numbers name states and symbols. All states
are reached, the start has no token, and the others have tokens that can be used. If it is made
minimal, each of the others leads to a token. -/
theorem buildLexer_shape (h : (lexicon.buildLexer settings).1 = .ok d) :
    d.alphabet.Ordered ∧ d.WellFormed ∧
      (∀ s < d.size, ∃ word, d.run d.start word = some s) ∧
      d.token? d.start = none ∧
      (∀ s k, d.token? s = some k → ∃ e, lexicon.Live k e) ∧
      (settings.minimize = true → ∀ s < d.size, s ≠ d.start →
        ∃ word t k, d.run s word = some t ∧ d.token? t = some k) := by
  refine ⟨ordered_of_buildLexer h, wellFormed_of_buildLexer h,
    fun s hs => exists_run_of_buildLexer h hs, start_of_buildLexer h,
    fun s k hk => live_of_buildLexer h hk, fun hminimize s hs hne => ?_⟩
  obtain ⟨word, k, hk⟩ := exists_token_of_buildLexer h hminimize hs hne
  obtain ⟨t, hrun, ht⟩ := Option.bind_eq_some_iff.1 hk
  exact ⟨word, t, k, hrun, ht⟩

/-- A keyword, a token that stands for the empty string too, one with the name of the first, and
names over a fragment. -/
def keywordAndRejected : Lexicon where
  fragments := [⟨"letter", .oneOf [⟨97, 122⟩], none⟩]
  tokens := [⟨"if", .literal ['i', 'f'], none⟩, ⟨"gap", .star (.literal [' ']), none⟩,
    ⟨"if", .literal ['o', 'n'], none⟩, ⟨"name", .plus (.reference "letter"), none⟩]

theorem buildLexer_shape_rejected :
    ∃ d, (keywordAndRejected.buildLexer {}).1 = .ok d ∧ ({} : LexerSettings).minimize = true ∧
      d.size = 4 ∧ d.token? 3 = some 0 ∧ d.alphabet.Ordered ∧ d.token? d.start = none ∧
      (∀ s k, d.token? s = some k → k ≠ 1 ∧ k ≠ 2) ∧
      ∃ word t k, d.run 1 word = some t ∧ d.token? t = some k := by
  have hbuilt : (keywordAndRejected.buildLexer {}).1.toOption.map (fun d =>
      (d.size, d.start, d.token? 3)) = some (4, 0, some 0) := by decide +kernel
  cases h : (keywordAndRejected.buildLexer {}).1 with
  | error e => simp [h, Except.toOption] at hbuilt
  | ok d =>
    rw [h] at hbuilt
    simp only [Except.toOption, Option.map_some, Option.some.injEq, Prod.mk.injEq] at hbuilt
    obtain ⟨hsize, hstart, htoken⟩ := hbuilt
    obtain ⟨hordered, -, -, hfirst, hlive, hleads⟩ := buildLexer_shape h
    refine ⟨d, rfl, rfl, hsize, htoken, hordered, hfirst, fun s k hk => ⟨?_, ?_⟩,
      hleads rfl 1 (by omega) (by omega)⟩
    · rintro rfl
      obtain ⟨e, he⟩ := hlive s 1 hk
      obtain rfl : e = ⟨"gap", .star (.literal [' ']), none⟩ := (Option.some.inj he.token).symm
      exact he.nonempty .starNil
    · rintro rfl
      obtain ⟨e, he⟩ := hlive s 2 hk
      obtain rfl : e = ⟨"if", .literal ['o', 'n'], none⟩ := (Option.some.inj he.token).symm
      exact he.earlier 0 (by omega) _ rfl rfl

end Lexicon

end SyntaxTables
