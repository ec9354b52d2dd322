import SyntaxTables.Proofs.Format.Lexicon
import SyntaxTables.Proofs.Json.Strict
import SyntaxTables.Proofs.LexerTable.Loaded

/-!
# Lexer tables as texts

A table whose numbers are words is restored from its text, and then only its sizes are checked;
those of the table of an automaton always fit. In a text the accepting states may be listed in any
order and more than once, but the table that is read holds each of them once and is written that
way.
-/

namespace SyntaxTables

open Json

namespace LexerTable

variable {L : Library} {t : LexerTable}

theorem restores_of_words (hL : L.Lawful) (ht : t.OfWords) (hnext : ∀ n ∈ t.next, n < wordLimit) :
    (codec L).Restores 3 t := by
  refine .via (hL.restores_record (by simp [Fields.names]) ?_) rfl
  have hcells : (L.list (Interval.codec L)).Restores 2 t.alphabet.cells.toList := by
    refine hL.restores_list fun r hr => ?_
    obtain ⟨hmin, hmax⟩ := ht.cell_lt r (Array.mem_toList_iff.1 hr)
    exact Interval.restores hL hmin hmax
  have htargets : (L.list L.word).Restores 2 t.next.toList :=
    hL.restores_list fun n hn => hL.restores_word (hnext n (Array.mem_toList_iff.1 hn))
  have haccept : (L.map L.word).Restores 2 t.accept :=
    hL.restores_map fun e he => ⟨(ht.accept_lt e he).1, hL.restores_word (ht.accept_lt e he).2⟩
  exact ⟨hcells, hL.restores_word ht.stateCount_lt, hL.restores_word ht.symbolCount_lt,
    hL.restores_word ht.start_lt, htargets, haccept,
    hL.restores_list fun s _ => hL.restores_string s, trivial⟩

theorem settles (hL : L.Lawful) {levels : Nat} : (codec L).Settles levels := by
  refine .via (hL.settles_record (by simp [Fields.names]) fun inner _ => ?_) fun _ => rfl
  have hcells : (L.list (Interval.codec L)).Settles inner :=
    hL.settles_list fun _ _ => Interval.settles hL
  have htargets : (L.list L.word).Settles inner := hL.settles_list fun _ _ => hL.settles_word
  have hnames : (L.list L.string).Settles inner := hL.settles_list fun _ _ => hL.settles_string
  have haccept : (L.map L.word).Settles inner := hL.settles_map fun _ => hL.settles_word
  exact ⟨.required hcells, .required hL.settles_word, .required hL.settles_word,
    .required hL.settles_word, .required htargets, .required haccept, .required hnames, trivial⟩

/-! ### Sizes -/

/-- What is wrong with the sizes of a table; a wrong number of targets is named first. -/
inductive Misfit (t : LexerTable) : LoadError → Prop
  | targets (hnext : t.next.size ≠ t.stateCount * t.symbolCount) :
      Misfit t (.wrongTargetCount t.next.size (t.stateCount * t.symbolCount))
  | alphabet (hnext : t.next.size = t.stateCount * t.symbolCount)
      (halphabet : t.alphabet.size ≠ t.symbolCount) : Misfit t .wrongAlphabetSize

theorem exists_misfit (h : ¬ t.Sized) : ∃ e, t.Misfit e ∧ t.checkSizes = .error e := by
  unfold checkSizes
  split_ifs with hnext halphabet
  · exact ⟨_, .targets hnext, rfl⟩
  · exact ⟨_, .alphabet (not_not.1 hnext) halphabet, rfl⟩
  · exact absurd ⟨not_not.1 hnext, not_not.1 halphabet⟩ h

/-- Of the text of a table only the sizes are still checked. -/
theorem ofText_toText_of_words (hL : L.Lawful) (ht : t.OfWords)
    (hnext : ∀ n ∈ t.next, n < wordLimit) : ofText L (t.toText L) = t.checkSizes := by
  rw [ofText, toText, hL.ofText_toText_of_restores (restores_of_words hL ht hnext) (by decide)]

theorem ofText_toText_of_ofText (hL : L.Lawful) {text : List UInt8} (h : ofText L text = .ok t) :
    ofText L (t.toText L) = .ok t := by
  have hsized := sized_of_ofText h
  unfold ofText at h
  split at h
  next => cases h
  next u hu =>
    obtain ⟨rfl, -⟩ := checkSizes_eq_ok_iff.1 h
    rw [ofText, toText, hL.ofText_toText_of_ofText (settles hL) hu]
    exact checkSizes_eq_ok_iff.2 ⟨rfl, hsized⟩

/-! ### The tables of automata -/

variable {d : Dfa} {names : List String}

theorem state_mem_states {s : Nat} (hs : s < d.size) : d.state s ∈ d.states := by
  rw [Dfa.state, Array.getD_eq_getD_getElem?, Array.getElem?_eq_getElem hs, Option.getD_some]
  exact Array.getElem_mem hs

theorem exists_edge_of_mem_entries {e : Nat × Nat} (he : e ∈ entries d) :
    ∃ s < d.size, ∃ q ∈ d.states, ∃ edge ∈ q.edges.entries,
      e = (s * d.alphabet.size + edge.1, edge.2) := by
  obtain ⟨⟨q, s⟩, hq, he⟩ := List.mem_flatMap.1 he
  obtain ⟨edge, hedge, rfl⟩ := List.mem_map.1 he
  obtain ⟨hs, rfl⟩ := mem_zipIdx_states.1 hq
  exact ⟨s, hs, d.state s, state_mem_states hs, edge, hedge, rfl⟩

/-- Edges on symbols of the alphabet stay in their rows, wherever they lead to. -/
theorem ofDfaChecked_eq_of_symbols
    (hsymbols : ∀ q ∈ d.states, ∀ e ∈ q.edges.entries, e.1 < d.alphabet.size) :
    ofDfaChecked d names = .ok (ofDfa d names) := by
  have hnone : (entries d).find? (fun e => d.size * d.alphabet.size ≤ e.1) = none := by
    rw [List.find?_eq_none]
    intro e he
    obtain ⟨s, hs, q, hq, edge, hedge, rfl⟩ := exists_edge_of_mem_entries he
    simpa using row_column_lt hs (hsymbols q hq edge hedge)
  rw [ofDfaChecked, hnone]

theorem mem_of_mem_foldl_setIfInBounds {es : List (Nat × Nat)} {a : Array Nat} {n : Nat}
    (h : n ∈ es.foldl (fun a (i, t) => a.setIfInBounds i t) a) : n ∈ a ∨ n ∈ es.map Prod.snd := by
  induction es generalizing a with
  | nil => exact Or.inl h
  | cons e es ih =>
    rw [List.map_cons, List.mem_cons]
    rcases ih h with hset | hes
    · exact (Array.mem_or_eq_of_mem_setIfInBounds hset).imp_right Or.inl
    · exact Or.inr (Or.inr hes)

theorem sized_ofDfa (d : Dfa) (names : List String) : (ofDfa d names).Sized :=
  ⟨size_rows d, rfl⟩

theorem next_lt_of_inWords (hd : d.InWords) : ∀ n ∈ (ofDfa d names).next, n < wordLimit := by
  intro n hn
  rcases mem_of_mem_foldl_setIfInBounds hn with hmissing | htarget
  · rw [Array.eq_of_mem_replicate hmissing]
    decide
  · obtain ⟨e, he, rfl⟩ := List.mem_map.1 htarget
    obtain ⟨s, -, q, hq, edge, hedge, rfl⟩ := exists_edge_of_mem_entries he
    exact hd.target_lt q hq edge hedge

theorem ofWords_of_inWords (hd : d.InWords) : (ofDfa d names).OfWords where
  stateCount_lt := hd.size_lt
  symbolCount_lt := hd.symbols_lt
  start_lt := hd.start_lt
  cell_lt := hd.cell_lt
  accept_lt := by
    rintro ⟨s, k⟩ he
    obtain ⟨hs, hk⟩ := get?_accept_ofDfa.1 (NatMap.get?_eq_some_iff.2 he)
    exact ⟨Nat.lt_trans hs hd.size_lt, hd.token_lt _ (state_mem_states hs) k hk⟩

/-- An automaton of words loses nothing where its counts and numbers are cast. -/
theorem castToWords_ofDfa (hd : d.InWords) : (ofDfa d names).castToWords = ofDfa d names := by
  have hwords : (ofDfa d names).OfWords := ofWords_of_inWords hd
  have haccept : (ofDfa d names).accept.entries.map (fun e => (e.1 % wordLimit, e.2)) =
      (ofDfa d names).accept.entries := by
    refine (List.map_congr_left fun e he => ?_).trans (List.map_id _)
    rw [Nat.mod_eq_of_lt (hwords.accept_lt e he).1, id]
  rw [castToWords, haccept, NatMap.ofList_entries, Nat.mod_eq_of_lt hwords.stateCount_lt,
    Nat.mod_eq_of_lt hwords.symbolCount_lt]

/-- A table of words is read back from its text, equal in every field, exactly if its sizes fit
together; otherwise the text is refused for what is wrong with them. The table of an automaton whose
edges are on symbols of its alphabet always comes back, and so does every table that was read from a
text, in whatever form it was there. -/
theorem ofText_toText_eq_ok (L : Library) (hL : L.Lawful) :
    (∀ t : LexerTable, t.OfWords → (∀ n ∈ t.next, n < wordLimit) →
      (t.Sized → ofText L (t.toText L) = .ok t) ∧
      (¬ t.Sized → ∃ e, t.Misfit e ∧ ofText L (t.toText L) = .error e)) ∧
    (∀ (d : Dfa) (lexicon : Lexicon), d.InWords →
      (∀ q ∈ d.states, ∀ e ∈ q.edges.entries, e.1 < d.alphabet.size) →
      ∃ t, ofDfaChecked d lexicon.tokenNames = .ok t ∧ ofText L (t.toText L) = .ok t) ∧
    ∀ text t, ofText L text = .ok t → ofText L (t.toText L) = .ok t := by
  have hback : ∀ t : LexerTable, t.OfWords → (∀ n ∈ t.next, n < wordLimit) → t.Sized →
      ofText L (t.toText L) = .ok t := by
    intro t ht hnext hsized
    rw [ofText_toText_of_words hL ht hnext]
    exact checkSizes_eq_ok_iff.2 ⟨rfl, hsized⟩
  refine ⟨fun t ht hnext => ⟨hback t ht hnext, fun hmisfit => ?_⟩, fun d lexicon hd hsymbols => ?_,
    fun _ _ => ofText_toText_of_ofText hL⟩
  · obtain ⟨e, he, herror⟩ := exists_misfit hmisfit
    refine ⟨e, he, ?_⟩
    rw [ofText_toText_of_words hL ht hnext, herror]
  · exact ⟨_, ofDfaChecked_eq_of_symbols hsymbols,
      hback _ (ofWords_of_inWords hd) (next_lt_of_inWords hd) (sized_ofDfa d lexicon.tokenNames)⟩

/-- Two states, of which the second completes a token. The edge on the second letter leads to a
state that is not there. -/
def strayEdge : Dfa where
  alphabet := ⟨#[.ofChar 'a', .ofChar 'b']⟩
  states := #[⟨.ofList [(0, 1), (1, 7)], none⟩, ⟨∅, some 0⟩]
  start := 0

/-- The fields of a table in some order, with a member that is no field and not Unicode. One of the
accepting states is listed twice, and before another one with a smaller number. -/
def unsortedAccept : List UInt8 :=
  "\x7b\"n_states\": 0, \"accept\": [[5, 1], [3, 2], [5, 4294967295]], ".toList.map Char.toUInt8 ++
    "\"comment\": \"".toList.map Char.toUInt8 ++ 0xFF ::
    "\", \"next\": [], \"alphabet\": [], \"n_symbols\": 0, ".toList.map Char.toUInt8 ++
    "\"token_names\": [\"\\\"\"], \"start\": 9\x7d".toList.map Char.toUInt8

def stateless : LexerTable where
  alphabet := ⟨#[]⟩
  stateCount := 0
  symbolCount := 0
  start := 9
  next := #[]
  accept := .ofList [(3, 2), (5, 4294967295)]
  tokenNames := ["\""]

theorem ofText_toText_eq_ok_unsortedAccept :
    Library.strict.Lawful ∧
    (ofText .strict (stateless.toText .strict) = .ok stateless ∧
      ofText .strict (toText .strict { stateless with stateCount := 2, symbolCount := 3 }) =
        .error (.wrongTargetCount 0 6)) ∧
    (∃ t, ofDfaChecked strayEdge ["letter"] = .ok t ∧ t.next = #[1, 7, noState, noState] ∧
      ofText .strict (t.toText .strict) = .ok t) ∧
    ∃ t, ofText .strict unsortedAccept = .ok t ∧
      t.accept.entries = [(3, 2), (5, 4294967295)] ∧ ofText .strict (t.toText .strict) = .ok t := by
  have hwords : stateless.OfWords := ⟨by decide, by decide, by decide, by decide, by decide⟩
  have hwide : ({ stateless with stateCount := 2, symbolCount := 3 } : LexerTable).OfWords :=
    ⟨by decide, by decide, by decide, by decide, by decide⟩
  have hempty : ∀ n ∈ stateless.next, n < wordLimit := by decide
  have hloaded : ofText .strict unsortedAccept = .ok stateless := by decide +kernel
  have hinWords : strayEdge.InWords :=
    ⟨by decide, by decide, by decide, by decide, by decide, by decide⟩
  obtain ⟨hwritten, hautomata, hread⟩ := ofText_toText_eq_ok .strict lawful_strict
  obtain ⟨e, hmisfit, herror⟩ := (hwritten _ hwide hempty).2 fun h => absurd h.next_size (by decide)
  obtain ⟨t, ht, hback⟩ := hautomata strayEdge
    { tokens := [⟨"letter", .literal ['a'], none⟩] } hinWords (by decide)
  refine ⟨lawful_strict, ⟨(hwritten _ hwords hempty).1 ⟨rfl, rfl⟩, ?_⟩, ⟨t, ht, ?_, hback⟩,
    stateless, hloaded, by decide, hread _ _ hloaded⟩
  · cases hmisfit with
    | targets _ => exact herror
    | alphabet hnext _ => exact absurd hnext (by decide)
  · rw [ofDfaChecked_eq_of_symbols (by decide)] at ht
    rw [← Except.ok.inj ht]
    decide

end LexerTable

end SyntaxTables
