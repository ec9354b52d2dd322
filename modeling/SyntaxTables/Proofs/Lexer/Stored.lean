import SyntaxTables.Proofs.Lexer.Shape
import SyntaxTables.Proofs.LexerTable
import SyntaxTables.Proofs.LexerTable.Layout

/-!
# Built lexers in files

The entries of the table of a well-formed automaton are numbers of states. If there are few enough
states, each of them is stored as it is, so the table that is read scans like the automaton. The
alphabet and the tokens of a built automaton are words as long as those of the lexicon are.
-/

namespace SyntaxTables

/-- The places of the entries of a table, the ends of the cells and the tokens are words. -/
structure Dfa.OfWords (d : Dfa) : Prop where
  places_lt : d.size * d.alphabet.size < wordLimit
  cell_lt : ∀ r ∈ d.alphabet.cells, r.min < wordLimit ∧ r.max < wordLimit
  token_lt : ∀ s k, d.token? s = some k → k < wordLimit

namespace LexerTable

variable {d : Dfa} {names : List String}

theorem of_mem_next_ofDfa (hd : d.WellFormed) (hcount : d.size < noStateHalf) {n : Nat}
    (hn : n ∈ (ofDfa d names).next) : Storable n ∧ n ≠ noStateHalf := by
  rcases of_mem_rows hd hn with rfl | hlt
  · exact ⟨Or.inl rfl, by decide⟩
  · have hlt' := Nat.lt_trans hlt hcount
    exact ⟨Or.inr (Nat.le_of_lt hlt'), Nat.ne_of_lt hlt'⟩

theorem toBytes_ofDfa_eq_error_iff (hd : d.WellFormed) {e : PackError} :
    (ofDfa d names).toBytes = .error e ↔ noStateHalf ≤ d.size ∧ e = .tooManyStates d.size := by
  rw [toBytes_eq_error_iff]
  constructor
  · rintro (hmany | ⟨hcount, ⟨n, hn, hlarge⟩, -⟩)
    · exact hmany
    · exact absurd (of_mem_next_ofDfa hd hcount hn).1 hlarge
  · exact Or.inl

theorem mem_entries_accept_ofDfa {e : Nat × Nat} (he : e ∈ (ofDfa d names).accept.entries) :
    e.1 < d.size ∧ d.token? e.1 = some e.2 :=
  get?_accept_ofDfa.1 (NatMap.get?_eq_some_iff.2 he)

theorem ofWords_ofDfa (hd : d.WellFormed) (hwords : d.OfWords) (hcount : d.size < noStateHalf) :
    (ofDfa d names).OfWords := by
  have hsize : d.size < wordLimit := Nat.lt_trans hcount (by decide)
  have hpos : 0 < d.size := Nat.zero_lt_of_lt hd.start_lt
  refine ⟨hsize, ?_, Nat.lt_trans hd.start_lt hsize, hwords.cell_lt, ?_⟩
  · exact Nat.lt_of_le_of_lt (Nat.le_mul_of_pos_left _ hpos) hwords.places_lt
  · intro e he
    obtain ⟨hlt, htoken⟩ := mem_entries_accept_ofDfa he
    exact ⟨Nat.lt_trans hlt hsize, hwords.token_lt _ _ htoken⟩

theorem ofBytes_toBytes_ofDfa (hd : d.WellFormed) (hwords : d.OfWords)
    (hcount : d.size < noStateHalf) (names : List String) :
    ∃ bytes, (ofDfa d names).toBytes = .ok bytes ∧
      ofBytes bytes = .ok { ofDfa d names with tokenNames := [] } := by
  have hstorable : ∀ n ∈ (ofDfa d names).next, Storable n :=
    fun n hn => (of_mem_next_ofDfa hd hcount hn).1
  have hfits : (ofDfa d names).layout.Fits :=
    fits_layout (ofWords_ofDfa hd hwords hcount) (size_rows d) rfl hcount hstorable
  have hsame : (ofDfa d names).layout.table = { ofDfa d names with tokenNames := [] } := by
    rw [table_layout_eq_iff]
    constructor
    · exact fun hn => (of_mem_next_ofDfa hd hcount hn).2 rfl
    · have hle : (ofDfa d names).accept.size ≤ d.size :=
        NatMap.size_le fun e he => (mem_entries_accept_ofDfa he).1
      exact Nat.lt_of_le_of_lt hle (Nat.lt_trans hcount (by decide))
  refine ⟨_, toBytes_of_storable hcount hstorable, ?_⟩
  rw [hfits.ofBytes, hsame]

end LexerTable

namespace Lexicon

open LexerTable

variable {lexicon : Lexicon} {settings : LexerSettings} {d : Dfa}

/-- The ends of intervals and the numbers of tokens are words. -/
structure OfWords (lexicon : Lexicon) : Prop where
  interval_lt : ∀ r ∈ lexicon.intervals, r.max < wordLimit
  length_le : lexicon.tokens.length ≤ wordLimit

theorem OfWords.dfa (hwords : lexicon.OfWords) (h : (lexicon.buildLexer settings).1 = .ok d)
    (hplaces : d.size * d.alphabet.size < wordLimit) : d.OfWords where
  places_lt := hplaces
  cell_lt := by
    intro s hs
    rw [alphabet_of_buildLexer h] at hs
    have hnonempty := (Alphabet.mem_cells_ofRanges.1 hs).1.nonempty
    obtain ⟨r, hr, -, hmax⟩ := Alphabet.exists_le_of_mem_cells hs
    have hlt : s.max < wordLimit := Nat.lt_of_le_of_lt hmax (hwords.interval_lt r hr)
    exact ⟨Nat.lt_of_le_of_lt hnonempty hlt, hlt⟩
  token_lt := by
    intro s k hk
    obtain ⟨e, he⟩ := live_of_buildLexer h hk
    exact Nat.lt_of_lt_of_le he.lt_length hwords.length_le

/-- The table of a built automaton is refused exactly if there are too many states, never for a
target. Otherwise it is read as it was, and scans every text as the automaton does. -/
theorem buildLexer_stores (hwords : lexicon.OfWords) (h : (lexicon.buildLexer settings).1 = .ok d)
    (hplaces : d.size * d.alphabet.size < wordLimit) :
    ∃ t, ofDfaChecked d lexicon.tokenNames = .ok t ∧
      (∀ e, t.toBytes = .error e ↔ 65535 ≤ d.size ∧ e = .tooManyStates d.size) ∧
      (d.size < 65535 → ∃ bytes loaded, t.toBytes = .ok bytes ∧ ofBytes bytes = .ok loaded ∧
        loaded = { t with tokenNames := [] } ∧
        ∀ skip text, loaded.automaton.scan skip text = d.automaton.scan skip text) := by
  have hd := wellFormed_of_buildLexer h
  refine ⟨_, ofDfaChecked_eq hd _, fun e => toBytes_ofDfa_eq_error_iff hd, fun hcount => ?_⟩
  obtain ⟨bytes, hbytes, hread⟩ :=
    ofBytes_toBytes_ofDfa hd (hwords.dfa h hplaces) hcount lexicon.tokenNames
  refine ⟨bytes, _, hbytes, hread, rfl, fun skip text => ?_⟩
  -- the names of the tokens play no part in scanning
  exact ((tracks_ofDfa hd hplaces lexicon.tokenNames).scan_eq skip text).1

/-- Two letters before the names that they are one of. -/
def pairAndNames : Lexicon where
  tokens := [⟨"pair", .literal ['a', 'b'], none⟩, ⟨"name", .plus (.oneOf [⟨97, 122⟩]), none⟩]

theorem buildLexer_stores_pair :
    pairAndNames.OfWords ∧ ∃ d, (pairAndNames.buildLexer {}).1 = .ok d ∧
      d.size * d.alphabet.size < wordLimit ∧ d.size = 4 ∧
      ∃ t bytes loaded, ofDfaChecked d ["pair", "name"] = .ok t ∧ t.toBytes = .ok bytes ∧
        ofBytes bytes = .ok loaded ∧
        loaded.automaton.scan (fun _ => false) ['a', 'b'] = .ok [⟨0, 0, 2⟩] := by
  have hwords : pairAndNames.OfWords := ⟨by decide, by decide⟩
  have hbuilt : (pairAndNames.buildLexer {}).1.toOption.map (fun d =>
      (d.size, d.alphabet.size, d.automaton.scan (fun _ => false) ['a', 'b'])) =
      some (4, 3, .ok [⟨0, 0, 2⟩]) := by decide
  cases h : (pairAndNames.buildLexer {}).1 with
  | error e => simp [h, Except.toOption] at hbuilt
  | ok d =>
    rw [h] at hbuilt
    simp only [Except.toOption, Option.map_some, Option.some.injEq, Prod.mk.injEq] at hbuilt
    obtain ⟨hsize, hsymbols, hscan⟩ := hbuilt
    have hplaces : d.size * d.alphabet.size < wordLimit := by
      rw [hsize, hsymbols]
      decide
    obtain ⟨t, ht, -, hstored⟩ := buildLexer_stores hwords h hplaces
    have hcount : d.size < 65535 := by
      rw [hsize]
      decide
    obtain ⟨bytes, loaded, hbytes, hloaded, -, hsame⟩ := hstored hcount
    refine ⟨hwords, d, rfl, hplaces, hsize, t, bytes, loaded, ht, hbytes, hloaded, ?_⟩
    rw [hsame]
    exact hscan

end Lexicon

end SyntaxTables
