import SyntaxTables.Format.LexerTable
import SyntaxTables.Proofs.LexerTable
import SyntaxTables.Proofs.LexerTable.Layout
import SyntaxTables.Proofs.Scan.Faults

/-!
# Tables from files

What is read from a file has as many entries as its sizes say, but its start, its targets and its
accepting states may be any numbers. A number that is no state has no row, so a text that leads to
it can meet a fault. If the start and all targets are states, every text is scanned without one.
-/

namespace SyntaxTables.LexerTable

open Json (Library)

variable {t u : LexerTable} {s x : Nat} {c : Char} {f : Fault}

/-- There are as many targets and cells as the numbers of states and symbols ask for. -/
structure Sized (t : LexerTable) : Prop where
  next_size : t.next.size = t.stateCount * t.symbolCount
  alphabet_size : t.alphabet.size = t.symbolCount

/-- The start and all targets are states. -/
structure Closed (t : LexerTable) : Prop where
  start_lt : t.start < t.stateCount
  target_lt : ∀ n ∈ t.next, n = noState ∨ n < t.stateCount

/-! ### Sizes -/

theorem checkSizes_eq_ok_iff : t.checkSizes = .ok u ↔ t = u ∧ t.Sized := by
  unfold checkSizes
  split_ifs with hnext halphabet
  · exact iff_of_false (by simp) fun h => hnext h.2.next_size
  · exact iff_of_false (by simp) fun h => halphabet h.2.alphabet_size
  · rw [Except.ok.injEq, iff_self_and]
    exact fun _ => ⟨not_not.1 hnext, not_not.1 halphabet⟩

theorem sized_of_ofText {L : Library} {text : List UInt8} (h : ofText L text = .ok t) :
    t.Sized := by
  unfold ofText at h
  split at h
  · cases h
  · obtain ⟨rfl, hsized⟩ := checkSizes_eq_ok_iff.1 h
    exact hsized

theorem sized_of_ofBytes {bytes : List UInt8} (h : ofBytes bytes = .ok t) : t.Sized := by
  unfold ofBytes at h
  split_ifs at h
  split at h
  · cases h
  · dsimp only at h
    split_ifs at h
    split at h
    · cases h
    · next hread =>
      obtain ⟨⟨hcells, htargets, -⟩, -⟩ := ((fixed_payload _ _ _).read_eq_ok_iff).1 hread
      obtain rfl := Except.ok.inj h
      exact ⟨by simpa using htargets.1, by simpa [Alphabet.size] using hcells.1⟩

/-! ### Steps -/

theorem step_eq_error_iff : t.automaton.step s c = .error f ↔
    ∃ x, t.alphabet.symbolOf? c.toNat = some x ∧ t.next.size ≤ t.place s x ∧
      f = .noEntry (t.place s x) := by
  cases hx : t.alphabet.symbolOf? c.toNat with
  | none => simp [automaton, hx]
  | some x =>
    cases hn : t.next[t.place s x]? with
    | none =>
      have hle := Array.getElem?_eq_none_iff.1 hn
      simp [automaton, hx, hle, eq_comm]
    | some n =>
      have hlt := (Array.getElem?_eq_some_iff.1 hn).1
      simp [automaton, hx, hlt]

theorem mem_next_of_step (h : t.automaton.step s c = .ok (some x)) : x ∈ t.next ∧ x ≠ noState := by
  cases hx : t.alphabet.symbolOf? c.toNat with
  | none => simp [automaton, hx] at h
  | some y =>
    cases hn : t.next[t.place s y]? with
    | none => simp [automaton, hx, hn] at h
    | some n =>
      simp only [automaton, hx, hn, Except.ok.injEq] at h
      split_ifs at h with hne
      obtain rfl := Option.some.inj h
      exact ⟨Array.mem_of_getElem? hn, hne⟩

theorem Sized.place_lt (h : t.Sized) (hs : s < t.stateCount)
    (hx : t.alphabet.symbolOf? c.toNat = some x) : t.place s x < t.next.size := by
  have hlt : x < t.symbolCount := h.alphabet_size ▸ Alphabet.lt_size_of_symbolOf? hx
  calc t.place s x ≤ s * t.symbolCount + x := Nat.mod_le _ _
    _ < t.stateCount * t.symbolCount := row_column_lt hs hlt
    _ = t.next.size := h.next_size.symm

theorem Closed.lt_of_leads (h : t.Closed) {text : List Char}
    (hleads : t.automaton.Leads s text x) (hs : s < t.stateCount) : x < t.stateCount := by
  induction hleads with
  | nil => exact hs
  | cons hstep _ ih =>
    obtain ⟨hmem, hne⟩ := mem_next_of_step hstep
    exact ih ((h.target_lt _ hmem).resolve_left hne)

theorem Sized.meetsFault_iff (h : t.Sized) {text : List Char} :
    t.automaton.MeetsFault t.start text f ↔
      ∃ front c rest s x, text = front ++ c :: rest ∧ t.automaton.Leads t.start front s ∧
        t.stateCount ≤ s ∧ t.alphabet.symbolOf? c.toNat = some x ∧
        t.next.size ≤ t.place s x ∧ f = .noEntry (t.place s x) := by
  constructor
  · rintro ⟨front, c, rest, s, htext, hleads, hfault⟩
    obtain ⟨x, hx, hle, rfl⟩ := step_eq_error_iff.1 hfault
    have hs : t.stateCount ≤ s := by
      by_contra hlt
      exact absurd (h.place_lt (Nat.lt_of_not_le hlt) hx) (Nat.not_lt.2 hle)
    exact ⟨front, c, rest, s, x, htext, hleads, hs, hx, hle, rfl⟩
  · rintro ⟨front, c, rest, s, x, htext, hleads, -, hx, hle, rfl⟩
    exact ⟨front, c, rest, s, htext, hleads, step_eq_error_iff.2 ⟨x, hx, hle, rfl⟩⟩

theorem not_meetsFault (h : t.Sized) (hclosed : t.Closed) (text : List Char) :
    ¬ t.automaton.MeetsFault t.start text f := by
  rw [h.meetsFault_iff]
  rintro ⟨front, c, rest, s, x, -, hleads, hs, -⟩
  exact absurd (hclosed.lt_of_leads hleads hclosed.start_lt) (Nat.not_lt.2 hs)

/-! ### Tokens of states -/

/-- The tokens are listed exactly if only states have tokens, and then each at its state. -/
theorem tokenOfStates_eq_ok_iff {ks : List Nat} : t.tokenOfStates = .ok ks ↔
    (∀ e ∈ t.accept.entries, e.1 < t.stateCount) ∧ ks.length = t.stateCount ∧
      ∀ s < t.stateCount, ks[s]? = some ((t.accept.get? s).getD noToken) := by
  unfold tokenOfStates
  cases hfind : t.accept.entries.find? fun e => t.stateCount ≤ e.1 with
  | some e =>
    refine iff_of_false (by simp) fun h => ?_
    have hle : t.stateCount ≤ e.1 := by simpa using List.find?_some hfind
    exact absurd (h.1 e (List.mem_of_find?_eq_some hfind)) (Nat.not_lt.2 hle)
  | none =>
    have hall : ∀ e ∈ t.accept.entries, e.1 < t.stateCount := by
      simpa using List.find?_eq_none.1 hfind
    rw [Except.ok.injEq, and_iff_right hall]
    constructor
    · rintro rfl
      refine ⟨by simp, fun s hs => ?_⟩
      rw [List.getElem?_map, List.getElem?_range hs, Option.map_some]
    · rintro ⟨hlength, hks⟩
      apply List.ext_getElem? fun s => ?_
      rw [List.getElem?_map]
      rcases Nat.lt_or_ge s t.stateCount with hs | hs
      · rw [List.getElem?_range hs, hks s hs, Option.map_some]
      · rw [List.getElem?_eq_none (by simpa using hs), List.getElem?_eq_none (by omega)]
        rfl

/-! ### Driving a table -/

theorem exists_token (t : LexerTable) (s : Nat) : ∃ k, t.automaton.token s = .ok k := ⟨_, rfl⟩

theorem longestMatch_eq_error_iff {text : List Char} :
    t.automaton.longestMatch text = .error f ↔ t.automaton.MeetsFault t.start text f :=
  Automaton.longestFrom_eq_error_iff t.exists_token

theorem exists_longestMatch_iff : (∀ text, ∃ m, t.automaton.longestMatch text = .ok m) ↔
    ∀ text f, ¬ t.automaton.MeetsFault t.start text f := by
  refine forall_congr' fun text => ?_
  simp only [← longestMatch_eq_error_iff]
  cases t.automaton.longestMatch text <;> simp

/-- A table that is read is driven without a fault by every text if its start and its targets are
states. Whatever they are, a match meets a fault exactly where the text leads to a number that is no
state and has no entry for the next character. Scans meet none exactly if matches do not, and they
end. The tokens of the states are listed exactly if only states have tokens. -/
theorem loaded_driven
    (hread : (∃ bytes, ofBytes bytes = .ok t) ∨ ∃ L text, ofText L text = .ok t) :
    (t.Closed → ∀ text, (∃ m, t.automaton.longestMatch text = .ok m) ∧ ∀ skip,
      (∃ ts, t.automaton.scan skip text = .ok ts) ∨
        ∃ site, t.automaton.scan skip text = .error (.noMatch site)) ∧
    (∀ text f, t.automaton.longestMatch text = .error f ↔
      ∃ front c rest s x, text = front ++ c :: rest ∧ t.automaton.Leads t.start front s ∧
        t.stateCount ≤ s ∧ t.alphabet.symbolOf? c.toNat = some x ∧
        t.next.size ≤ t.place s x ∧ f = .noEntry (t.place s x)) ∧
    (∀ skip, (∀ text f, t.automaton.scan skip text ≠ .error (.fault f)) ↔
      ∀ text, ∃ m, t.automaton.longestMatch text = .ok m) ∧
    (∀ text limit, text.length ≤ limit →
      t.automaton.tokensFrom text limit 0 text = t.automaton.tokens text) ∧
    ((∃ ks, t.tokenOfStates = .ok ks) ↔ ∀ e ∈ t.accept.entries, e.1 < t.stateCount) ∧
    ∀ ks, t.tokenOfStates = .ok ks → ks.length = t.stateCount ∧
      ∀ s < t.stateCount, ks[s]? = some ((t.accept.get? s).getD noToken) := by
  have hsized : t.Sized := by
    rcases hread with ⟨bytes, h⟩ | ⟨L, text, h⟩
    · exact sized_of_ofBytes h
    · exact sized_of_ofText h
  have hscan : ∀ skip, (∀ text f, t.automaton.scan skip text ≠ .error (.fault f)) ↔
      ∀ text, ∃ m, t.automaton.longestMatch text = .ok m := by
    intro skip
    rw [exists_longestMatch_iff]
    exact Automaton.scan_ne_fault_iff t.exists_token skip
  refine ⟨fun hclosed => ?_, fun text f => ?_, hscan, fun text limit hlimit => ?_, ?_, ?_⟩
  · have hmatch := exists_longestMatch_iff.2 fun text f => not_meetsFault hsized hclosed text
    refine fun text => ⟨hmatch text, fun skip => ?_⟩
    have hfault := (hscan skip).2 hmatch text
    cases hresult : t.automaton.scan skip text with
    | ok ts => exact Or.inl ⟨ts, rfl⟩
    | error e =>
      cases e with
      | noMatch site => exact Or.inr ⟨site, rfl⟩
      | fault f => exact absurd hresult (hfault f)
  · rw [longestMatch_eq_error_iff, hsized.meetsFault_iff]
  · exact Automaton.tokensFrom_eq_of_le t.exists_token hlimit (Nat.le_refl _)
  · constructor
    · rintro ⟨ks, hks⟩
      exact (tokenOfStates_eq_ok_iff.1 hks).1
    · intro hall
      refine ⟨(List.range t.stateCount).map fun s => (t.accept.get? s).getD noToken, ?_⟩
      refine tokenOfStates_eq_ok_iff.2 ⟨hall, by simp, fun s hs => ?_⟩
      rw [List.getElem?_map, List.getElem?_range hs, Option.map_some]
  · exact fun ks hks => (tokenOfStates_eq_ok_iff.1 hks).2

/-- Two states with an edge from the first to the second on the letter a, which completes token
5. -/
def storedEdge : List UInt8 :=
  signature ++ [2, 0, 0, 0, 1, 0, 0, 0, 0, 0, 0, 0, 1, 0, 0, 0] ++ [97, 0, 0, 0, 97, 0, 0, 0] ++
    [1, 0, 0xFF, 0xFF] ++ [1, 0, 0, 0, 5, 0, 0, 0]

theorem loaded_driven_storedEdge :
    ∃ t, ofBytes storedEdge = .ok t ∧ t.Closed ∧
      (∀ text, ∃ m, t.automaton.longestMatch text = .ok m) ∧
      t.automaton.scan (fun _ => false) ['a', 'a'] = .ok [⟨5, 0, 1⟩, ⟨5, 1, 1⟩] ∧
      ∃ ks, t.tokenOfStates = .ok ks ∧ ks.length = 2 := by
  have hloaded : ∃ t, ofBytes storedEdge = .ok t ∧ t.stateCount = 2 ∧ t.start = 0 ∧
      t.next = #[1, noState] ∧ t.accept.entries = [(1, 5)] ∧
      t.automaton.scan (fun _ => false) ['a', 'a'] = .ok [⟨5, 0, 1⟩, ⟨5, 1, 1⟩] :=
    ⟨_, rfl, rfl, rfl, rfl, rfl, by decide⟩
  obtain ⟨t, ht, hstates, hstart, hnext, haccept, hscan⟩ := hloaded
  have hclosed : t.Closed := by
    constructor
    · rw [hstart, hstates]
      decide
    · rw [hnext, hstates]
      decide
  obtain ⟨hdriven, -, -, -, htokens, hlisted⟩ := loaded_driven (Or.inl ⟨_, ht⟩)
  obtain ⟨ks, hks⟩ := htokens.2 (by rw [haccept, hstates]; decide)
  exact ⟨t, ht, hclosed, fun text => (hdriven hclosed text).1, hscan, ks, hks,
    (hlisted ks hks).1.trans hstates⟩

/-- One state with an edge to the number 1 on the letter a, and a token of the number 7. -/
def strayTarget : List UInt8 :=
  signature ++ [1, 0, 0, 0, 1, 0, 0, 0, 0, 0, 0, 0, 1, 0, 0, 0] ++ [97, 0, 0, 0, 97, 0, 0, 0] ++
    [1, 0] ++ [7, 0, 0, 0, 0, 0, 0, 0]

/-- Both numbers are read although they are no states. -/
theorem fault_strayTarget :
    ∃ t, ofBytes strayTarget = .ok t ∧
      t.automaton.longestMatch ['a', 'a'] = .error (.noEntry 1) ∧
      t.automaton.scan (fun _ => false) ['a', 'a'] = .error (.fault (.noEntry 1)) ∧
      t.tokenOfStates = .error (.noState 7) :=
  ⟨_, rfl, by decide, by decide, by decide⟩

end SyntaxTables.LexerTable
