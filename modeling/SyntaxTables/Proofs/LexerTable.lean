import SyntaxTables.LexerTable
import SyntaxTables.Proofs.Ascending
import SyntaxTables.Proofs.Dfa.Refinement
import SyntaxTables.Proofs.Scan

/-!
# Dense tables

The table of a well-formed automaton has an entry for each state and symbol: the target of the edge,
or the entry for a missing one. As long as the places of all entries are words, the table takes the
same steps as the automaton from each state, and so both of them scan alike.
-/

namespace SyntaxTables

theorem Alphabet.lt_size_of_symbolOf? {a : Alphabet} {c x : Nat} (h : a.symbolOf? c = some x) :
    x < a.size := by
  unfold Alphabet.symbolOf? at h
  dsimp only at h
  split at h
  next r hr =>
    have hlt := (Array.getElem?_eq_some_iff.1 hr).1
    split_ifs at h
    rwa [← Option.some.inj h]
  next => cases h

namespace LexerTable

/-! ### Rows and columns -/

theorem row_eq_div {width x : Nat} (s : Nat) (hx : x < width) : (s * width + x) / width = s := by
  rw [Nat.mul_comm, Nat.mul_add_div (Nat.zero_lt_of_lt hx), Nat.div_eq_of_lt hx, Nat.add_zero]

theorem row_column_unique {width s x s' x' : Nat} (hx : x < width) (hx' : x' < width)
    (h : s * width + x = s' * width + x') : s = s' ∧ x = x' := by
  have hs : s = s' := by rw [← row_eq_div s hx, h, row_eq_div s' hx']
  subst hs
  exact ⟨rfl, Nat.add_left_cancel h⟩

theorem row_column_lt {width height s x : Nat} (hs : s < height) (hx : x < width) :
    s * width + x < height * width :=
  calc s * width + x < s * width + width := Nat.add_lt_add_left hx _
    _ = (s + 1) * width := (Nat.succ_mul s width).symm
    _ ≤ height * width := Nat.mul_le_mul_right width hs

/-! ### The entries -/

variable {d : Dfa} {s x t : Nat}

theorem mem_zipIdx_states {q : DfaState} :
    (q, s) ∈ d.states.toList.zipIdx ↔ s < d.size ∧ d.state s = q := by
  have hstate : ∀ hs : s < d.states.size, d.state s = d.states[s] := by
    intro hs
    rw [Dfa.state, Array.getD_eq_getD_getElem?, Array.getElem?_eq_getElem hs, Option.getD_some]
  rw [List.mem_zipIdx_iff_getElem?, Array.getElem?_toList, Array.getElem?_eq_some_iff]
  constructor
  · rintro ⟨hs, hq⟩
    exact ⟨hs, (hstate hs).trans hq⟩
  · rintro ⟨hs, hq⟩
    exact ⟨hs, (hstate hs).symm.trans hq⟩

theorem mem_entries (hd : d.WellFormed) (hx : x < d.alphabet.size) :
    (s * d.alphabet.size + x, t) ∈ entries d ↔ d.target? s x = some t := by
  rw [entries, List.mem_flatMap]
  constructor
  · rintro ⟨⟨q, s'⟩, hq, ht⟩
    obtain ⟨-, rfl⟩ := mem_zipIdx_states.1 hq
    obtain ⟨⟨x', t'⟩, ht', he⟩ := List.mem_map.1 ht
    obtain ⟨hplace, rfl⟩ := Prod.mk.inj he
    have htarget : d.target? s' x' = some t' := NatMap.get?_eq_some_iff.2 ht'
    have hx' := (Dfa.lt_of_target? hd htarget).2.1
    obtain ⟨rfl, rfl⟩ := row_column_unique hx' hx hplace
    exact htarget
  · intro ht
    have hs := (Dfa.lt_of_target? hd ht).1
    refine ⟨(d.state s, s), mem_zipIdx_states.2 ⟨hs, rfl⟩, ?_⟩
    exact List.mem_map.2 ⟨(x, t), NatMap.get?_eq_some_iff.1 ht, rfl⟩

theorem lt_of_mem_entries (hd : d.WellFormed) {e : Nat × Nat} (he : e ∈ entries d) :
    e.1 < d.size * d.alphabet.size := by
  obtain ⟨⟨q, s⟩, hq, he⟩ := List.mem_flatMap.1 he
  obtain ⟨hs, rfl⟩ := mem_zipIdx_states.1 hq
  obtain ⟨⟨x, t⟩, ht, rfl⟩ := List.mem_map.1 he
  exact row_column_lt hs (Dfa.lt_of_target? hd (NatMap.get?_eq_some_iff.2 ht)).2.1

theorem ofDfaChecked_eq (hd : d.WellFormed) (names : List String) :
    ofDfaChecked d names = .ok (ofDfa d names) := by
  have hnone : (entries d).find? (fun e => d.size * d.alphabet.size ≤ e.1) = none := by
    rw [List.find?_eq_none]
    intro e he
    simpa using lt_of_mem_entries hd he
  rw [ofDfaChecked, hnone]

/-! ### The rows -/

theorem size_foldl_setIfInBounds (es : List (Nat × Nat)) (a : Array Nat) :
    (es.foldl (fun a (i, t) => a.setIfInBounds i t) a).size = a.size := by
  induction es generalizing a with
  | nil => rfl
  | cons e es ih => simp [ih]

/-- A value that is set, or there from the beginning, stays if no other one is set at its place. -/
theorem getElem?_foldl_setIfInBounds {es : List (Nat × Nat)} {a : Array Nat} {i v : Nat}
    (hi : i < a.size) (hv : ∀ e ∈ es, e.1 = i → e.2 = v) (h : a[i]? = some v ∨ (i, v) ∈ es) :
    (es.foldl (fun a (i, t) => a.setIfInBounds i t) a)[i]? = some v := by
  induction es generalizing a with
  | nil => simpa using h
  | cons e es ih =>
    obtain ⟨he, hes⟩ := List.forall_mem_cons.1 hv
    rw [List.foldl_cons]
    apply ih (by simpa using hi) hes
    by_cases hplace : e.1 = i
    · left
      rw [← he hplace, ← hplace, Array.getElem?_setIfInBounds_self_of_lt (by rwa [hplace])]
    · rw [Array.getElem?_setIfInBounds_ne hplace]
      apply h.imp_right
      intro hmem
      exact (List.mem_cons.1 hmem).resolve_left fun heq => hplace (by rw [← heq])

theorem size_rows (d : Dfa) : (rows d).size = d.size * d.alphabet.size := by
  rw [rows, size_foldl_setIfInBounds, Array.size_replicate]

theorem getElem?_rows (hd : d.WellFormed) (hs : s < d.size) (hx : x < d.alphabet.size) :
    (rows d)[s * d.alphabet.size + x]? = some ((d.target? s x).getD noState) := by
  have hplace := row_column_lt hs hx
  apply getElem?_foldl_setIfInBounds (by simpa using hplace)
  · intro e he hei
    have ht : d.target? s x = some e.2 := by
      rw [← mem_entries hd hx, ← hei]
      exact he
    rw [ht, Option.getD_some]
  · cases ht : d.target? s x with
    | none => simp [hplace]
    | some t => exact Or.inr ((mem_entries hd hx).2 ht)

theorem of_mem_rows (hd : d.WellFormed) (ht : t ∈ rows d) : t = noState ∨ t < d.size := by
  obtain ⟨i, hi⟩ := Array.mem_iff_getElem?.1 ht
  have hlt : i < d.size * d.alphabet.size := by
    rw [← size_rows]
    exact (Array.getElem?_eq_some_iff.1 hi).1
  have hpos : 0 < d.alphabet.size := Nat.pos_of_mul_pos_left (Nat.zero_lt_of_lt hlt)
  have hs : i / d.alphabet.size < d.size := (Nat.div_lt_iff_lt_mul hpos).2 hlt
  have hplace : i / d.alphabet.size * d.alphabet.size + i % d.alphabet.size = i := by
    rw [Nat.mul_comm]
    exact Nat.div_add_mod i _
  have hrow := getElem?_rows hd hs (Nat.mod_lt i hpos)
  rw [hplace, hi, Option.some.injEq] at hrow
  rw [hrow]
  cases htarget : d.target? (i / d.alphabet.size) (i % d.alphabet.size) with
  | none => exact Or.inl rfl
  | some t => exact Or.inr (Dfa.lt_of_target? hd htarget).2.2

/-! ### The accepting states -/

theorem nodup_accepting (d : Dfa) : ((d.states.toList.zipIdx.filterMap
    fun (q, s) => q.token.map fun t => (s, t)).map Prod.fst).Nodup := by
  have hnumbers : d.states.toList.zipIdx.Pairwise fun a b => a.2 < b.2 := by
    rw [← List.pairwise_map, List.zipIdx_map_snd]
    exact List.pairwise_lt_range'
  apply List.pairwise_map.2
  apply hnumbers.filterMap
  intro a b hab e he f hf
  simp only [Option.map_eq_some_iff] at he hf
  obtain ⟨k, -, rfl⟩ := he
  obtain ⟨l, -, rfl⟩ := hf
  exact Nat.ne_of_lt hab

theorem get?_accept_ofDfa {names : List String} {k : Nat} :
    (ofDfa d names).accept.get? s = some k ↔ s < d.size ∧ d.token? s = some k := by
  rw [ofDfa, NatMap.get?_ofList (nodup_accepting d), List.mem_filterMap]
  constructor
  · rintro ⟨⟨q, s'⟩, hq, he⟩
    obtain ⟨hs, rfl⟩ := mem_zipIdx_states.1 hq
    obtain ⟨k', hk, he⟩ := Option.map_eq_some_iff.1 he
    obtain ⟨rfl, rfl⟩ := Prod.mk.inj he
    exact ⟨hs, hk⟩
  · rintro ⟨hs, hk⟩
    exact ⟨(d.state s, s), mem_zipIdx_states.2 ⟨hs, rfl⟩, Option.map_eq_some_iff.2 ⟨k, hk, rfl⟩⟩

/-! ### Scanning -/

section Agreement

variable (hd : d.WellFormed) (hplaces : d.size * d.alphabet.size < wordLimit) (names : List String)

include hd hplaces

theorem automaton_step_ofDfa (hs : s < d.size) (c : Char) :
    (ofDfa d names).automaton.step s c =
      .ok ((d.alphabet.symbolOf? c.toNat).bind (d.target? s)) := by
  have halphabet : (ofDfa d names).alphabet = d.alphabet := rfl
  simp only [automaton, halphabet]
  cases hc : d.alphabet.symbolOf? c.toNat with
  | none => rfl
  | some x =>
    have hx := Alphabet.lt_size_of_symbolOf? hc
    have hplace : (ofDfa d names).place s x = s * d.alphabet.size + x :=
      Nat.mod_eq_of_lt (Nat.lt_trans (row_column_lt hs hx) hplaces)
    have hrow : (ofDfa d names).next[(ofDfa d names).place s x]? =
        some ((d.target? s x).getD noState) := by
      rw [hplace]
      exact getElem?_rows hd hs hx
    simp only [hrow, Option.bind_some]
    cases ht : d.target? s x with
    | none => simp
    | some t =>
      have htlt := (Dfa.lt_of_target? hd ht).2.2
      have hle : d.size ≤ d.size * d.alphabet.size :=
        Nat.le_mul_of_pos_right _ (Nat.zero_lt_of_lt hx)
      have hne : t ≠ noState := by
        unfold noState
        omega
      simp [hne]

omit hd hplaces in
theorem automaton_token_ofDfa (hs : s < d.size) :
    (ofDfa d names).automaton.token s = .ok (d.token? s) := by
  have hget : (ofDfa d names).accept.get? s = d.token? s := by
    ext k
    rw [get?_accept_ofDfa]
    exact and_iff_right hs
  exact congrArg Except.ok hget

theorem tracks_ofDfa : d.automaton.Tracks (ofDfa d names).automaton
    (fun s t => s = t ∧ s < d.size) fun _ => False where
  start := ⟨rfl, hd.start_lt⟩
  token := by
    rintro s _ ⟨rfl, hs⟩
    exact ⟨d.token? s, Dfa.automaton_token hs, automaton_token_ofDfa names hs⟩
  step := by
    rintro s _ ⟨rfl, hs⟩ c
    rw [Dfa.automaton_step hs, automaton_step_ofDfa hd hplaces names hs]
    cases hc : (d.alphabet.symbolOf? c.toNat).bind (d.target? s) with
    | none => exact Or.inr ⟨rfl, Or.inl rfl⟩
    | some t =>
      obtain ⟨x, -, ht⟩ := Option.bind_eq_some_iff.1 hc
      exact Or.inl ⟨t, t, rfl, rfl, rfl, (Dfa.lt_of_target? hd ht).2.2⟩
  lost_token := fun _ h => h.elim
  lost_step := fun _ h => h.elim

/-- A well-formed automaton and its table have the same start, from each state the same steps and
the same token, and so the same longest matches and the same tokens or errors of every text. None of
it is a fault. -/
theorem ofDfa_indistinguishable (lexicon : Lexicon) :
    ∃ t, ofDfaChecked d lexicon.tokenNames = .ok t ∧
      t.automaton.start = d.automaton.start ∧
      (∀ s < d.size,
        (∀ c, ∃ target, d.automaton.step s c = .ok target ∧ t.automaton.step s c = .ok target) ∧
        ∃ k, d.automaton.token s = .ok k ∧ t.automaton.token s = .ok k) ∧
      ∀ text,
        (∃ m, d.automaton.longestMatch text = .ok m ∧ t.automaton.longestMatch text = .ok m) ∧
        ∀ skip, t.automaton.scan skip text = d.automaton.scan skip text ∧
          ∀ f, d.automaton.scan skip text ≠ .error (.fault f) := by
  have htracks := tracks_ofDfa hd hplaces lexicon.tokenNames
  refine ⟨_, ofDfaChecked_eq hd _, rfl, ?_, ?_⟩
  · intro s hs
    constructor
    · intro c
      exact ⟨_, Dfa.automaton_step hs c, automaton_step_ofDfa hd hplaces _ hs c⟩
    · exact ⟨_, Dfa.automaton_token hs, automaton_token_ofDfa _ hs⟩
  · intro text
    exact ⟨htracks.longestMatch_eq text, fun skip => htracks.scan_eq skip text⟩

end Agreement

/-- Names of a letter with letters and digits behind it, and numbers. -/
def namesAndNumbers : Dfa where
  alphabet := ⟨#[.ofChars '0' '9', .ofChars 'a' 'z']⟩
  states := #[⟨.ofList [(0, 2), (1, 1)], none⟩, ⟨.ofList [(0, 1), (1, 1)], some 0⟩,
    ⟨.ofList [(0, 2)], some 1⟩]
  start := 0

theorem ofDfa_indistinguishable_namesAndNumbers :
    namesAndNumbers.WellFormed ∧
      namesAndNumbers.size * namesAndNumbers.alphabet.size < wordLimit ∧
      ∃ t, ofDfaChecked namesAndNumbers ["name", "number"] = .ok t ∧
        t.next = #[2, 1, 1, 1, 2, noState] ∧
        t.automaton.scan (fun _ => false) ['4', '2', 'x', '4'] = .ok [⟨1, 0, 2⟩, ⟨0, 2, 2⟩] ∧
        t.automaton.scan (fun _ => false) ['4', '-'] =
          .error (.noMatch ⟨1, '-', 0, ['4', '-']⟩) := by
  have hd : namesAndNumbers.WellFormed := ⟨by decide, by decide⟩
  have hplaces : namesAndNumbers.size * namesAndNumbers.alphabet.size < wordLimit := by decide
  obtain ⟨t, ht, -, -, htexts⟩ := ofDfa_indistinguishable hd hplaces
    { tokens := [⟨"name", .plus (.oneOf [.ofChars 'a' 'z']), none⟩,
      ⟨"number", .plus (.oneOf [.ofChars '0' '9']), none⟩] }
  refine ⟨hd, hplaces, t, ht, ?_, ?_, ?_⟩
  · rw [ofDfaChecked_eq hd] at ht
    rw [← Except.ok.inj ht]
    decide
  · rw [((htexts _).2 _).1]
    decide
  · rw [((htexts _).2 _).1]
    decide

end LexerTable

end SyntaxTables
