import SyntaxTables.Proofs.Lexer
import SyntaxTables.Proofs.Scan.Longest

/-!
# Maximal munch

A text is tiled by pieces, each the longest that a live token stands for at its place. The tiling is
determined from left to right, and a scanner follows it. It ends at the end of the text, or at a
place where no live token stands for anything that begins there, and reports this place.
-/

namespace SyntaxTables

/-- Tokens lie side by side from one place to another. -/
def Adjoin : Nat → List Token → Nat → Prop
  | first, [], last => first = last
  | first, t :: ts, last => t.start = first ∧ Adjoin (first + t.length) ts last

namespace Lexicon

variable {lexicon : Lexicon} {piece rest : List Char} {k : Nat}

/-- A piece is the longest non-empty beginning of a text that some live token stands for, and the
least such token is given. -/
structure Munches (lexicon : Lexicon) (piece rest : List Char) (k : Nat) : Prop where
  nonempty : piece ≠ []
  token : lexicon.IsTokenOf (piece.map Char.toNat) (some k)
  longest : ∀ p, p <+: piece ++ rest → p ≠ [] → ∀ i d, lexicon.Live i d →
    d.pattern.Matches lexicon (p.map Char.toNat) → p <+: piece

/-- No live token stands for any non-empty beginning of a text. -/
def Stuck (lexicon : Lexicon) (text : List Char) : Prop :=
  ∀ p, p <+: text → p ≠ [] → ∀ i d, lexicon.Live i d →
    ¬ d.pattern.Matches lexicon (p.map Char.toNat)

/-- The tokens of the first part of a text, which begins at a place, in front of the second part.
The longest match at each place may look at both parts. -/
inductive Tiles (lexicon : Lexicon) : Nat → List Char → List Token → List Char → Prop
  | nil {position : Nat} {rest : List Char} : Tiles lexicon position [] [] rest
  | cons {position k : Nat} {piece front rest : List Char} {ts : List Token} :
    lexicon.Munches piece (front ++ rest) k →
      Tiles lexicon (position + byteLength piece) front ts rest →
      Tiles lexicon position (piece ++ front) (⟨k, position, byteLength piece⟩ :: ts) rest

theorem IsTokenOf.unique {w : List Nat} {k k' : Nat} (h : lexicon.IsTokenOf w (some k))
    (h' : lexicon.IsTokenOf w (some k')) : k = k' := by
  obtain ⟨⟨d, hd, hw⟩, hleast⟩ := h
  obtain ⟨⟨d', hd', hw'⟩, hleast'⟩ := h'
  apply Nat.le_antisymm
  · exact Nat.not_lt.1 fun hlt => hleast k' hlt d' hd' hw'
  · exact Nat.not_lt.1 fun hlt => hleast' k hlt d hd hw

/-! ### One match -/

theorem Munches.unique {piece' rest' : List Char} {k' : Nat} (h : lexicon.Munches piece rest k)
    (h' : lexicon.Munches piece' rest' k') (htext : piece ++ rest = piece' ++ rest') :
    piece = piece' ∧ rest = rest' ∧ k = k' := by
  obtain ⟨d, hd, hw⟩ := h.token.1
  obtain ⟨d', hd', hw'⟩ := h'.token.1
  have hle : piece <+: piece' := h'.longest piece ⟨rest, htext⟩ h.nonempty k d hd hw
  have hge : piece' <+: piece := h.longest piece' ⟨rest', htext.symm⟩ h'.nonempty k' d' hd' hw'
  obtain rfl : piece = piece' := hle.eq_of_length_le hge.length_le
  exact ⟨rfl, List.append_cancel_left htext, h.token.unique h'.token⟩

theorem Munches.not_stuck (h : lexicon.Munches piece rest k) :
    ¬ lexicon.Stuck (piece ++ rest) := by
  intro hstuck
  obtain ⟨d, hd, hw⟩ := h.token.1
  exact hstuck piece (List.prefix_append _ _) h.nonempty k d hd hw

/-- An automaton reads every text as the least live token that stands for it. -/
def ReadBy (lexicon : Lexicon) (a : Automaton) : Prop :=
  ∀ text, ∃ k, a.wholeMatch text = .ok k ∧ lexicon.IsTokenOf (text.map Char.toNat) k

theorem readBy_of_buildLexer {settings : LexerSettings} {dfa : Dfa}
    (h : (lexicon.buildLexer settings).1 = .ok dfa) : lexicon.ReadBy dfa.automaton := by
  obtain ⟨hdfa, -⟩ := eq_of_buildLexer (Prod.ext h rfl)
  intro text
  obtain ⟨k, hrun, hk⟩ := wholeMatch_tokenDfa lexicon text
  refine ⟨k, ?_, hk⟩
  rw [hdfa]
  split_ifs
  · obtain ⟨k', hrun', hminimal⟩ :=
      (Dfa.tracks_minimize (wellFormed_tokenDfa lexicon)).wholeMatch_eq text
    obtain rfl := Except.ok.inj (hrun.symm.trans hrun')
    exact hminimal
  · exact hrun

section Scan

variable {a : Automaton} (h : lexicon.ReadBy a)

include h

theorem ReadBy.longestMatch_cases (text : List Char) :
    (∃ piece rest k, text = piece ++ rest ∧ lexicon.Munches piece rest k ∧
      a.longestMatch text = .ok (some ⟨k, byteLength piece, rest⟩)) ∨
    lexicon.Stuck text ∧ a.longestMatch text = .ok none := by
  have hanswers : a.Answers a.start := fun text => (h text).imp fun k hk => hk.1
  have htoken : ∀ {p i d}, lexicon.Live i d → d.pattern.Matches lexicon (p.map Char.toNat) →
      a.tokenFrom a.start p ≠ .ok none := by
    intro p i d hd hw hnone
    obtain ⟨k, hrun, hk⟩ := h p
    obtain rfl := Except.ok.inj (hrun.symm.trans hnone)
    exact hk i d hd hw
  rcases Automaton.longestFrom_cases hanswers 0 none text with
    ⟨piece, rest, k, rfl, hlongest, heq⟩ | ⟨hbarren, heq⟩
  · refine Or.inl ⟨piece, rest, k, rfl, ⟨hlongest.nonempty, ?_, ?_⟩, ?_⟩
    · obtain ⟨k', hrun, hk⟩ := h piece
      obtain rfl := Except.ok.inj (hrun.symm.trans hlongest.token)
      exact hk
    · exact fun p hp hne i d hd hw => hlongest.longest p hp hne (htoken hd hw)
    · rwa [Nat.zero_add] at heq
  · exact Or.inr ⟨fun p hp hne i d hd hw => htoken hd hw (hbarren p hp hne), heq⟩

theorem ReadBy.longestMatch_of_munches (hm : lexicon.Munches piece rest k) :
    a.longestMatch (piece ++ rest) = .ok (some ⟨k, byteLength piece, rest⟩) := by
  rcases h.longestMatch_cases (piece ++ rest) with
    ⟨piece', rest', k', htext, hm', heq⟩ | ⟨hstuck, -⟩
  · obtain ⟨rfl, rfl, rfl⟩ := hm.unique hm' htext
    exact heq
  · exact absurd hstuck hm.not_stuck

theorem ReadBy.longestMatch_of_stuck {text : List Char} (hstuck : lexicon.Stuck text) :
    a.longestMatch text = .ok none := by
  rcases h.longestMatch_cases text with ⟨piece, rest, k, rfl, hm, -⟩ | ⟨-, heq⟩
  · exact absurd hstuck hm.not_stuck
  · exact heq

/-! ### All tokens -/

theorem ReadBy.tokensFrom_of_munches (hm : lexicon.Munches piece rest k) (text : List Char)
    (limit position : Nat) : a.tokensFrom text (limit + 1) position (piece ++ rest) =
      (a.tokensFrom text limit (position + byteLength piece) rest).map
        (⟨k, position, byteLength piece⟩ :: ·) := by
  have hmatch := h.longestMatch_of_munches hm
  obtain ⟨c, cs, rfl⟩ := List.exists_cons_of_ne_nil hm.nonempty
  rw [List.cons_append] at hmatch ⊢
  rw [Automaton.tokensFrom, hmatch]
  dsimp only
  cases a.tokensFrom text limit (position + byteLength (c :: cs)) rest <;> rfl

theorem ReadBy.tokensFrom_of_tiles {position : Nat} {front : List Char} {ts : List Token}
    (htiles : lexicon.Tiles position front ts rest) (text : List Char) (limit : Nat) :
    a.tokensFrom text (ts.length + limit) position (front ++ rest) =
      (a.tokensFrom text limit (position + byteLength front) rest).map (ts ++ ·) := by
  induction htiles with
  | @nil position rest =>
    rw [List.length_nil, Nat.zero_add, byteLength_nil, Nat.add_zero, List.nil_append]
    cases a.tokensFrom text limit position rest <;> rfl
  | @cons position k piece front rest ts hm _ ih =>
    rw [List.append_assoc, List.length_cons, Nat.add_right_comm, h.tokensFrom_of_munches hm, ih,
      byteLength_append, Nat.add_assoc]
    cases a.tokensFrom text limit (position + (byteLength piece + byteLength front)) rest <;> rfl

/-- A scanner comes to the end of a text, or to a place where it is stuck. -/
theorem ReadBy.tokensFrom_cases (text : List Char) (position : Nat) {limit : Nat}
    (hlimit : rest.length ≤ limit) :
    (∃ ts, lexicon.Tiles position rest ts [] ∧ a.tokensFrom text limit position rest = .ok ts) ∨
    ∃ front ts c back, rest = front ++ c :: back ∧ lexicon.Tiles position front ts (c :: back) ∧
      lexicon.Stuck (c :: back) ∧ a.tokensFrom text limit position rest =
        .error (.noMatch (.at text (position + byteLength front) c)) := by
  induction limit generalizing position rest with
  | zero =>
    obtain rfl : rest = [] := List.length_eq_zero_iff.1 (Nat.le_zero.1 hlimit)
    exact Or.inl ⟨[], .nil, by simp [Automaton.tokensFrom]⟩
  | succ limit ih =>
    cases rest with
    | nil => exact Or.inl ⟨[], .nil, by simp [Automaton.tokensFrom]⟩
    | cons c cs =>
      rcases h.longestMatch_cases (c :: cs) with ⟨piece, rest, k, htext, hm, -⟩ | ⟨hstuck, heq⟩
      · have hshorter : rest.length ≤ limit := by
          have hpiece := List.length_pos_of_ne_nil hm.nonempty
          have hlength := congrArg List.length htext
          rw [List.length_append] at hlength
          omega
        rw [htext, h.tokensFrom_of_munches hm]
        rcases ih (position + byteLength piece) hshorter with
          ⟨ts, htiles, heq⟩ | ⟨front, ts, d, back, rfl, htiles, hstuck, heq⟩
        · refine Or.inl ⟨_, .cons (by rwa [List.append_nil]) htiles, ?_⟩
          rw [heq]
          rfl
        · refine Or.inr ⟨_, _, d, back, (List.append_assoc _ _ _).symm, .cons hm htiles, hstuck, ?_⟩
          rw [heq, byteLength_append, Nat.add_assoc]
          rfl
      · refine Or.inr ⟨[], [], c, cs, rfl, .nil, hstuck, ?_⟩
        rw [Automaton.tokensFrom, heq]
        rfl

end Scan

/-! ### Tilings -/

section Tilings

variable {position : Nat} {front : List Char} {ts : List Token}

theorem Tiles.length_le (h : lexicon.Tiles position front ts rest) : ts.length ≤ front.length := by
  induction h with
  | nil => exact Nat.le_refl 0
  | cons hm _ ih =>
    have hpiece := List.length_pos_of_ne_nil hm.nonempty
    rw [List.length_cons, List.length_append]
    omega

theorem Tiles.adjoin (h : lexicon.Tiles position front ts rest) :
    Adjoin position ts (position + byteLength front) := by
  induction h with
  | nil => rfl
  | cons _ _ ih =>
    rw [byteLength_append, ← Nat.add_assoc]
    exact ⟨rfl, ih⟩

/-- Each token of a tiling is a longest match at its place. -/
theorem Tiles.exists_munches (h : lexicon.Tiles position front ts rest) {t : Token} (ht : t ∈ ts) :
    ∃ before piece after, front ++ rest = before ++ (piece ++ after) ∧
      t.start = position + byteLength before ∧ t.length = byteLength piece ∧
      lexicon.Munches piece after t.kind := by
  induction h with
  | nil => simp at ht
  | @cons position k piece front rest ts hm _ ih =>
    rcases List.mem_cons.1 ht with rfl | ht
    · exact ⟨[], piece, front ++ rest, List.append_assoc _ _ _, rfl, rfl, hm⟩
    · obtain ⟨before, piece', after, heq, hstart, hlength, hm'⟩ := ih ht
      refine ⟨piece ++ before, piece', after, by simp [heq], ?_, hlength, hm'⟩
      rw [hstart, byteLength_append, Nat.add_assoc]

end Tilings

section Tokens

variable {a : Automaton} (h : lexicon.ReadBy a)

include h

theorem ReadBy.tokens_of_tiles {text : List Char} {all : List Token}
    (htiles : lexicon.Tiles 0 text all []) : a.tokens text = .ok all := by
  have hrun := h.tokensFrom_of_tiles htiles text (text.length - all.length)
  rw [Nat.add_sub_cancel' htiles.length_le, List.append_nil] at hrun
  rw [Automaton.tokens, hrun]
  simp [Automaton.tokensFrom, Except.map]

theorem ReadBy.tokens_of_stuck {front rest : List Char} {all : List Token} {c : Char}
    (htiles : lexicon.Tiles 0 front all (c :: rest)) (hstuck : lexicon.Stuck (c :: rest)) :
    a.tokens (front ++ c :: rest) =
      .error (.noMatch (.at (front ++ c :: rest) (byteLength front) c)) := by
  have hle := htiles.length_le
  have hrun := h.tokensFrom_of_tiles htiles (front ++ c :: rest)
    (front.length - all.length + rest.length + 1)
  have hlimit : all.length + (front.length - all.length + rest.length + 1) =
      (front ++ c :: rest).length := by
    rw [List.length_append, List.length_cons]
    omega
  rw [hlimit] at hrun
  rw [Automaton.tokens, hrun, Automaton.tokensFrom, h.longestMatch_of_stuck hstuck, Nat.zero_add]
  rfl

end Tokens

end Lexicon

theorem Automaton.scan_eq_map (a : Automaton) (skip : Nat → Bool) (text : List Char) :
    a.scan skip text = (a.tokens text).map (List.filter fun t => !skip t.kind) := by
  rw [scan]
  cases a.tokens text <;> rfl

namespace Lexicon

variable {lexicon : Lexicon}

/-- A built lexer scans by maximal munch. -/
theorem buildLexer_munches {settings : LexerSettings} {dfa : Dfa}
    (h : (lexicon.buildLexer settings).1 = .ok dfa) (skip : Nat → Bool) (text : List Char) :
    (∀ ts, dfa.automaton.scan skip text = .ok ts ↔
      ∃ all, lexicon.Tiles 0 text all [] ∧ ts = all.filter fun t => !skip t.kind) ∧
    (∀ all, lexicon.Tiles 0 text all [] → Adjoin 0 all (byteLength text) ∧
      ∀ t ∈ all, 0 < t.length ∧ ∃ before piece after, text = before ++ (piece ++ after) ∧
        t.start = byteLength before ∧ t.length = byteLength piece ∧
        lexicon.Munches piece after t.kind) ∧
    ((∃ e, dfa.automaton.scan skip text = .error e) ↔
      ∃ front all c rest, text = front ++ c :: rest ∧ lexicon.Tiles 0 front all (c :: rest) ∧
        lexicon.Stuck (c :: rest)) ∧
    (∀ e, dfa.automaton.scan skip text = .error e →
      ∃ front all c rest site, text = front ++ c :: rest ∧
        lexicon.Tiles 0 front all (c :: rest) ∧ lexicon.Stuck (c :: rest) ∧
        e = .noMatch site ∧ site.Locates front c rest) := by
  have hread := readBy_of_buildLexer h
  have hcases := hread.tokensFrom_cases text 0 (Nat.le_refl text.length)
  rw [← Automaton.tokens] at hcases
  simp only [Automaton.scan_eq_map]
  refine ⟨fun ts => ?_, ?_, ?_, fun e hscan => ?_⟩
  · constructor
    · intro hscan
      rcases hcases with ⟨all, htiles, heq⟩ | ⟨front, all, c, rest, -, -, -, heq⟩
      · rw [heq] at hscan
        exact ⟨all, htiles, (Except.ok.inj hscan).symm⟩
      · rw [heq] at hscan
        cases hscan
    · rintro ⟨all, htiles, rfl⟩
      rw [hread.tokens_of_tiles htiles]
      rfl
  · intro all htiles
    refine ⟨by simpa using htiles.adjoin, fun t ht => ?_⟩
    obtain ⟨before, piece, after, htext, hstart, hlength, hm⟩ := htiles.exists_munches ht
    rw [List.append_nil] at htext
    rw [Nat.zero_add] at hstart
    exact ⟨hlength ▸ byteLength_pos hm.nonempty, before, piece, after, htext, hstart, hlength, hm⟩
  · constructor
    · rintro ⟨e, hscan⟩
      rcases hcases with ⟨all, -, heq⟩ | ⟨front, all, c, rest, htext, htiles, hstuck, -⟩
      · rw [heq] at hscan
        cases hscan
      · exact ⟨front, all, c, rest, htext, htiles, hstuck⟩
    · rintro ⟨front, all, c, rest, rfl, htiles, hstuck⟩
      rw [hread.tokens_of_stuck htiles hstuck]
      exact ⟨_, rfl⟩
  · rcases hcases with ⟨all, -, heq⟩ | ⟨front, all, c, rest, htext, htiles, hstuck, heq⟩
    · rw [heq] at hscan
      cases hscan
    · rw [heq, Nat.zero_add] at hscan
      subst htext
      exact ⟨front, all, c, rest, _, rfl, htiles, hstuck, (Except.error.inj hscan).symm,
        NoMatch.locates_at front c rest⟩

/-- The longest match wins over the keyword, and what is in no token stops the scanner. -/
theorem buildLexer_munches_keyword :
    ∃ dfa, (keywordAndNames.buildLexer {}).1 = .ok dfa ∧
      dfa.automaton.scan (fun _ => false) ['i', 'f', 'f'] = .ok [⟨1, 0, 3⟩] ∧
      keywordAndNames.Tiles 0 ['i', 'f', 'f'] [⟨1, 0, 3⟩] [] ∧
      dfa.automaton.scan (fun _ => false) ['i', 'f', 'é'] =
        .error (.noMatch ⟨2, 'é', 0, ['i', 'f', '·']⟩) ∧
      ∃ front all c rest, ['i', 'f', 'é'] = front ++ c :: rest ∧ byteLength front = 2 ∧
        keywordAndNames.Tiles 0 front all (c :: rest) ∧ keywordAndNames.Stuck (c :: rest) := by
  have hbuilt : (keywordAndNames.buildLexer {}).1.toOption.map (fun dfa =>
      (dfa.automaton.scan (fun _ => false) ['i', 'f', 'f'],
        dfa.automaton.scan (fun _ => false) ['i', 'f', 'é'])) =
      some (.ok [⟨1, 0, 3⟩], .error (.noMatch ⟨2, 'é', 0, ['i', 'f', '·']⟩)) := by decide +kernel
  cases hdfa : (keywordAndNames.buildLexer {}).1 with
  | error e => simp [hdfa, Except.toOption] at hbuilt
  | ok dfa =>
    simp only [hdfa, Except.toOption, Option.map_some, Option.some.injEq, Prod.mk.injEq] at hbuilt
    obtain ⟨hok, herror⟩ := hbuilt
    obtain ⟨all, htiles, hall⟩ :=
      ((buildLexer_munches hdfa (fun _ => false) ['i', 'f', 'f']).1 _).1 hok
    obtain rfl : [⟨1, 0, 3⟩] = all := by simpa using hall
    obtain ⟨front, all, c, rest, site, htext, hfirst, hstuck, hsite, hlocates⟩ :=
      (buildLexer_munches hdfa (fun _ => false) ['i', 'f', 'é']).2.2.2 _ herror
    obtain rfl := ScanError.noMatch.inj hsite
    exact ⟨dfa, rfl, hok, htiles, herror, front, all, c, rest, htext, hlocates.position.symm,
      hfirst, hstuck⟩

end Lexicon

end SyntaxTables
