import Mathlib.Data.List.Basic
import Mathlib.Data.List.TakeWhile
import SyntaxTables.Json.Strict
import SyntaxTables.Proofs.Json.Codec

/-!
# Reading what was written

The compact text of a value is read back as that value, provided that the text keeps all of it. The
readers are followed piece by piece, with any text behind the piece. Only a number looks at what
comes next, to see where it ends.
-/

namespace SyntaxTables.Json

/-! ### Bytes -/

/-- A text as the strict reader sees it, with a character for each byte. -/
def byteText (cs : List Char) : List Char := (cs.flatMap String.utf8EncodeChar).map Char.ofUInt8

theorem byteText_nil : byteText [] = [] := rfl

theorem byteText_append (cs ds : List Char) : byteText (cs ++ ds) = byteText cs ++ byteText ds := by
  simp [byteText]

theorem utf8EncodeChar_of_lt {c : Char} (h : c.toNat < 128) :
    String.utf8EncodeChar c = [c.toUInt8] := by
  rw [String.utf8EncodeChar, if_pos (by exact Nat.le_of_lt_succ h)]
  rfl

theorem toNat_ofUInt8 (b : UInt8) : (Char.ofUInt8 b).toNat = b.toNat := UInt8.toNat_toUInt32 b

theorem toNat_toUInt8 {c : Char} (h : c.toNat < 256) : c.toUInt8.toNat = c.toNat := by
  rw [← Char.toUInt8_val, UInt32.toNat_toUInt8]
  exact Nat.mod_eq_of_lt h

theorem ofUInt8_toUInt8 {c : Char} (h : c.toNat < 256) : Char.ofUInt8 c.toUInt8 = c :=
  Char.toNat_inj.1 ((toNat_ofUInt8 _).trans (toNat_toUInt8 h))

theorem toUInt8_ofUInt8 (b : UInt8) : (Char.ofUInt8 b).toUInt8 = b := by
  have hnat := toNat_ofUInt8 b
  exact UInt8.toNat_inj.1 ((toNat_toUInt8 (hnat ▸ b.toNat_lt)).trans hnat)

theorem byteText_cons {c : Char} (h : c.toNat < 128) (cs : List Char) :
    byteText (c :: cs) = c :: byteText cs := by
  simp [byteText, utf8EncodeChar_of_lt h, ofUInt8_toUInt8 (by omega : c.toNat < 256)]

theorem byteText_eq_self {cs : List Char} (h : ∀ c ∈ cs, c.toNat < 128) : byteText cs = cs := by
  induction cs with
  | nil => rfl
  | cons c cs ih =>
    obtain ⟨hc, hcs⟩ := List.forall_mem_cons.1 h
    rw [byteText_cons hc, ih hcs]

/-- A byte of a character beyond the first 128 is itself beyond them. -/
theorem toNat_of_mem_utf8EncodeChar {c : Char} {b : UInt8} (hb : b ∈ String.utf8EncodeChar c) :
    b.toNat = c.toNat ∨ 128 ≤ b.toNat := by
  have hc : c.val.toNat = c.toNat := rfl
  rw [String.utf8EncodeChar] at hb
  simp only [hc] at hb
  split_ifs at hb <;> simp only [List.mem_cons, List.not_mem_nil, or_false] at hb
  · subst hb
    simp
    omega
  all_goals
    rcases hb with rfl | rfl | rfl | rfl <;> simp <;> omega

/-! ### Strings -/

theorem hexValue?_hexDigit : ∀ n < 16, hexValue? (hexDigit n) = some n := by decide

theorem hexUnit?_control {n : Nat} (h : n < 0x20) :
    hexUnit? '0' '0' (hexDigit (n / 16)) (hexDigit (n % 16)) = some n := by
  have hzero : hexValue? '0' = some 0 := rfl
  simp only [hexUnit?, hzero, hexValue?_hexDigit (n / 16) (by omega),
    hexValue?_hexDigit (n % 16) (by omega), Option.bind_eq_bind, Option.bind_some, Option.pure_def,
    Option.some.injEq]
  omega

theorem pieces?_bytes {bs : List UInt8} (h : ∀ b ∈ bs, 0x20 ≤ b.toNat ∧ b ≠ 34 ∧ b ≠ 92)
    (rest : List Char) : pieces? (bs.map Char.ofUInt8 ++ rest) =
      (pieces? rest).map fun p => (bs.map .byte ++ p.1, p.2) := by
  induction bs with
  | nil => cases h : pieces? rest <;> simp [h]
  | cons b bs ih =>
    obtain ⟨⟨hcontrol, hquote, hback⟩, hbs⟩ := List.forall_mem_cons.1 h
    have hne {d : UInt8} (hd : b ≠ d) : Char.ofUInt8 b ≠ Char.ofUInt8 d := fun heq =>
      hd (by rw [← toUInt8_ofUInt8 b, heq, toUInt8_ofUInt8])
    have hplain := pieces?.eq_5 (Char.ofUInt8 b) (bs.map Char.ofUInt8 ++ rest) (hne hquote)
      (fun _ _ _ _ _ heq => absurd heq (hne hback)) (fun _ _ heq => absurd heq (hne hback))
    have hnat := toNat_ofUInt8 b
    rw [List.map_cons, List.cons_append, hplain, if_neg (by omega), ih hbs, toUInt8_ofUInt8]
    cases pieces? rest <;> rfl

theorem joinPieces?_bytes (bs : List UInt8) (more : List Piece) :
    joinPieces? (bs.map .byte ++ more) = (joinPieces? more).map (bs ++ ·) := by
  induction bs with
  | nil => simp
  | cons b bs ih => simp [joinPieces?, ih, Function.comp_def]

theorem joinPieces?_escape {c : Char} (h : c.toNat < 0x20) (more : List Piece) :
    joinPieces? (.escape c.toNat :: more) =
      (joinPieces? more).map (String.utf8EncodeChar c ++ ·) := by
  have hhigh : isHighSurrogate c.toNat = false := by
    simp [isHighSurrogate]
    omega
  have hlow : isLowSurrogate c.toNat = false := by
    simp [isLowSurrogate]
    omega
  rcases more with _ | ⟨_ | _, more⟩ <;> simp [joinPieces?, hhigh, hlow, Char.ofNat_toNat]

/-- A character is written so that its bytes are read, also where it is escaped. -/
theorem exists_pieces (c : Char) : ∃ ps, (∀ rest, pieces? (byteText (writeChar c) ++ rest) =
      (pieces? rest).map fun p => (ps ++ p.1, p.2)) ∧
    ∀ more, joinPieces? (ps ++ more) = (joinPieces? more).map (String.utf8EncodeChar c ++ ·) := by
  unfold writeChar
  split_ifs with hquote hback hb ht hn hf hr hcontrol
  case pos | pos | pos | pos | pos | pos | pos =>
    subst c
    refine ⟨_, fun rest => ?_, joinPieces?_bytes _⟩
    cases h : pieces? rest <;>
      simp [byteText_cons, byteText_nil, utf8EncodeChar_of_lt, pieces?, shortEscape?, h]
  case pos =>
    refine ⟨[.escape c.toNat], fun rest => ?_, joinPieces?_escape hcontrol⟩
    have hdigit : ∀ n < 16, (hexDigit n).toNat < 128 := by decide
    rw [byteText_eq_self (by simp [hdigit, (by omega : c.toNat / 16 < 16), Nat.mod_lt])]
    cases h : pieces? rest <;> simp [pieces?, hexUnit?_control hcontrol, h]
  -- what is not escaped is none of the characters that the reader looks out for
  case neg =>
    refine ⟨(String.utf8EncodeChar c).map .byte, fun rest => ?_, joinPieces?_bytes _⟩
    have hbytes : byteText [c] = (String.utf8EncodeChar c).map Char.ofUInt8 := by simp [byteText]
    rw [hbytes]
    refine pieces?_bytes (fun b hb => ?_) rest
    have hne {d : Char} (hd : c ≠ d) : c.toNat ≠ d.toNat := fun heq => hd (Char.toNat_inj.1 heq)
    have hquote' := hne hquote
    have hback' := hne hback
    rcases toNat_of_mem_utf8EncodeChar hb with heq | hle
    · refine ⟨by omega, ?_, ?_⟩ <;> rintro rfl
      · exact hquote' heq.symm
      · exact hback' heq.symm
    · refine ⟨by omega, ?_, ?_⟩ <;> rintro rfl <;> simp at hle

theorem exists_pieces_flatMap (cs : List Char) : ∃ ps,
    (∀ rest, pieces? (byteText (cs.flatMap writeChar) ++ '"' :: rest) = some (ps, rest)) ∧
      joinPieces? ps = some (cs.flatMap String.utf8EncodeChar) := by
  induction cs with
  | nil => exact ⟨[], fun rest => by simp [byteText_nil, pieces?], rfl⟩
  | cons c cs ih =>
    obtain ⟨ps, hpieces, hjoin⟩ := exists_pieces c
    obtain ⟨qs, hrest, hrestJoin⟩ := ih
    refine ⟨ps ++ qs, fun rest => ?_, ?_⟩
    · rw [List.flatMap_cons, byteText_append, List.append_assoc, hpieces, hrest, Option.map_some]
    · rw [hjoin, hrestJoin, Option.map_some, List.flatMap_cons]

theorem byteText_writeString (s : String) : byteText (writeString s) =
    '"' :: (byteText (s.toList.flatMap writeChar) ++ ['"']) := by
  simp [writeString, byteText_append, byteText_cons, byteText_nil]

theorem fromUTF8?_flatMap (s : String) :
    String.fromUTF8? (s.toList.flatMap String.utf8EncodeChar).toByteArray = some s := by
  have hbytes : (s.toList.flatMap String.utf8EncodeChar).toByteArray = s.toByteArray := by
    rw [← String.utf8Encode_toList, List.utf8Encode]
  rw [hbytes, String.fromUTF8?, dif_pos s.isValidUTF8]
  rfl

theorem string?_writeString (s : String) (rest : List Char) :
    string? (byteText (s.toList.flatMap writeChar) ++ '"' :: rest) = some (some s, rest) := by
  obtain ⟨ps, hpieces, hjoin⟩ := exists_pieces_flatMap s.toList
  simp [string?, hpieces, hjoin, fromUTF8?_flatMap]

/-! ### Numbers -/

/-- A text before which a number ends. -/
def EndsNumber (rest : List Char) : Prop :=
  ∀ c ∈ rest.head?, c.isDigit = false ∧ c ≠ '.' ∧ c ≠ 'e' ∧ c ≠ 'E'

theorem endsNumber_nil : EndsNumber [] := by simp [EndsNumber]

theorem endsNumber_cons {c : Char} (h : c = ',' ∨ c = ']' ∨ c = '}') (rest : List Char) :
    EndsNumber (c :: rest) := by
  rcases h with rfl | rfl | rfl <;> simp [EndsNumber]

/-- Only zero is written with a zero in front. -/
theorem head?_toDigits {n : Nat} (h : (Nat.toDigits 10 n).head? = some '0') : n = 0 := by
  induction n using Nat.strongRecOn with
  | ind n ih =>
    by_cases hn : n < 10
    · rw [Nat.toDigits_of_lt_base hn] at h
      have hdigit : ∀ d < 10, d.digitChar = '0' → d = 0 := by decide
      exact hdigit n hn (by simpa using h)
    · rw [Nat.toDigits_of_base_le (by omega) (by omega),
        List.head?_append_of_ne_nil _ Nat.toDigits_ne_nil] at h
      have := ih (n / 10) (by omega) h
      omega

theorem digits?_append {ds rest : List Char} (hds : ds ≠ []) (hdigits : ∀ d ∈ ds, d.isDigit)
    (hrest : EndsNumber rest) : digits? (ds ++ rest) = some (ds, rest) := by
  have htake : rest.takeWhile Char.isDigit = [] := by
    cases rest with
    | nil => rfl
    | cons c rest => simp [(hrest c rfl).1]
  have hdrop : rest.dropWhile Char.isDigit = rest := by
    cases rest with
    | nil => rfl
    | cons c rest => simp [(hrest c rfl).1]
  rw [digits?, List.takeWhile_append_of_pos hdigits, List.dropWhile_append_of_pos hdigits, htake,
    hdrop, List.append_nil]
  cases ds with
  | nil => exact absurd rfl hds
  | cons d ds => rfl

theorem integer?_toDigits (n : Nat) {rest : List Char} (hrest : EndsNumber rest) :
    integer? (Nat.toDigits 10 n ++ rest) = some (Nat.toDigits 10 n, rest) := by
  by_cases hn : n = 0
  · subst hn
    have hnone : rest.head?.any Char.isDigit = false := by
      cases rest with
      | nil => rfl
      | cons c rest => exact (hrest c rfl).1
    have hzero : Nat.toDigits 10 0 = ['0'] := rfl
    simp [integer?, hzero, hnone]
  · have hfront : ∀ cs, Nat.toDigits 10 n ++ rest ≠ '0' :: cs := by
      intro cs h
      apply hn (head?_toDigits _)
      rw [← List.head?_append_of_ne_nil _ Nat.toDigits_ne_nil, h]
      rfl
    rw [integer?.eq_2 _ hfront]
    exact digits?_append Nat.toDigits_ne_nil
      (fun d hd => Nat.isDigit_of_mem_toDigits (by omega) (by omega) hd) hrest

theorem unsigned?_toDigits (n : Nat) {rest : List Char} (hrest : EndsNumber rest) :
    unsigned? (Nat.toDigits 10 n ++ rest) = some (.natural n, rest) := by
  have hfraction : fraction? rest = some ([], rest) := by
    cases rest with
    | nil => rfl
    | cons c rest => exact fraction?.eq_2 _ (by simpa using (hrest c rfl).2.1)
  have hexponent : exponent? rest = some ([], rest) := by
    cases rest with
    | nil => rfl
    | cons c rest => simp [exponent?, hrest c rfl]
  have hvalue : ofDigits (Nat.toDigits 10 n) = n := Nat.ofDigitChars_toDigits (by omega) (by omega)
  simp [unsigned?, integer?_toDigits n hrest, hfraction, hexponent, hvalue]

/-! ### Values -/

theorem skipSpace_cons {c : Char} (h : isSpace c = false) (cs : List Char) :
    skipSpace (c :: cs) = c :: cs := by
  simp [skipSpace, h]

theorem not_isSpace_of_isDigit {d : Char} (h : d.isDigit) : isSpace d = false := by
  cases hs : isSpace d with
  | false => rfl
  | true =>
    simp only [isSpace, Bool.or_eq_true, decide_eq_true_eq] at hs
    rcases hs with ((rfl | rfl) | rfl) | rfl <;> simp at h

theorem exists_toDigits_eq_cons (n : Nat) :
    ∃ d ds, Nat.toDigits 10 n = d :: ds ∧ d.isDigit := by
  obtain ⟨d, ds, hds⟩ := List.exists_cons_of_ne_nil (Nat.toDigits_ne_nil (b := 10) (n := n))
  exact ⟨d, ds, hds, Nat.isDigit_of_mem_toDigits (by omega) (by omega) (hds ▸ List.mem_cons_self)⟩

theorem byteText_toDigits (n : Nat) : byteText (Nat.toDigits 10 n) = Nat.toDigits 10 n := by
  refine byteText_eq_self fun d hd => ?_
  have hdigit := Nat.isDigit_of_mem_toDigits (by omega) (by omega) hd
  have hle : d.toNat ≤ 57 := (Char.isDigit_iff_toNat.1 hdigit).2
  omega

/-- No blank and no closing bracket stands in front of a value. -/
theorem Plain.exists_front {depth : Nat} {j : Json} (h : j.Plain depth) :
    ∃ c cs, byteText j.write = c :: cs ∧ isSpace c = false ∧ c ≠ ']' := by
  cases h with
  | null => exact ⟨_, _, by rw [write, byteText_cons (by decide)], by decide⟩
  | bool value =>
    cases value <;> exact ⟨_, _, by rw [write, byteText_cons (by decide)], by decide⟩
  | @word _ n =>
    obtain ⟨d, ds, hds, hd⟩ := exists_toDigits_eq_cons n
    refine ⟨d, ds, by rw [write, byteText_toDigits, hds], not_isSpace_of_isDigit hd, ?_⟩
    rintro rfl
    simp at hd
  | ofString s =>
    exact ⟨'"', _, by rw [Json.ofString, write, byteText_writeString], by decide⟩
  | array h => exact ⟨_, _, by rw [write, byteText_cons (by decide)], by decide⟩
  | record h => exact ⟨_, _, by rw [Json.record, write, byteText_cons (by decide)], by decide⟩

/-- A value is read back from its text, whatever stands behind it. -/
def ReadsBack (j : Json) : Prop :=
  ∀ steps rest, 2 * (byteText j.write).length ≤ steps → EndsNumber rest →
    value? steps (byteText j.write ++ rest) = some (j, rest)

theorem readsBack_of_succ {j : Json} (hne : byteText j.write ≠ [])
    (h : ∀ steps rest, EndsNumber rest →
      value? (steps + 1) (byteText j.write ++ rest) = some (j, rest)) : ReadsBack j := by
  intro steps rest hsteps hrest
  have hlength := List.length_pos_of_ne_nil hne
  obtain ⟨steps, rfl⟩ := Nat.exists_eq_add_one.2 (by omega : 0 < steps)
  exact h steps rest hrest

theorem readsBack_null : ReadsBack .null := by
  apply readsBack_of_succ (by simp [write, byteText_cons])
  intro steps rest _
  simp [write, byteText_cons, byteText_nil, value?, skipSpace_cons, isSpace]

theorem readsBack_bool (value : Bool) : ReadsBack (.bool value) := by
  apply readsBack_of_succ (by cases value <;> simp [write, byteText_cons])
  intro steps rest _
  cases value <;>
    simp [write, byteText_cons, byteText_nil, value?, skipSpace_cons, isSpace]

theorem readsBack_natural (n : Nat) : ReadsBack (.natural n) := by
  have hwrite : byteText (natural n).write = Nat.toDigits 10 n := by rw [write, byteText_toDigits]
  apply readsBack_of_succ (by rw [hwrite]; exact Nat.toDigits_ne_nil)
  intro steps rest hrest
  have hunsigned := unsigned?_toDigits n hrest
  obtain ⟨d, ds, hds, hd⟩ := exists_toDigits_eq_cons n
  rw [hds, List.cons_append] at hunsigned
  rw [hwrite, hds, List.cons_append, value?, skipSpace_cons (not_isSpace_of_isDigit hd)]
  split
  case h_7 =>
    rw [number?.eq_2, hunsigned]
    rintro _ ⟨⟩
    simp at hd
  -- the other cases begin with something else than a digit
  all_goals
    rename_i heq
    obtain ⟨rfl, -⟩ := List.cons.inj heq
    simp at hd

theorem readsBack_ofString (s : String) : ReadsBack (ofString s) := by
  have hwrite : byteText (ofString s).write =
      '"' :: (byteText (s.toList.flatMap writeChar) ++ ['"']) := by
    rw [ofString, write, Option.getD_some, byteText_writeString]
  apply readsBack_of_succ (by simp [hwrite])
  intro steps rest _
  rw [hwrite, List.cons_append, List.append_assoc, value?, skipSpace_cons (by decide)]
  simp [string?_writeString, ofString]

theorem byteText_writeItems_cons (v w : Json) (vs : List Json) :
    byteText (writeItems (v :: w :: vs)) =
      byteText v.write ++ ',' :: byteText (writeItems (w :: vs)) := by
  rw [writeItems, byteText_append, byteText_cons (by decide)]

theorem byteText_writeItems_singleton (v : Json) :
    byteText (writeItems [v]) = byteText v.write ++ [']'] := by
  rw [writeItems, byteText_append, byteText_cons (by decide), byteText_nil]

theorem items?_writeItems {v : Json} {vs : List Json} (h : ∀ j ∈ v :: vs, ReadsBack j)
    {steps : Nat} (hsteps : 2 * (byteText (writeItems (v :: vs))).length ≤ steps)
    (rest : List Char) :
    items? steps (byteText (writeItems (v :: vs)) ++ rest) = some (v :: vs, rest) := by
  -- one step is taken here, and the comma pays for it, so the rest can be read with those left
  induction vs generalizing v steps with
  | nil =>
    rw [byteText_writeItems_singleton] at hsteps ⊢
    simp only [List.length_append, List.length_cons] at hsteps
    obtain ⟨steps, rfl⟩ := Nat.exists_eq_add_one.2 (by omega : 0 < steps)
    have hv := h v List.mem_cons_self steps (']' :: rest) (by omega) (endsNumber_cons (by simp) _)
    simp [items?, hv, skipSpace_cons, isSpace]
  | cons w vs ih =>
    rw [byteText_writeItems_cons] at hsteps ⊢
    simp only [List.length_append, List.length_cons] at hsteps
    obtain ⟨steps, rfl⟩ := Nat.exists_eq_add_one.2 (by omega : 0 < steps)
    have hv := h v List.mem_cons_self steps (',' :: (byteText (writeItems (w :: vs)) ++ rest))
      (by omega) (endsNumber_cons (by simp) _)
    have hvs := ih (fun j hj => h j (List.mem_cons_of_mem _ hj)) (by omega : _ ≤ steps)
    simp [items?, hv, hvs, skipSpace_cons, isSpace]

theorem exists_front_writeItems {depth : Nat} {v : Json} (h : v.Plain depth) (vs : List Json) :
    ∃ c cs, byteText (writeItems (v :: vs)) = c :: cs ∧ isSpace c = false ∧ c ≠ ']' := by
  obtain ⟨c, cs, hwrite, hc⟩ := h.exists_front
  cases vs with
  | nil => exact ⟨c, _, by rw [byteText_writeItems_singleton, hwrite]; rfl, hc⟩
  | cons w vs => exact ⟨c, _, by rw [byteText_writeItems_cons, hwrite]; rfl, hc⟩

theorem readsBack_array {depth : Nat} {items : List Json} (hplain : ∀ j ∈ items, j.Plain depth)
    (h : ∀ j ∈ items, ReadsBack j) : ReadsBack (.array items) := by
  intro steps rest hsteps _
  rw [write, byteText_cons (by decide)] at hsteps ⊢
  rw [List.length_cons] at hsteps
  obtain ⟨steps, rfl⟩ := Nat.exists_eq_add_one.2 (by omega : 0 < steps)
  rw [List.cons_append, value?, skipSpace_cons (by decide)]
  cases items with
  | nil => simp [writeItems, byteText_cons, byteText_nil, skipSpace_cons, isSpace]
  | cons v vs =>
    have hread := items?_writeItems h (by omega : _ ≤ steps) rest
    obtain ⟨c, cs, hfront, hspace, hc⟩ := exists_front_writeItems (hplain v List.mem_cons_self) vs
    rw [hfront, List.cons_append] at hread ⊢
    simp [skipSpace_cons hspace, hc, hread]

def named (members : List (String × Json)) : List (Option String × Json) :=
  members.map fun m => (some m.1, m.2)

theorem record_eq (members : List (String × Json)) : record members = .object (named members) := rfl

theorem named_cons (m : String × Json) (ms : List (String × Json)) :
    named (m :: ms) = (some m.1, m.2) :: named ms := rfl

theorem byteText_writeMembers_cons (m n : String × Json) (ms : List (String × Json)) :
    byteText (writeMembers (named (m :: n :: ms))) =
      '"' :: (byteText (m.1.toList.flatMap writeChar) ++
        '"' :: ':' :: (byteText m.2.write ++
          ',' :: byteText (writeMembers (named (n :: ms))))) := by
  simp [named_cons, writeMembers, byteText_append, byteText_cons, byteText_writeString]

theorem byteText_writeMembers_singleton (m : String × Json) :
    byteText (writeMembers (named [m])) =
      '"' :: (byteText (m.1.toList.flatMap writeChar) ++
        '"' :: ':' :: (byteText m.2.write ++ ['}'])) := by
  simp [named, writeMembers, byteText_append, byteText_cons, byteText_nil, byteText_writeString]

theorem members?_writeMembers {m : String × Json} {ms : List (String × Json)}
    (h : ∀ n ∈ m :: ms, ReadsBack n.2) {steps : Nat}
    (hsteps : 2 * (byteText (writeMembers (named (m :: ms)))).length ≤ steps) (rest : List Char) :
    members? steps (byteText (writeMembers (named (m :: ms))) ++ rest) =
      some (named (m :: ms), rest) := by
  induction ms generalizing m steps with
  | nil =>
    rw [byteText_writeMembers_singleton] at hsteps ⊢
    simp only [List.length_append, List.length_cons] at hsteps
    obtain ⟨steps, rfl⟩ := Nat.exists_eq_add_one.2 (by omega : 0 < steps)
    have hm := h m List.mem_cons_self steps ('}' :: rest) (by omega) (endsNumber_cons (by simp) _)
    simp [named, members?, string?_writeString, hm, skipSpace_cons, isSpace]
  | cons n ms ih =>
    rw [byteText_writeMembers_cons] at hsteps ⊢
    simp only [List.length_append, List.length_cons] at hsteps
    obtain ⟨steps, rfl⟩ := Nat.exists_eq_add_one.2 (by omega : 0 < steps)
    have hm := h m List.mem_cons_self steps
      (',' :: (byteText (writeMembers (named (n :: ms))) ++ rest)) (by omega)
      (endsNumber_cons (by simp) _)
    have hms := ih (fun l hl => h l (List.mem_cons_of_mem _ hl)) (by omega : _ ≤ steps)
    rw [named_cons m (n :: ms)]
    simp [members?, string?_writeString, hm, hms, skipSpace_cons, isSpace]

theorem exists_front_writeMembers (m : String × Json) (ms : List (String × Json)) :
    ∃ cs, byteText (writeMembers (named (m :: ms))) = '"' :: cs := by
  cases ms with
  | nil => exact ⟨_, byteText_writeMembers_singleton m⟩
  | cons n ms => exact ⟨_, byteText_writeMembers_cons m n ms⟩

theorem readsBack_record {members : List (String × Json)} (h : ∀ m ∈ members, ReadsBack m.2) :
    ReadsBack (record members) := by
  intro steps rest hsteps _
  rw [record_eq, write, byteText_cons (by decide)] at hsteps ⊢
  rw [List.length_cons] at hsteps
  obtain ⟨steps, rfl⟩ := Nat.exists_eq_add_one.2 (by omega : 0 < steps)
  rw [List.cons_append, value?, skipSpace_cons (by decide)]
  cases members with
  | nil => simp [named, writeMembers, byteText_cons, byteText_nil, skipSpace_cons, isSpace]
  | cons m ms =>
    have hread := members?_writeMembers h (by omega : _ ≤ steps) rest
    obtain ⟨cs, hfront⟩ := exists_front_writeMembers m ms
    rw [hfront, List.cons_append] at hread ⊢
    simp [skipSpace_cons, isSpace, hread]

theorem Plain.readsBack {depth : Nat} {j : Json} (h : j.Plain depth) : ReadsBack j := by
  induction h with
  | null => exact readsBack_null
  | bool value => exact readsBack_bool value
  | word _ => exact readsBack_natural _
  | ofString s => exact readsBack_ofString s
  | array hitems ih => exact readsBack_array hitems ih
  | record _ ih => exact readsBack_record ih

/-- The bytes of the compact text of a value are read as that value, however deep it is. -/
theorem read?_toBytes {depth : Nat} {j : Json} (h : j.Plain depth) : read? j.toBytes = some j := by
  have hread := h.readsBack (2 * j.toBytes.length + 2) []
    (by simp only [byteText, toBytes, List.length_map]; omega) endsNumber_nil
  rw [List.append_nil, byteText, ← toBytes] at hread
  rw [read?, hread]
  rfl

end SyntaxTables.Json
