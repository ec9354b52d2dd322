import Mathlib.Data.Nat.Digits.Defs
import Mathlib.Tactic.Common
import SyntaxTables.LexerTable.Binary

/-!
# Values of a fixed width

What is written for a value of a fixed width has that many bytes, and a reader for it gives the
value back in front of whatever follows. It reads nothing else, and it misses bytes only where there
are fewer than it needs. Numbers of 16 and 32 bits are such values, and so are values behind one
another and a fixed number of items.
-/

namespace SyntaxTables.Bytes

/-- Exactly what is written for a fitting value is read as this value. -/
structure Fixed {α : Type} (read : Reader α) (write : α → List UInt8) (width : Nat)
    (Fits : α → Prop) : Prop where
  length_write : ∀ {x}, Fits x → (write x).length = width
  read_eq_ok_iff : ∀ {bytes x rest}, read bytes = .ok (x, rest) ↔ Fits x ∧ bytes = write x ++ rest
  exists_read : ∀ {bytes : List UInt8}, width ≤ bytes.length → ∃ x rest, read bytes = .ok (x, rest)

/-! ### Numbers -/

theorem ofNat_congr {m n : Nat} (h : m % 0x100 = n % 0x100) : UInt8.ofNat m = UInt8.ofNat n := by
  apply UInt8.toNat_inj.1
  rw [UInt8.toNat_ofNat', UInt8.toNat_ofNat']
  exact h

theorem ofHalf_congr {m n : Nat} (h : m % 0x10000 = n % 0x10000) : ofHalf m = ofHalf n := by
  rw [ofHalf, ofHalf, ofNat_congr (m := m) (n := n) (by omega),
    ofNat_congr (m := m / 256) (n := n / 256) (by omega)]

/-- What goes beyond a word is not written. -/
theorem ofWord_mod (n : Nat) : ofWord (n % wordLimit) = ofWord n := by
  unfold wordLimit
  rw [ofWord, ofWord, ofHalf_congr (m := n % 0x100000000) (n := n) (by omega),
    ofHalf_congr (m := n % 0x100000000 / 65536) (n := n / 65536) (by omega)]

theorem toNat_lt (a b : UInt8) : a.toNat + 256 * b.toNat < 0x10000 := by
  have ha := a.toNat_lt
  have hb := b.toNat_lt
  omega

theorem ofHalf_toNat (a b : UInt8) : ofHalf (a.toNat + 256 * b.toNat) = [a, b] := by
  have ha := a.toNat_lt
  have hlow : UInt8.ofNat (a.toNat + 256 * b.toNat) = a := by
    rw [← UInt8.ofNat_toNat (x := a)]
    exact ofNat_congr (by simp)
  have hhigh : (a.toNat + 256 * b.toNat) / 256 = b.toNat := by omega
  rw [ofHalf, hlow, hhigh, UInt8.ofNat_toNat]

theorem ofWord_toNat (a b c d : UInt8) :
    ofWord (a.toNat + 256 * b.toNat + 65536 * (c.toNat + 256 * d.toNat)) = [a, b, c, d] := by
  have hlow := toNat_lt a b
  have hhigh : (a.toNat + 256 * b.toNat + 65536 * (c.toNat + 256 * d.toNat)) / 65536 =
      c.toNat + 256 * d.toNat := by omega
  rw [ofWord, hhigh, ofHalf_congr (n := a.toNat + 256 * b.toNat) (by omega), ofHalf_toNat,
    ofHalf_toNat]
  rfl

theorem half_ofHalf {n : Nat} (hn : n < 0x10000) (rest : List UInt8) :
    half (ofHalf n ++ rest) = .ok (n, rest) := by
  have hbytes : (UInt8.ofNat n).toNat + 256 * (UInt8.ofNat (n / 256)).toNat = n := by
    rw [UInt8.toNat_ofNat', UInt8.toNat_ofNat']
    omega
  exact congrArg (fun m => Except.ok (m, rest)) hbytes

theorem word_ofWord {n : Nat} (hn : n < wordLimit) (rest : List UInt8) :
    word (ofWord n ++ rest) = .ok (n, rest) := by
  have hbytes : (UInt8.ofNat n).toNat + 256 * (UInt8.ofNat (n / 256)).toNat + 65536 *
      ((UInt8.ofNat (n / 65536)).toNat + 256 * (UInt8.ofNat (n / 65536 / 256)).toNat) = n := by
    unfold wordLimit at hn
    simp only [UInt8.toNat_ofNat']
    omega
  exact congrArg (fun m => Except.ok (m, rest)) hbytes

theorem fixed_half : Fixed half ofHalf 2 (· < 0x10000) where
  length_write := fun _ => rfl
  read_eq_ok_iff := by
    intro bytes n rest
    constructor
    · intro h
      rcases bytes with _ | ⟨a, _ | ⟨b, bytes⟩⟩
      · cases h
      · cases h
      · obtain ⟨rfl, rfl⟩ := Prod.mk.inj (Except.ok.inj h)
        rw [ofHalf_toNat]
        exact ⟨toNat_lt a b, rfl⟩
    · rintro ⟨hn, rfl⟩
      exact half_ofHalf hn rest
  exists_read := by
    intro bytes h
    rcases bytes with _ | ⟨a, _ | ⟨b, rest⟩⟩
    · simp at h
    · simp at h
    · exact ⟨_, rest, rfl⟩

theorem word_cases (bytes : List UInt8) : (∃ a b c d rest, bytes = a :: b :: c :: d :: rest) ∨
    bytes.length < 4 ∧ word bytes = .error .word := by
  rcases bytes with _ | ⟨a, _ | ⟨b, _ | ⟨c, _ | ⟨d, rest⟩⟩⟩⟩
  · exact Or.inr ⟨by simp, rfl⟩
  · exact Or.inr ⟨by simp, rfl⟩
  · exact Or.inr ⟨by simp, rfl⟩
  · exact Or.inr ⟨by simp, rfl⟩
  · exact Or.inl ⟨a, b, c, d, rest, rfl⟩

theorem fixed_word : Fixed word ofWord 4 (· < wordLimit) where
  length_write := fun _ => rfl
  read_eq_ok_iff := by
    intro bytes n rest
    constructor
    · intro h
      rcases word_cases bytes with ⟨a, b, c, d, bytes, rfl⟩ | ⟨-, herror⟩
      · obtain ⟨rfl, rfl⟩ := Prod.mk.inj (Except.ok.inj h)
        have hlow := toNat_lt a b
        have hhigh := toNat_lt c d
        rw [ofWord_toNat]
        refine ⟨?_, rfl⟩
        unfold wordLimit
        omega
      · rw [herror] at h
        cases h
    · rintro ⟨hn, rfl⟩
      exact word_ofWord hn rest
  exists_read := by
    intro bytes h
    rcases word_cases bytes with ⟨a, b, c, d, rest, rfl⟩ | ⟨hlt, -⟩
    · exact ⟨_, rest, rfl⟩
    · exact absurd h (Nat.not_le.2 hlt)

/-! ### Several values -/

section Several

variable {α β : Type} {first : Reader α} {second : Reader β} {write : α → List UInt8}
  {write' : β → List UInt8} {width width' : Nat} {Fits : α → Prop} {Fits' : β → Prop}

theorem both_eq_ok_iff {bytes rest : List UInt8} {p : α × β} :
    both first second bytes = .ok (p, rest) ↔
      ∃ middle, first bytes = .ok (p.1, middle) ∧ second middle = .ok (p.2, rest) := by
  unfold both
  constructor
  · intro h
    cases hx : first bytes with
    | error e => simp [hx, bind, Except.bind] at h
    | ok x =>
      cases hy : second x.2 with
      | error e => simp [hx, hy, bind, Except.bind] at h
      | ok y =>
        simp only [hx, hy, bind, Except.bind, pure, Except.pure, Except.ok.injEq,
          Prod.mk.injEq] at h
        obtain ⟨rfl, rfl⟩ := h
        exact ⟨x.2, rfl, hy⟩
  · rintro ⟨middle, hx, hy⟩
    simp [hx, hy, bind, Except.bind, pure, Except.pure]

theorem fixed_both (h : Fixed first write width Fits) (h' : Fixed second write' width' Fits') :
    Fixed (both first second) (fun p => write p.1 ++ write' p.2) (width + width')
      (fun p => Fits p.1 ∧ Fits' p.2) where
  length_write := by
    rintro p ⟨hx, hy⟩
    rw [List.length_append, h.length_write hx, h'.length_write hy]
  read_eq_ok_iff := by
    intro bytes p rest
    simp only [both_eq_ok_iff, h.read_eq_ok_iff, h'.read_eq_ok_iff]
    constructor
    · rintro ⟨middle, ⟨hx, rfl⟩, hy, rfl⟩
      exact ⟨⟨hx, hy⟩, (List.append_assoc _ _ _).symm⟩
    · rintro ⟨⟨hx, hy⟩, rfl⟩
      exact ⟨_, ⟨hx, List.append_assoc _ _ _⟩, hy, rfl⟩
  exists_read := by
    intro bytes hle
    obtain ⟨x, middle, hx⟩ := h.exists_read (Nat.le_trans (Nat.le_add_right _ _) hle)
    obtain ⟨hfits, rfl⟩ := h.read_eq_ok_iff.1 hx
    have hmiddle : width' ≤ middle.length := by
      rw [List.length_append, h.length_write hfits] at hle
      exact Nat.le_of_add_le_add_left hle
    obtain ⟨y, rest, hy⟩ := h'.exists_read hmiddle
    exact ⟨(x, y), rest, both_eq_ok_iff.2 ⟨middle, hx, hy⟩⟩

theorem times_succ_eq_ok_iff {n : Nat} {bytes rest : List UInt8} {xs : List α} :
    times first (n + 1) bytes = .ok (xs, rest) ↔
      ∃ x ys, both first (times first n) bytes = .ok ((x, ys), rest) ∧ xs = x :: ys := by
  rw [times, both]
  cases hx : first bytes with
  | error e => simp [bind, Except.bind]
  | ok x =>
    cases hys : times first n x.2 with
    | error e => simp [hys, bind, Except.bind]
    | ok ys =>
      simp only [hys, bind, Except.bind, pure, Except.pure, Except.ok.injEq, Prod.mk.injEq]
      constructor
      · rintro ⟨rfl, rfl⟩
        exact ⟨_, _, ⟨⟨rfl, rfl⟩, rfl⟩, rfl⟩
      · rintro ⟨_, _, ⟨⟨rfl, rfl⟩, rfl⟩, rfl⟩
        exact ⟨rfl, rfl⟩

/-- A fixed number of items of one width has a fixed width. -/
theorem fixed_times (h : Fixed first write width Fits) (n : Nat) :
    Fixed (times first n) (List.flatMap write) (n * width)
      (fun xs => xs.length = n ∧ ∀ x ∈ xs, Fits x) := by
  induction n with
  | zero =>
    constructor
    · rintro xs ⟨hxs, -⟩
      simp [List.length_eq_zero_iff.1 hxs]
    · intro bytes xs rest
      rw [times, Except.ok.injEq, Prod.mk.injEq]
      constructor
      · rintro ⟨rfl, rfl⟩
        simp
      · rintro ⟨⟨hxs, -⟩, rfl⟩
        simp [List.length_eq_zero_iff.1 hxs]
    · intro bytes _
      exact ⟨[], bytes, rfl⟩
  | succ n ih =>
    have hboth := fixed_both h ih
    have hwidth : width + n * width = (n + 1) * width := by rw [Nat.succ_mul, Nat.add_comm]
    constructor
    · rintro xs ⟨hlength, hxs⟩
      obtain ⟨x, ys, rfl⟩ := List.exists_cons_of_length_eq_add_one hlength
      obtain ⟨hx, hys⟩ := List.forall_mem_cons.1 hxs
      rw [← hwidth, ← hboth.length_write (x := (x, ys)) ⟨hx, Nat.succ.inj hlength, hys⟩]
      rfl
    · intro bytes xs rest
      simp only [times_succ_eq_ok_iff, hboth.read_eq_ok_iff]
      constructor
      · rintro ⟨x, ys, ⟨⟨hx, hlength, hys⟩, rfl⟩, rfl⟩
        exact ⟨⟨by simp [hlength], List.forall_mem_cons.2 ⟨hx, hys⟩⟩, rfl⟩
      · rintro ⟨⟨hlength, hxs⟩, rfl⟩
        obtain ⟨x, ys, rfl⟩ := List.exists_cons_of_length_eq_add_one hlength
        obtain ⟨hx, hys⟩ := List.forall_mem_cons.1 hxs
        exact ⟨x, ys, ⟨⟨hx, Nat.succ.inj hlength, hys⟩, rfl⟩, rfl⟩
    · intro bytes hle
      obtain ⟨⟨x, ys⟩, rest, hread⟩ := hboth.exists_read (hwidth ▸ hle)
      exact ⟨x :: ys, rest, times_succ_eq_ok_iff.2 ⟨x, ys, hread, rfl⟩⟩

theorem fixed_pair : Fixed pair (fun p => ofWord p.1 ++ ofWord p.2) 8
    (fun p => p.1 < wordLimit ∧ p.2 < wordLimit) :=
  fixed_both fixed_word fixed_word

end Several

/-! ### Words at a place -/

/-- The 32-bit number at a place, low byte first. -/
def wordAt (bytes : List UInt8) (place : Nat) : Nat :=
  Nat.ofDigits 256 (((bytes.drop place).take 4).map UInt8.toNat)

theorem wordAt_append (front : List UInt8) {n place : Nat} (hn : n < wordLimit)
    (hplace : front.length = place) (rest : List UInt8) :
    wordAt (front ++ (ofWord n ++ rest)) place = n := by
  subst hplace
  have htake : (ofWord n ++ rest).take 4 = ofWord n := rfl
  unfold wordLimit at hn
  rw [wordAt, List.drop_left, htake]
  simp only [ofWord, ofHalf, List.cons_append, List.nil_append, List.map_cons, List.map_nil,
    Nat.ofDigits_cons, Nat.ofDigits_nil, UInt8.toNat_ofNat']
  omega

end SyntaxTables.Bytes
