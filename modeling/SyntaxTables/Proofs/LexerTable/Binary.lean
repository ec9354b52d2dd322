import SyntaxTables.Proofs.LexerTable.Layout

/-!
# Round trips of the binary form

A target is stored in 16 bits, of which the largest number stands for a missing target. The writer
refuses a target that does not fit, but not the one target that fits and is read back as a missing
one, so a table is changed without notice exactly if it has this target. In the other direction,
the bytes of a table are written again as they were read.
-/

namespace SyntaxTables

namespace LexerTable

open Bytes

variable {t : LexerTable}

/-! ### Written tables -/

/-- A table is refused, with the reason, if it has too many states or a target that is too large.
Otherwise what is written is read as a table without names, in which a target that is stored like
a missing one is missing. It is the same table if there is no such target, and if the number of
accepting states is a word. -/
theorem ofBytes_toBytes (ht : t.OfWords) (hnext : t.next.size = t.stateCount * t.symbolCount)
    (halphabet : t.alphabet.size = t.symbolCount) :
    (∀ e, t.toBytes = .error e ↔
      (noStateHalf ≤ t.stateCount ∧ e = .tooManyStates t.stateCount) ∨
        (t.stateCount < noStateHalf ∧ (∃ n ∈ t.next, noStateHalf < n ∧ n ≠ noState) ∧
          e = .targetTooLarge)) ∧
    ∀ bytes, t.toBytes = .ok bytes → ∃ restored, ofBytes bytes = .ok restored ∧
      restored.next = t.next.map unpackTarget ∧
      (restored = { t with tokenNames := [] } ↔
        noStateHalf ∉ t.next ∧ t.accept.size < wordLimit) := by
  simp only [← not_storable_iff]
  refine ⟨fun e => toBytes_eq_error_iff, ?_⟩
  intro bytes hbytes
  have hcount : t.stateCount < noStateHalf := by
    by_contra hge
    rw [toBytes_of_tooManyStates (Nat.not_lt.1 hge)] at hbytes
    cases hbytes
  have hstorable : ∀ n ∈ t.next, Storable n := by
    by_contra hlarge
    simp only [not_forall, exists_prop] at hlarge
    rw [toBytes_of_targetTooLarge hcount hlarge] at hbytes
    cases hbytes
  rw [toBytes_of_storable hcount hstorable, Except.ok.injEq] at hbytes
  subst hbytes
  have hfits := fits_layout ht hnext halphabet hcount hstorable
  exact ⟨_, hfits.ofBytes t.unread, next_table_layout t, table_layout_eq_iff t⟩

/-- Words of the letter a, with a missing target and the largest one that is stored as it is. -/
def letters : LexerTable where
  alphabet := ⟨#[.ofChar 'a']⟩
  stateCount := 2
  symbolCount := 1
  start := 0
  next := #[0xFFFE, noState]
  accept := .ofList [(1, 0)]
  tokenNames := ["letter"]

theorem ofBytes_toBytes_letters :
    letters.OfWords ∧ letters.next.size = letters.stateCount * letters.symbolCount ∧
      letters.alphabet.size = letters.symbolCount ∧
      ∃ bytes, letters.toBytes = .ok bytes ∧ bytes.length = 44 ∧
        ofBytes bytes = .ok { letters with tokenNames := [] } := by
  have hwords : letters.OfWords :=
    ⟨by decide, by decide, by decide, by decide, by decide⟩
  obtain ⟨-, hread⟩ := ofBytes_toBytes hwords rfl rfl
  have hwrite : letters.toBytes = .ok (letters.layout.bytes ++ letters.unread) :=
    toBytes_of_storable (by decide) (by decide)
  obtain ⟨restored, hrestored, -, hsame⟩ := hread _ hwrite
  have hkept : noStateHalf ∉ letters.next := fun h =>
    absurd (Array.mem_toList_iff.2 h) (by decide)
  rw [hsame.2 ⟨hkept, by decide⟩] at hrestored
  exact ⟨hwords, rfl, rfl, _, hwrite, by decide, hrestored⟩

/-- A loop on the letter a whose target is no state of the table. -/
def farTarget : LexerTable where
  alphabet := ⟨#[.ofChar 'a']⟩
  stateCount := 1
  symbolCount := 1
  start := 0
  next := #[0xFFFF]
  accept := ∅
  tokenNames := ["a"]

/-- The target is written without complaint, and read as a missing one. -/
theorem changed_farTarget :
    farTarget.OfWords ∧ farTarget.next.size = farTarget.stateCount * farTarget.symbolCount ∧
      farTarget.alphabet.size = farTarget.symbolCount ∧
      ∃ bytes restored, farTarget.toBytes = .ok bytes ∧ ofBytes bytes = .ok restored ∧
        restored.next = #[noState] ∧ restored ≠ { farTarget with tokenNames := [] } := by
  refine ⟨⟨by decide, by decide, by decide, by decide, by decide⟩, rfl, rfl,
    signature ++ [1, 0, 0, 0, 1, 0, 0, 0, 0, 0, 0, 0, 0, 0, 0, 0] ++
      [97, 0, 0, 0, 97, 0, 0, 0, 0xFF, 0xFF],
    { farTarget with next := #[noState], tokenNames := [] }, by decide, ?_, rfl, by decide⟩
  rfl

/-! ### Accepted bytes -/

def storedStateCount (bytes : List UInt8) : Nat := wordAt bytes 8

def storedSymbolCount (bytes : List UInt8) : Nat := wordAt bytes 12

def storedAcceptCount (bytes : List UInt8) : Nat := wordAt bytes 20

/-- The number of bytes that the header asks for, with its own. -/
def storedSize (bytes : List UInt8) : Nat :=
  24 + 8 * storedSymbolCount bytes + 2 * (storedStateCount bytes * storedSymbolCount bytes) +
    8 * storedAcceptCount bytes

def storedAcceptStates (bytes : List UInt8) : List Nat :=
  (List.range (storedAcceptCount bytes)).map fun i => wordAt bytes
    (24 + 8 * storedSymbolCount bytes + 2 * (storedStateCount bytes * storedSymbolCount bytes) +
      8 * i)

theorem storedStateCount_headerOf {n : Nat} (hn : n < wordLimit) (m s k : Nat) (rest : List UInt8) :
    storedStateCount (headerOf n m s k ++ rest) = n :=
  wordAt_append signature hn rfl (ofWord m ++ (ofPair (s, k) ++ rest))

theorem storedSymbolCount_headerOf {m : Nat} (hm : m < wordLimit) (n s k : Nat)
    (rest : List UInt8) :
    storedSymbolCount (headerOf n m s k ++ rest) = m :=
  wordAt_append (signature ++ ofWord n) hm rfl (ofPair (s, k) ++ rest)

theorem storedAcceptCount_headerOf {k : Nat} (hk : k < wordLimit) (n m s : Nat)
    (rest : List UInt8) :
    storedAcceptCount (headerOf n m s k ++ rest) = k :=
  wordAt_append (signature ++ (ofPair (n, m) ++ ofWord s)) hk rfl rest

theorem wordAt_pairs {ps : List (Nat × Nat)} (hps : ∀ p ∈ ps, p.1 < wordLimit ∧ p.2 < wordLimit)
    {front : List UInt8} {place : Nat} (hplace : front.length = place) (rest : List UInt8)
    {i : Nat} (hi : i < ps.length) :
    wordAt (front ++ (ps.flatMap ofPair ++ rest)) (place + 8 * i) = ps[i].1 := by
  induction ps generalizing front place i with
  | nil => simp at hi
  | cons p ps ih =>
    obtain ⟨hp, hps⟩ := List.forall_mem_cons.1 hps
    rw [List.flatMap_cons, List.append_assoc]
    cases i with
    | zero =>
      rw [ofPair, List.append_assoc]
      exact wordAt_append front hp.1 hplace _
    | succ i =>
      have hlength : (front ++ ofPair p).length = place + 8 := by
        rw [List.length_append, hplace]
        rfl
      have hplace' : place + 8 * (i + 1) = place + 8 + 8 * i := by omega
      rw [← List.append_assoc, hplace']
      exact ih hps hlength (Nat.lt_of_succ_lt_succ hi)

namespace Layout.Fits

variable {c : Layout} (hc : c.Fits) (rest : List UInt8)

include hc

theorem storedStateCount_eq : storedStateCount (c.bytes ++ rest) = c.stateCount := by
  rw [Layout.bytes, List.append_assoc, storedStateCount_headerOf hc.stateCount_lt]

theorem storedSymbolCount_eq : storedSymbolCount (c.bytes ++ rest) = c.symbolCount := by
  rw [Layout.bytes, List.append_assoc, storedSymbolCount_headerOf hc.symbolCount_lt]

theorem storedAcceptCount_eq : storedAcceptCount (c.bytes ++ rest) = c.accept.length := by
  rw [Layout.bytes, List.append_assoc, storedAcceptCount_headerOf hc.acceptCount_lt]

theorem storedSize_eq : storedSize (c.bytes ++ rest) = c.bytes.length := by
  rw [storedSize, hc.storedStateCount_eq, hc.storedSymbolCount_eq, hc.storedAcceptCount_eq,
    hc.length_bytes, payloadSize, headerSize]
  omega

theorem storedAcceptStates_eq :
    storedAcceptStates (c.bytes ++ rest) = c.accept.map Prod.fst := by
  have hcells : (c.cells.flatMap ofPair).length = c.symbolCount * 8 :=
    (fixed_times fixed_pair _).length_write ⟨hc.length_cells, hc.cell_lt⟩
  have htargets : (c.targets.flatMap ofHalf).length = c.stateCount * c.symbolCount * 2 :=
    (fixed_times fixed_half _).length_write ⟨hc.length_targets, hc.target_lt⟩
  have hfront : (headerOf c.stateCount c.symbolCount c.start c.accept.length ++
      (c.cells.flatMap ofPair ++ c.targets.flatMap ofHalf)).length =
      24 + 8 * c.symbolCount + 2 * (c.stateCount * c.symbolCount) := by
    rw [List.length_append, List.length_append, length_headerOf, hcells, htargets, headerSize]
    omega
  have hbytes : c.bytes ++ rest =
      (headerOf c.stateCount c.symbolCount c.start c.accept.length ++
        (c.cells.flatMap ofPair ++ c.targets.flatMap ofHalf)) ++
      (c.accept.flatMap ofPair ++ rest) := by
    rw [Layout.bytes, Layout.payloadBytes]
    simp only [List.append_assoc]
  rw [storedAcceptStates, hc.storedStateCount_eq, hc.storedSymbolCount_eq, hc.storedAcceptCount_eq]
  apply List.ext_getElem
  · simp
  · intro i hi hi'
    rw [List.getElem_map, List.getElem_range, List.getElem_map, hbytes]
    exact wordAt_pairs hc.accept_lt hfront rest _

end Layout.Fits

theorem storedSize_headerOf {n m s k : Nat} (hn : n < wordLimit) (hm : m < wordLimit)
    (hk : k < wordLimit) (rest : List UInt8) :
    storedSize (headerOf n m s k ++ rest) = headerSize + payloadSize n m k := by
  rw [storedSize, storedStateCount_headerOf hn, storedSymbolCount_headerOf hm,
    storedAcceptCount_headerOf hk, payloadSize, headerSize]
  omega

theorem ofBytes_of_tooShort {bytes : List UInt8} (h : bytes.length < headerSize) :
    ofBytes bytes = .error .tooShort := by
  rw [ofBytes, if_pos h]

theorem ofBytes_of_badSignature {bytes : List UInt8} (hlength : headerSize ≤ bytes.length)
    (h : ¬ signature <+: bytes) : ofBytes bytes = .error .badSignature := by
  rw [List.prefix_iff_eq_take, eq_comm] at h
  rw [ofBytes, if_neg (Nat.not_lt.2 hlength), if_pos h]

/-- Bytes that are long enough for their header begin with a layout, and all others are refused
before anything is read behind the header. -/
theorem ofBytes_cases {bytes : List UInt8} (hlimit : bytes.length < sizeLimit) :
    (∃ c : Layout, c.Fits ∧ ∃ rest, bytes = c.bytes ++ rest) ∨
      (∃ e, ofBytes bytes = .error e ∧ ∀ site, e ≠ .cutOff site) ∧
        ¬ (headerSize ≤ bytes.length ∧ signature <+: bytes ∧ storedSize bytes ≤ bytes.length) := by
  by_cases hlength : headerSize ≤ bytes.length
  · by_cases hsignature : signature <+: bytes
    · obtain ⟨n, m, s, k, rest, hn, hm, hs, hk, rfl⟩ := exists_headerOf hlength hsignature
      rw [List.length_append, length_headerOf] at hlimit
      rw [ofBytes_headerOf hn hm hs hk, storedSize_headerOf hn hm hk, List.length_append,
        length_headerOf]
      by_cases hneeded : payloadSize n m k ≤ rest.length
      · obtain ⟨c, hc, after, hbytes⟩ := exists_layout hn hm hs hk (by omega) hneeded
        exact Or.inl ⟨c, hc, after, hbytes⟩
      · right
        refine ⟨?_, by omega⟩
        by_cases hoverflow : sizeLimit ≤ payloadSize n m k
        · rw [if_pos hoverflow]
          exact ⟨_, rfl, by simp⟩
        · rw [if_neg hoverflow, if_pos (Nat.not_le.1 hneeded)]
          exact ⟨_, rfl, by simp⟩
    · exact Or.inr ⟨⟨_, ofBytes_of_badSignature hlength hsignature, by simp⟩,
        fun h => hsignature h.2.1⟩
  · exact Or.inr ⟨⟨_, ofBytes_of_tooShort (Nat.not_le.1 hlength), by simp⟩, fun h => hlength h.1⟩

theorem Layout.signature_prefix (c : Layout) (rest : List UInt8) :
    signature <+: c.bytes ++ rest := by
  rw [Layout.bytes, headerOf]
  simp only [List.append_assoc]
  exact List.prefix_append _ _

/-- Bytes are never found to end inside a number. They are accepted exactly if they have a header
with the signature and as many bytes as it asks for. The table has the sizes of the header, depends
on these bytes alone, and is written as them if it has few enough states and its accepting states
are ascending. -/
theorem ofBytes_accepts {bytes : List UInt8} (hlimit : bytes.length < sizeLimit) :
    (∀ site, ofBytes bytes ≠ .error (.cutOff site)) ∧
    ((∃ t, ofBytes bytes = .ok t) ↔
      24 ≤ bytes.length ∧ signature <+: bytes ∧ storedSize bytes ≤ bytes.length) ∧
    ∀ t, ofBytes bytes = .ok t →
      t.stateCount = storedStateCount bytes ∧ t.symbolCount = storedSymbolCount bytes ∧
      t.next.size = t.stateCount * t.symbolCount ∧ t.alphabet.size = t.symbolCount ∧
      ofBytes (bytes.take (storedSize bytes)) = .ok t ∧
      (t.stateCount < noStateHalf → (storedAcceptStates bytes).Pairwise (· < ·) →
        t.toBytes = .ok (bytes.take (storedSize bytes))) := by
  rcases ofBytes_cases hlimit with ⟨c, hc, rest, rfl⟩ | ⟨⟨e, he, hsite⟩, hrefused⟩
  · have hread := hc.ofBytes rest
    have htake : (c.bytes ++ rest).take (storedSize (c.bytes ++ rest)) = c.bytes := by
      rw [hc.storedSize_eq, List.take_left]
    have hread' : ofBytes c.bytes = .ok c.table := by
      have hnil := hc.ofBytes []
      rwa [List.append_nil] at hnil
    rw [htake, hread, hc.storedAcceptStates_eq, hc.storedStateCount_eq, hc.storedSymbolCount_eq,
      hc.storedSize_eq]
    refine ⟨?_, iff_of_true ⟨_, rfl⟩ ⟨?_, c.signature_prefix rest, ?_⟩, ?_⟩
    · intro site h
      cases h
    · rw [List.length_append, hc.length_bytes, headerSize]
      omega
    · rw [List.length_append]
      exact Nat.le_add_right _ _
    · intro t ht
      obtain rfl := Except.ok.inj ht
      refine ⟨rfl, rfl, (List.length_map _).trans hc.length_targets,
        (List.length_map _).trans hc.length_cells, hread', ?_⟩
      intro hcount haccept
      exact toBytes_table hc hcount (List.pairwise_map.1 haccept)
  · rw [he]
    refine ⟨fun site h => hsite site (Except.error.inj h), ?_, fun t h => by cases h⟩
    apply iff_of_false _ hrefused
    rintro ⟨t, h⟩
    cases h

/-- A state with a loop on the letter a that completes token 5, and three bytes behind it. -/
def storedLoop : List UInt8 :=
  signature ++ [1, 0, 0, 0, 1, 0, 0, 0, 0, 0, 0, 0, 1, 0, 0, 0] ++ [97, 0, 0, 0, 97, 0, 0, 0] ++
    [0, 0] ++ [0, 0, 0, 0, 5, 0, 0, 0] ++ [1, 2, 3]

/-- The three bytes are not read, and it is noticed if one byte of the table is missing. -/
theorem ofBytes_accepts_storedLoop :
    storedLoop.length < sizeLimit ∧ storedSize storedLoop = 42 ∧
      (∃ t, ofBytes storedLoop = .ok t ∧ t.next.size = 1 ∧
        t.toBytes = .ok (storedLoop.take 42)) ∧
      ¬ ∃ t, ofBytes (storedLoop.take 41) = .ok t := by
  have hlimit : storedLoop.length < sizeLimit := by decide
  have hsize : storedSize storedLoop = 42 := by decide
  obtain ⟨-, haccepted, htable⟩ := ofBytes_accepts hlimit
  obtain ⟨t, ht⟩ := haccepted.2 (by decide)
  obtain ⟨hstates, hsymbols, hnext, -, -, hwritten⟩ := htable t ht
  have hone : storedStateCount storedLoop = 1 := by decide
  have hone' : storedSymbolCount storedLoop = 1 := by decide
  rw [hstates, hone, hsymbols, hone'] at hnext
  have hcount : t.stateCount < noStateHalf := by
    rw [hstates]
    decide
  rw [hsize] at hwritten
  have hlimit' : (storedLoop.take 41).length < sizeLimit := by decide
  obtain ⟨-, hcut, -⟩ := ofBytes_accepts hlimit'
  have hrefused : ¬ ∃ t, ofBytes (storedLoop.take 41) = .ok t := by
    rw [hcut]
    decide
  exact ⟨hlimit, hsize, ⟨t, ht, hnext, hwritten hcount (by decide)⟩, hrefused⟩

end LexerTable

end SyntaxTables
