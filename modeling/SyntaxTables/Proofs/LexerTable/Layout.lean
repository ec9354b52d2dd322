import SyntaxTables.Proofs.Ascending
import SyntaxTables.Proofs.LexerTable.Bytes

/-!
# What is stored of a table

A layout is what the binary form of a table holds: its sizes, the cells of its alphabet, its targets
in their stored form, and its accepting states in the order in which they are stored. Writing a
table that has a binary form writes its layout, and reading bytes that begin with a layout gives the
table of this layout.
-/

namespace SyntaxTables

namespace LexerTable

open Bytes

/-- What the binary form of a table holds. -/
@[ext]
structure Layout where
  stateCount : Nat
  symbolCount : Nat
  start : Nat
  cells : List (Nat × Nat)
  targets : List Nat
  accept : List (Nat × Nat)

def ofPair (p : Nat × Nat) : List UInt8 := ofWord p.1 ++ ofWord p.2

def headerOf (stateCount symbolCount start acceptCount : Nat) : List UInt8 :=
  signature ++ (ofPair (stateCount, symbolCount) ++ ofPair (start, acceptCount))

namespace Layout

def payloadBytes (c : Layout) : List UInt8 :=
  c.cells.flatMap ofPair ++ (c.targets.flatMap ofHalf ++ c.accept.flatMap ofPair)

def bytes (c : Layout) : List UInt8 :=
  headerOf c.stateCount c.symbolCount c.start c.accept.length ++ c.payloadBytes

def table (c : Layout) : LexerTable where
  alphabet := ⟨(c.cells.map fun (lo, hi) => ⟨lo, hi⟩).toArray⟩
  stateCount := c.stateCount
  symbolCount := c.symbolCount
  start := c.start
  next := (c.targets.map unpackTarget).toArray
  accept := .ofList c.accept
  tokenNames := []

/-- All numbers have room in the bytes for them, the lists are as long as the sizes say, and the
whole is no larger than what can be in memory. -/
structure Fits (c : Layout) : Prop where
  stateCount_lt : c.stateCount < wordLimit
  symbolCount_lt : c.symbolCount < wordLimit
  start_lt : c.start < wordLimit
  acceptCount_lt : c.accept.length < wordLimit
  size_lt : payloadSize c.stateCount c.symbolCount c.accept.length < sizeLimit
  length_cells : c.cells.length = c.symbolCount
  cell_lt : ∀ p ∈ c.cells, p.1 < wordLimit ∧ p.2 < wordLimit
  length_targets : c.targets.length = c.stateCount * c.symbolCount
  target_lt : ∀ n ∈ c.targets, n < 0x10000
  accept_lt : ∀ p ∈ c.accept, p.1 < wordLimit ∧ p.2 < wordLimit

end Layout

/-! ### Reading -/

theorem fixed_sizes : Fixed sizes (fun p => ofPair p.1 ++ ofPair p.2) 16
    (fun p => (p.1.1 < wordLimit ∧ p.1.2 < wordLimit) ∧ p.2.1 < wordLimit ∧ p.2.2 < wordLimit) :=
  fixed_both fixed_pair fixed_pair

theorem fixed_payload (stateCount symbolCount acceptCount : Nat) :
    Fixed (payload stateCount symbolCount acceptCount)
      (fun p => p.1.flatMap ofPair ++ (p.2.1.flatMap ofHalf ++ p.2.2.flatMap ofPair))
      (payloadSize stateCount symbolCount acceptCount)
      (fun p => (p.1.length = symbolCount ∧ ∀ q ∈ p.1, q.1 < wordLimit ∧ q.2 < wordLimit) ∧
        (p.2.1.length = stateCount * symbolCount ∧ ∀ n ∈ p.2.1, n < 0x10000) ∧
        p.2.2.length = acceptCount ∧ ∀ q ∈ p.2.2, q.1 < wordLimit ∧ q.2 < wordLimit) := by
  have hwidth : payloadSize stateCount symbolCount acceptCount =
      symbolCount * 8 + (stateCount * symbolCount * 2 + acceptCount * 8) := by
    unfold payloadSize
    omega
  rw [hwidth]
  exact fixed_both (fixed_times fixed_pair symbolCount)
    (fixed_both (fixed_times fixed_half (stateCount * symbolCount))
      (fixed_times fixed_pair acceptCount))

theorem length_headerOf (n m s k : Nat) : (headerOf n m s k).length = headerSize := rfl

theorem ofBytes_headerOf {n m s k : Nat} (hn : n < wordLimit) (hm : m < wordLimit)
    (hs : s < wordLimit) (hk : k < wordLimit) (rest : List UInt8) :
    ofBytes (headerOf n m s k ++ rest) =
      if sizeLimit ≤ payloadSize n m k then .error .sizesOverflow
      else if rest.length < payloadSize n m k then
        .error (.truncated (payloadSize n m k) rest.length)
      else
        (match payload n m k rest with
        | .error site => .error (.cutOff site)
        | .ok ((cells, targets, accept), _) =>
          .ok (Layout.table ⟨n, m, s, cells, targets, accept⟩)) := by
  have hlength : ¬ (headerOf n m s k ++ rest).length < headerSize := by
    rw [List.length_append, length_headerOf]
    omega
  have hsignature : (headerOf n m s k ++ rest).take signature.length = signature := rfl
  have hdrop : (headerOf n m s k ++ rest).drop signature.length =
      (ofPair (n, m) ++ ofPair (s, k)) ++ rest := rfl
  have hsizes : sizes ((ofPair (n, m) ++ ofPair (s, k)) ++ rest) = .ok (((n, m), s, k), rest) :=
    fixed_sizes.read_eq_ok_iff.2 ⟨⟨⟨hn, hm⟩, hs, hk⟩, rfl⟩
  rw [ofBytes, if_neg hlength, if_neg (not_not.2 hsignature), hdrop, hsizes]
  rfl

theorem Layout.Fits.payload {c : Layout} (hc : c.Fits) (rest : List UInt8) :
    payload c.stateCount c.symbolCount c.accept.length (c.payloadBytes ++ rest) =
        .ok ((c.cells, c.targets, c.accept), rest) ∧
      c.payloadBytes.length = payloadSize c.stateCount c.symbolCount c.accept.length := by
  have hfixed := fixed_payload c.stateCount c.symbolCount c.accept.length
  have hfits : (c.cells.length = c.symbolCount ∧
        ∀ p ∈ c.cells, p.1 < wordLimit ∧ p.2 < wordLimit) ∧
      (c.targets.length = c.stateCount * c.symbolCount ∧ ∀ n ∈ c.targets, n < 0x10000) ∧
      c.accept.length = c.accept.length ∧ ∀ p ∈ c.accept, p.1 < wordLimit ∧ p.2 < wordLimit :=
    ⟨⟨hc.length_cells, hc.cell_lt⟩, ⟨hc.length_targets, hc.target_lt⟩, rfl, hc.accept_lt⟩
  exact ⟨hfixed.read_eq_ok_iff.2 ⟨hfits, rfl⟩,
    hfixed.length_write (x := (c.cells, c.targets, c.accept)) hfits⟩

theorem Layout.Fits.length_bytes {c : Layout} (hc : c.Fits) :
    c.bytes.length = headerSize + payloadSize c.stateCount c.symbolCount c.accept.length := by
  rw [Layout.bytes, List.length_append, (hc.payload []).2, length_headerOf]

/-- The table of a layout is read from its bytes, whatever follows them. -/
theorem Layout.Fits.ofBytes {c : Layout} (hc : c.Fits) (rest : List UInt8) :
    ofBytes (c.bytes ++ rest) = .ok c.table := by
  obtain ⟨hread, hlength⟩ := hc.payload rest
  rw [Layout.bytes, List.append_assoc, ofBytes_headerOf hc.stateCount_lt hc.symbolCount_lt
    hc.start_lt hc.acceptCount_lt, if_neg (Nat.not_le.2 hc.size_lt), if_neg, hread]
  rw [List.length_append, hlength]
  omega

theorem exists_headerOf {bytes : List UInt8} (hlength : headerSize ≤ bytes.length)
    (hsignature : signature <+: bytes) :
    ∃ n m s k rest, n < wordLimit ∧ m < wordLimit ∧ s < wordLimit ∧ k < wordLimit ∧
      bytes = headerOf n m s k ++ rest := by
  obtain ⟨bytes, rfl⟩ := hsignature
  have hsizes : 16 ≤ bytes.length := by
    simpa [headerSize, signature] using hlength
  obtain ⟨⟨⟨n, m⟩, s, k⟩, rest, hread⟩ := fixed_sizes.exists_read hsizes
  obtain ⟨⟨⟨hn, hm⟩, hs, hk⟩, rfl⟩ := fixed_sizes.read_eq_ok_iff.1 hread
  exact ⟨n, m, s, k, rest, hn, hm, hs, hk, (List.append_assoc _ _ _).symm⟩

/-- If there are as many bytes behind a header as it asks for, all begins with a layout. -/
theorem exists_layout {n m s k : Nat} (hn : n < wordLimit) (hm : m < wordLimit)
    (hs : s < wordLimit) (hk : k < wordLimit) {rest : List UInt8}
    (hsize : payloadSize n m k < sizeLimit) (hlength : payloadSize n m k ≤ rest.length) :
    ∃ c : Layout, c.Fits ∧ ∃ after, headerOf n m s k ++ rest = c.bytes ++ after := by
  obtain ⟨⟨cells, targets, accept⟩, after, hread⟩ := (fixed_payload n m k).exists_read hlength
  obtain ⟨⟨⟨hcells, hcell⟩, ⟨htargets, htarget⟩, rfl, haccept⟩, rfl⟩ :=
    (fixed_payload n m k).read_eq_ok_iff.1 hread
  refine ⟨⟨n, m, s, cells, targets, accept⟩,
    ⟨hn, hm, hs, hk, hsize, hcells, hcell, htargets, htarget, haccept⟩, after, ?_⟩
  exact (List.append_assoc _ _ _).symm

/-! ### What is stored -/

/-- A missing target, or one that fits into 16 bits. -/
def Storable (target : Nat) : Prop := target = noState ∨ target ≤ noStateHalf

instance (target : Nat) : Decidable (Storable target) :=
  inferInstanceAs (Decidable (target = noState ∨ target ≤ noStateHalf))

def storedTarget (target : Nat) : Nat := if target = noState then noStateHalf else target

/-- What the writer stores of a table. The number of accepting states is written as a word, and only
as many of them as it says are read. -/
def layout (t : LexerTable) : Layout where
  stateCount := t.stateCount
  symbolCount := t.symbolCount
  start := t.start
  cells := t.alphabet.cells.toList.map fun r => (r.min, r.max)
  targets := t.next.toList.map storedTarget
  accept := t.accept.entries.take (t.accept.size % wordLimit)

/-- The bytes of the accepting states that are not read. -/
def unread (t : LexerTable) : List UInt8 :=
  (t.accept.entries.drop (t.accept.size % wordLimit)).flatMap ofPair

/-- All numbers of the table but its targets are words. -/
structure OfWords (t : LexerTable) : Prop where
  stateCount_lt : t.stateCount < wordLimit
  symbolCount_lt : t.symbolCount < wordLimit
  start_lt : t.start < wordLimit
  cell_lt : ∀ r ∈ t.alphabet.cells, r.min < wordLimit ∧ r.max < wordLimit
  accept_lt : ∀ e ∈ t.accept.entries, e.1 < wordLimit ∧ e.2 < wordLimit

theorem not_storable_iff {n : Nat} : ¬ Storable n ↔ noStateHalf < n ∧ n ≠ noState := by
  rw [Storable, not_or, Nat.not_le, and_comm]

theorem storedTarget_lt {n : Nat} (hn : Storable n) : storedTarget n < 0x10000 := by
  unfold storedTarget
  split
  · decide
  · next hne => exact Nat.lt_succ_of_le (hn.resolve_left hne)

/-- A stored target is read as if it had not been stored. -/
theorem unpackTarget_storedTarget (n : Nat) : unpackTarget (storedTarget n) = unpackTarget n := by
  unfold storedTarget
  split
  · next h =>
    subst h
    rfl
  · rfl

theorem storedTarget_unpackTarget {n : Nat} (hn : n < 0x10000) :
    storedTarget (unpackTarget n) = n := by
  unfold unpackTarget
  split
  · next h => exact h.symm
  · exact if_neg (Nat.ne_of_lt (Nat.lt_trans hn (by decide)))

theorem unpackTarget_eq_self_iff {n : Nat} : unpackTarget n = n ↔ n ≠ noStateHalf := by
  unfold unpackTarget
  split
  · next h =>
    subst h
    decide
  · next h => exact iff_of_true rfl h

variable {t : LexerTable}

theorem length_layout_accept : t.layout.accept.length = t.accept.size % wordLimit := by
  rw [layout, List.length_take]
  exact Nat.min_eq_left (Nat.mod_le _ _)

theorem unread_eq_nil (h : t.accept.size < wordLimit) : t.unread = [] := by
  rw [unread, Nat.mod_eq_of_lt h, NatMap.size, List.drop_length, List.flatMap_nil]

/-! ### Writing -/

theorem packTarget_of_storable {n : Nat} (hn : Storable n) :
    packTarget n = .ok (storedTarget n) := by
  unfold packTarget storedTarget
  split
  · rfl
  · next hne => exact if_pos (hn.resolve_left hne)

theorem packTarget_of_not_storable {n : Nat} (hn : ¬ Storable n) :
    packTarget n = .error .targetTooLarge := by
  obtain ⟨hne, hlt⟩ := not_or.1 hn
  rw [packTarget, if_neg hne]
  exact if_neg hlt

theorem mapM_packTarget {ns : List Nat} (h : ∀ n ∈ ns, Storable n) :
    ns.mapM packTarget = .ok (ns.map storedTarget) := by
  induction ns with
  | nil => rfl
  | cons n ns ih =>
    obtain ⟨hn, hns⟩ := List.forall_mem_cons.1 h
    rw [List.mapM_cons, packTarget_of_storable hn, ih hns]
    rfl

theorem mapM_packTarget_error {ns : List Nat} (h : ∃ n ∈ ns, ¬ Storable n) :
    ns.mapM packTarget = .error .targetTooLarge := by
  induction ns with
  | nil => simp at h
  | cons n ns ih =>
    rw [List.mapM_cons]
    by_cases hn : Storable n
    · have hns : ∃ m ∈ ns, ¬ Storable m := by
        simpa [hn] using h
      rw [packTarget_of_storable hn, ih hns]
      rfl
    · rw [packTarget_of_not_storable hn]
      rfl

/-- A table that has few enough states and no target that is too large is written as its layout. -/
theorem toBytes_of_storable (hcount : t.stateCount < noStateHalf)
    (hnext : ∀ n ∈ t.next, Storable n) :
    t.toBytes = .ok (t.layout.bytes ++ t.unread) := by
  have htargets : t.next.toList.mapM packTarget = .ok (t.next.toList.map storedTarget) :=
    mapM_packTarget fun n hn => hnext n (Array.mem_toList_iff.1 hn)
  have hheader : signature ++ t.header =
      headerOf t.stateCount t.symbolCount t.start t.layout.accept.length := by
    rw [length_layout_accept, headerOf, ofPair, ofPair, ofWord_mod]
    simp [header]
  have haccept : t.accept.entries.flatMap ofPair = t.layout.accept.flatMap ofPair ++ t.unread := by
    rw [layout, unread, ← List.flatMap_append, List.take_append_drop]
  have hcells : t.layout.cells.flatMap ofPair =
      t.alphabet.cells.toList.flatMap fun r => ofWord r.min ++ ofWord r.max := by
    rw [layout, List.flatMap_map]
    rfl
  have hpayload : t.layout.payloadBytes ++ t.unread =
      (t.alphabet.cells.toList.flatMap fun r => ofWord r.min ++ ofWord r.max) ++
        ((t.next.toList.map storedTarget).flatMap ofHalf ++ t.accept.entries.flatMap ofPair) := by
    rw [Layout.payloadBytes, hcells, haccept]
    simp [layout]
  rw [Layout.bytes, List.append_assoc, hpayload]
  unfold toBytes
  rw [if_neg (Nat.not_le.2 hcount), htargets]
  simp only [bind, Except.bind, pure, Except.pure, hheader, List.append_assoc]
  rfl

theorem toBytes_of_tooManyStates (hcount : noStateHalf ≤ t.stateCount) :
    t.toBytes = .error (.tooManyStates t.stateCount) := by
  unfold toBytes
  rw [if_pos hcount]
  rfl

theorem toBytes_of_targetTooLarge (hcount : t.stateCount < noStateHalf)
    (hnext : ∃ n ∈ t.next, ¬ Storable n) : t.toBytes = .error .targetTooLarge := by
  obtain ⟨n, hmem, hn⟩ := hnext
  have htargets : t.next.toList.mapM packTarget = .error .targetTooLarge :=
    mapM_packTarget_error ⟨n, Array.mem_toList_iff.2 hmem, hn⟩
  unfold toBytes
  rw [if_neg (Nat.not_le.2 hcount), htargets]
  rfl

theorem toBytes_eq_error_iff {e : PackError} : t.toBytes = .error e ↔
    (noStateHalf ≤ t.stateCount ∧ e = .tooManyStates t.stateCount) ∨
      (t.stateCount < noStateHalf ∧ (∃ n ∈ t.next, ¬ Storable n) ∧ e = .targetTooLarge) := by
  by_cases hcount : noStateHalf ≤ t.stateCount
  · rw [toBytes_of_tooManyStates hcount]
    simp [hcount, Nat.not_lt.2 hcount, eq_comm]
  · have hlt := Nat.not_le.1 hcount
    by_cases hnext : ∃ n ∈ t.next, ¬ Storable n
    · rw [toBytes_of_targetTooLarge hlt hnext]
      simp [hcount, hlt, hnext, eq_comm]
    · have hstorable : ∀ n ∈ t.next, Storable n := by simpa using hnext
      rw [toBytes_of_storable hlt hstorable]
      simp [hcount, hnext]

/-! ### Reading what was written -/

theorem payloadSize_lt {n m k : Nat} (hn : n < noStateHalf) (hm : m < wordLimit)
    (hk : k < wordLimit) : payloadSize n m k < sizeLimit := by
  have hmul : n * m ≤ noStateHalf * m := Nat.mul_le_mul_right m (Nat.le_of_lt hn)
  unfold noStateHalf at hmul
  unfold wordLimit at hm hk
  unfold payloadSize sizeLimit
  omega

theorem fits_layout (ht : t.OfWords) (hnext : t.next.size = t.stateCount * t.symbolCount)
    (halphabet : t.alphabet.size = t.symbolCount) (hcount : t.stateCount < noStateHalf)
    (hstorable : ∀ n ∈ t.next, Storable n) : t.layout.Fits where
  stateCount_lt := ht.stateCount_lt
  symbolCount_lt := ht.symbolCount_lt
  start_lt := ht.start_lt
  acceptCount_lt := by
    rw [length_layout_accept]
    exact Nat.mod_lt _ (by decide)
  size_lt := by
    rw [length_layout_accept]
    exact payloadSize_lt hcount ht.symbolCount_lt (Nat.mod_lt _ (by decide))
  length_cells := (List.length_map _).trans halphabet
  cell_lt := by
    intro p hp
    obtain ⟨r, hr, rfl⟩ := List.mem_map.1 hp
    exact ht.cell_lt r (Array.mem_toList_iff.1 hr)
  length_targets := (List.length_map _).trans hnext
  target_lt := by
    intro n hn
    obtain ⟨m, hm, rfl⟩ := List.mem_map.1 hn
    exact storedTarget_lt (hstorable m (Array.mem_toList_iff.1 hm))
  accept_lt := fun e he => ht.accept_lt e (List.mem_of_mem_take he)

theorem map_unpackTarget_eq_self_iff {next : Array Nat} :
    next.map unpackTarget = next ↔ noStateHalf ∉ next := by
  have hmap := List.map_inj_left (l := next.toList) (f := unpackTarget) (g := id)
  rw [List.map_id] at hmap
  rw [← Array.toList_inj, Array.toList_map, hmap]
  simp only [id_eq, unpackTarget_eq_self_iff, Array.mem_toList_iff]
  constructor
  · intro h hmem
    exact h _ hmem rfl
  · intro h n hn heq
    exact h (heq ▸ hn)

theorem next_table_layout (t : LexerTable) :
    t.layout.table.next = t.next.map unpackTarget := by
  apply Array.toList_inj.1
  simp [Layout.table, layout, Function.comp_def, unpackTarget_storedTarget]

theorem alphabet_table_layout (t : LexerTable) : t.layout.table.alphabet = t.alphabet := by
  simp [Layout.table, layout, Function.comp_def]

/-- The table that is read has a missing target for the one that stands for it, and the accepting
states that were read. -/
theorem table_layout (t : LexerTable) : t.layout.table = { t with
    next := t.next.map unpackTarget
    accept := .ofList t.layout.accept
    tokenNames := [] } := by
  rw [← next_table_layout, ← alphabet_table_layout]
  rfl

theorem ofList_layout_accept_iff : NatMap.ofList t.layout.accept = t.accept ↔
    t.accept.size < wordLimit := by
  constructor
  · intro h
    rw [← h]
    apply Nat.lt_of_le_of_lt (NatMap.size_ofList_le _)
    rw [length_layout_accept]
    exact Nat.mod_lt _ (by decide)
  · intro h
    rw [layout, Nat.mod_eq_of_lt h, NatMap.size, List.take_length]
    exact NatMap.ofList_entries t.accept

theorem table_layout_eq_iff (t : LexerTable) : t.layout.table = { t with tokenNames := [] } ↔
    noStateHalf ∉ t.next ∧ t.accept.size < wordLimit := by
  rw [table_layout, LexerTable.mk.injEq]
  simp only [true_and, and_true, map_unpackTarget_eq_self_iff, ofList_layout_accept_iff]

theorem layout_table {c : Layout} (hc : c.Fits)
    (haccept : c.accept.Pairwise fun a b => a.1 < b.1) : c.table.layout = c := by
  have hentries : (NatMap.ofList c.accept).entries = c.accept := NatMap.entries_ofList haccept
  have hsize : (NatMap.ofList c.accept).size = c.accept.length := congrArg List.length hentries
  apply Layout.ext
  · rfl
  · rfl
  · rfl
  · simp [layout, Layout.table, Function.comp_def]
  · simp only [layout, Layout.table, List.map_map]
    apply (List.map_congr_left _).trans (List.map_id _)
    intro n hn
    exact storedTarget_unpackTarget (hc.target_lt n hn)
  · simp only [layout, Layout.table]
    rw [hentries, hsize, Nat.mod_eq_of_lt hc.acceptCount_lt, List.take_length]

theorem storable_unpackTarget {n : Nat} (hn : n < 0x10000) : Storable (unpackTarget n) := by
  unfold unpackTarget
  split
  · exact Or.inl rfl
  · exact Or.inr (Nat.le_of_lt_succ hn)

theorem toBytes_table {c : Layout} (hc : c.Fits) (hcount : c.stateCount < noStateHalf)
    (haccept : c.accept.Pairwise fun a b => a.1 < b.1) : c.table.toBytes = .ok c.bytes := by
  have hstorable : ∀ n ∈ c.table.next, Storable n := by
    intro n hn
    obtain ⟨m, hm, rfl⟩ := List.mem_map.1 (List.mem_toArray.1 hn)
    exact storable_unpackTarget (hc.target_lt m hm)
  have hunread : c.table.unread = [] :=
    unread_eq_nil (Nat.lt_of_le_of_lt (NatMap.size_ofList_le _) hc.acceptCount_lt)
  rw [toBytes_of_storable hcount hstorable, layout_table hc haccept, hunread, List.append_nil]

end LexerTable

end SyntaxTables
