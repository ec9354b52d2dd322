import Mathlib.Data.List.Basic
import SyntaxTables.Interval
import SyntaxTables.Json.Codec
import SyntaxTables.Proofs.Ascending

/-!
# Libraries that write what they read

What is relied on of a library are a few laws on texts, numbers, strings, lists, records and
choices. From these it follows for one type after another that what is written of a value is read as
that value, given as many levels of brackets as are written. The property is stated for one value at
a time, since numbers are only restored if they are words.
-/

namespace SyntaxTables.Json

/-- Values of at most so many levels whose texts keep all of them. -/
inductive Plain : Nat → Json → Prop
  | null {depth : Nat} : Plain depth .null
  | bool {depth : Nat} (value : Bool) : Plain depth (.bool value)
  | word {depth value : Nat} (h : value < wordLimit) : Plain depth (.natural value)
  | ofString {depth : Nat} (value : String) : Plain depth (ofString value)
  | array {depth : Nat} {items : List Json} (h : ∀ j ∈ items, Plain depth j) :
    Plain (depth + 1) (.array items)
  | record {depth : Nat} {members : List (String × Json)} (h : ∀ m ∈ members, Plain depth m.2) :
    Plain (depth + 1) (record members)

variable {α β : Type} {depth levels : Nat}

theorem Plain.mono {j : Json} (h : j.Plain depth) (hle : depth ≤ levels) : j.Plain levels := by
  induction h generalizing levels with
  | null => exact .null
  | bool value => exact .bool value
  | word h => exact .word h
  | ofString value => exact .ofString value
  | array _ ih =>
    obtain ⟨levels, rfl⟩ := Nat.exists_eq_add_one.2 (by omega : 0 < levels)
    exact .array fun j hj => ih j hj (by omega)
  | record _ ih =>
    obtain ⟨levels, rfl⟩ := Nat.exists_eq_add_one.2 (by omega : 0 < levels)
    exact .record fun m hm => ih m hm (by omega)

/-! ### What is said of declared types -/

/-- Does this value stand for the field where it is not given? -/
def Missing.Gives (missing : Missing α) (x : α) : Prop :=
  missing.omitted = some x ∨ missing.cutOff = some x

namespace Fields

def names : {α : Type} → Fields α → List String
  | _, .nil => []
  | _, .cons name _ _ rest => name :: rest.names

/-- The property holds of each field with its value. -/
def Each (P : ∀ α : Type, Codec α → Missing α → α → Prop) : {α : Type} → Fields α → α → Prop
  | _, .nil, _ => True
  | _, .cons _ c missing rest, (x, y) => P _ c missing x ∧ rest.Each P y

def All (P : ∀ α : Type, Codec α → Missing α → Prop) : {α : Type} → Fields α → Prop
  | _, .nil => True
  | _, .cons _ c missing rest => P _ c missing ∧ rest.All P

variable {fields : Fields α} {P Q : ∀ α : Type, Codec α → Missing α → α → Prop}

theorem Each.imp {x : α} (h : fields.Each P x)
    (himp : ∀ {α : Type} {c : Codec α} {missing : Missing α} {x : α},
      P α c missing x → Q α c missing x) : fields.Each Q x := by
  induction fields with
  | nil => trivial
  | cons name c missing rest ih => exact ⟨himp h.1, ih h.2⟩

theorem Each.imp_of_all {R : ∀ α : Type, Codec α → Missing α → Prop} {x : α}
    (h : fields.Each P x) (hall : fields.All R)
    (himp : ∀ {α : Type} {c : Codec α} {missing : Missing α} {x : α},
      R α c missing → P α c missing x → Q α c missing x) : fields.Each Q x := by
  induction fields with
  | nil => trivial
  | cons name c missing rest ih => exact ⟨himp hall.1 h.1, ih h.2 hall.2⟩

theorem plain_members {x : α} (h : fields.Each (fun _ c _ x => (c.write x).Plain depth) x) :
    ∀ m ∈ fields.members x, m.2.Plain depth := by
  induction fields with
  | nil => simp [members]
  | cons name c missing rest ih =>
    rw [members, List.forall_mem_cons]
    exact ⟨h.1, ih h.2⟩

end Fields

namespace Cases

def tags : {α : Type} → Cases α → List String
  | _, .nil => []
  | _, .bare tag rest => tag :: rest.tags
  | _, .holding tag _ rest => tag :: rest.tags

/-- If the case of a value has content, that stands one level inside and has the property. -/
def Inside (P : ∀ α : Type, Nat → Codec α → α → Prop) (levels : Nat) :
    {α : Type} → Cases α → α → Prop
  | _, .bare _ _, .inl _ => True
  | _, .bare _ rest, .inr y => rest.Inside P levels y
  | _, .holding _ c _, .inl x => ∃ inner, levels = inner + 1 ∧ P _ inner c x
  | _, .holding _ _ rest, .inr y => rest.Inside P levels y

def All (P : ∀ α : Type, Codec α → Prop) : {α : Type} → Cases α → Prop
  | _, .nil => True
  | _, .bare _ rest => rest.All P
  | _, .holding _ c rest => P _ c ∧ rest.All P

variable {cases : Cases α} {P Q : ∀ α : Type, Nat → Codec α → α → Prop} {x : α}

theorem Inside.mono {levels' : Nat} (h : cases.Inside P levels x) (hle : levels ≤ levels')
    (himp : ∀ {α : Type} {inner inner' : Nat} {c : Codec α} {x : α}, inner ≤ inner' →
      P α inner c x → Q α inner' c x) : cases.Inside Q levels' x := by
  induction cases with
  | nil => cases x
  | bare tag rest ih =>
    cases x with
    | inl x => trivial
    | inr y => exact ih h
  | holding tag c rest ih =>
    cases x with
    | inl x =>
      obtain ⟨inner, rfl, hx⟩ := h
      obtain ⟨inner', rfl⟩ := Nat.exists_eq_add_one.2 (by omega : 0 < levels')
      exact ⟨inner', rfl, himp (by omega) hx⟩
    | inr y => exact ih h

theorem Inside.imp_of_all {R : ∀ α : Type, Nat → Codec α → Prop} (h : cases.Inside P levels x)
    (hall : ∀ inner, levels = inner + 1 → cases.All fun α c => R α inner c)
    (himp : ∀ {α : Type} {inner : Nat} {c : Codec α} {x : α},
      R α inner c → P α inner c x → Q α inner c x) : cases.Inside Q levels x := by
  induction cases with
  | nil => cases x
  | bare tag rest ih =>
    cases x with
    | inl x => trivial
    | inr y => exact ih h hall
  | holding tag c rest ih =>
    cases x with
    | inl x =>
      obtain ⟨inner, hinner, hx⟩ := h
      exact ⟨inner, hinner, himp (hall inner hinner).1 hx⟩
    | inr y => exact ih h fun inner hinner => (hall inner hinner).2

theorem plain_written (h : cases.Inside (fun _ inner c x => (c.write x).Plain inner) levels x) :
    (cases.written x).Plain levels := by
  induction cases with
  | nil => cases x
  | bare tag rest ih =>
    cases x with
    | inl x => exact .ofString tag
    | inr y => exact ih h
  | holding tag c rest ih =>
    cases x with
    | inl x =>
      obtain ⟨inner, rfl, hx⟩ := h
      exact .record (List.forall_mem_singleton.2 hx)
    | inr y => exact ih h

end Cases

/-! ### The laws -/

/-- What is relied on of a library. -/
structure Library.Lawful (L : Library) : Prop where
  parse_print : ∀ {j : Json}, j.Plain depthLimit → L.parse (L.print j) = some j
  write_word : ∀ n, L.word.write n = .natural n
  read_word : ∀ {levels j n}, L.word.read levels j = some n ↔ j = .natural n ∧ n < wordLimit
  write_string : ∀ s, L.string.write s = .ofString s
  read_string : ∀ {levels j s}, L.string.read levels j = some s ↔ j = .ofString s
  write_nullable : ∀ {α : Type} (c : Codec α) o, (L.nullable c).write o = .ofOption c.write o
  read_null : ∀ {α : Type} (c : Codec α) levels, (L.nullable c).read levels .null = some none
  read_nullable : ∀ {α : Type} (c : Codec α) {levels j}, j ≠ .null →
    (L.nullable c).read levels j = (c.read levels j).map some
  write_list : ∀ {α : Type} (c : Codec α) xs, (L.list c).write xs = .ofList c.write xs
  read_list : ∀ {α : Type} {c : Codec α} {levels j xs}, (L.list c).read levels j = some xs ↔
    ∃ inner items, levels = inner + 1 ∧ j = .array items ∧ items.mapM (c.read inner) = some xs
  write_pair : ∀ {α β : Type} (c : Codec α) (e : Codec β) x y,
    (L.pair c e).write (x, y) = .array [c.write x, e.write y]
  read_pair : ∀ {α β : Type} {c : Codec α} {e : Codec β} {levels j x y},
    (L.pair c e).read levels j = some (x, y) ↔
      ∃ inner u v, levels = inner + 1 ∧ j = .array [u, v] ∧ c.read inner u = some x ∧
        e.read inner v = some y
  write_map : ∀ {α : Type} (c : Codec α) m,
    (L.map c).write m = (L.list (L.pair L.word c)).write m.entries
  /-- Of equal keys the last counts. -/
  read_map : ∀ {α : Type} (c : Codec α) levels j,
    (L.map c).read levels j = ((L.list (L.pair L.word c)).read levels j).map NatMap.ofList
  write_record : ∀ {α : Type} (fields : Fields α) x,
    (L.record fields).write x = .record (fields.members x)
  read_record : ∀ {α : Type} {fields : Fields α} {inner x}, fields.names.Nodup →
    fields.Each (fun _ c _ x => c.read inner (c.write x) = some x) x →
      (L.record fields).read (inner + 1) (.record (fields.members x)) = some x
  /-- Other texts of a record may give its fields in other ways, or leave out some of them. -/
  of_read_record : ∀ {α : Type} {fields : Fields α} {levels j x},
    (L.record fields).read levels j = some x → ∃ inner, levels = inner + 1 ∧
      fields.Each (fun _ c missing x => (∃ j, c.read inner j = some x) ∨ missing.Gives x) x
  write_choice : ∀ {α : Type} (cases : Cases α) x, (L.choice cases).write x = cases.written x
  read_choice : ∀ {α : Type} {cases : Cases α} {levels x}, cases.tags.Nodup →
    cases.Inside (fun _ inner c x => c.read inner (c.write x) = some x) levels x →
      (L.choice cases).read levels (cases.written x) = some x
  of_read_choice : ∀ {α : Type} {cases : Cases α} {levels j x},
    (L.choice cases).read levels j = some x →
      cases.Inside (fun _ inner c x => ∃ j, c.read inner j = some x) levels x

/-! ### Restored values -/

/-- What `c` writes for a value it restores, given the levels of brackets that it opens. -/
structure Codec.Restores (c : Codec α) (depth : Nat) (x : α) : Prop where
  plain : (c.write x).Plain depth
  restored : ∀ levels, depth ≤ levels → c.read levels (c.write x) = some x

variable {c : Codec α} {e : Codec β}

theorem Codec.Restores.mono {x : α} (h : c.Restores depth x) (hle : depth ≤ levels) :
    c.Restores levels x :=
  ⟨h.plain.mono hle, fun levels hlevels => h.restored levels (hle.trans hlevels)⟩

theorem Codec.Restores.via {pack : α → β} {unpack : β → α} {y : β}
    (h : c.Restores depth (unpack y)) (hpack : pack (unpack y) = y) :
    (c.via pack unpack).Restores depth y where
  plain := h.plain
  restored := by
    intro levels hlevels
    simp [Codec.via, h.restored levels hlevels, hpack]

namespace Library.Lawful

variable {L : Library} (hL : L.Lawful)

include hL

theorem ofText_print {j : Json} (h : j.Plain depthLimit) :
    L.ofText c (L.print j) = c.read depthLimit j := by
  rw [ofText, hL.parse_print h, Option.bind_some]

theorem ofText_toText_of_restores {x : α} (h : c.Restores depth x) (hdepth : depth ≤ depthLimit) :
    L.ofText c (L.toText c x) = some x := by
  rw [toText, hL.ofText_print (h.plain.mono hdepth), h.restored depthLimit hdepth]

theorem restores_word {n : Nat} (h : n < wordLimit) : L.word.Restores depth n where
  plain := by
    rw [hL.write_word]
    exact .word h
  restored := fun _ _ => hL.read_word.2 ⟨hL.write_word n, h⟩

theorem restores_string (s : String) : L.string.Restores depth s where
  plain := by
    rw [hL.write_string]
    exact .ofString s
  restored := fun _ _ => hL.read_string.2 (hL.write_string s)

omit hL in
theorem mapM_map_eq_some {γ : Type} {f : α → γ} {g : γ → Option α} {xs : List α}
    (h : ∀ x ∈ xs, g (f x) = some x) : (xs.map f).mapM g = some xs := by
  induction xs with
  | nil => rfl
  | cons x xs ih =>
    obtain ⟨hx, hxs⟩ := List.forall_mem_cons.1 h
    simp [hx, ih hxs]

theorem restores_list {xs : List α} (h : ∀ x ∈ xs, c.Restores depth x) :
    (L.list c).Restores (depth + 1) xs where
  plain := by
    rw [hL.write_list, ofList]
    refine .array fun j hj => ?_
    obtain ⟨x, hx, rfl⟩ := List.mem_map.1 hj
    exact (h x hx).plain
  restored := by
    intro levels hlevels
    obtain ⟨levels, rfl⟩ := Nat.exists_eq_add_one.2 (by omega : 0 < levels)
    exact hL.read_list.2 ⟨levels, _, rfl, hL.write_list c xs,
      mapM_map_eq_some fun x hx => (h x hx).restored levels (by omega)⟩

theorem restores_nullable {o : Option α} (h : ∀ x ∈ o, c.Restores depth x)
    (hnull : ∀ x ∈ o, c.write x ≠ .null) : (L.nullable c).Restores depth o := by
  cases o with
  | none =>
    constructor
    · rw [hL.write_nullable]
      exact .null
    · intro levels _
      rw [hL.write_nullable]
      exact hL.read_null c levels
  | some x =>
    constructor
    · rw [hL.write_nullable]
      exact (h x rfl).plain
    · intro levels hlevels
      rw [hL.write_nullable, ofOption, hL.read_nullable c (hnull x rfl),
        (h x rfl).restored levels hlevels, Option.map_some]

theorem restores_none : (L.nullable c).Restores depth none :=
  hL.restores_nullable (by simp) (by simp)

theorem write_string_ne_null (s : String) : L.string.write s ≠ .null := by
  rw [hL.write_string]
  rintro ⟨⟩

theorem restores_pair {x : α} {y : β} (hx : c.Restores depth x) (hy : e.Restores depth y) :
    (L.pair c e).Restores (depth + 1) (x, y) where
  plain := by
    rw [hL.write_pair]
    exact .array (by simp [hx.plain, hy.plain])
  restored := by
    intro levels hlevels
    obtain ⟨levels, rfl⟩ := Nat.exists_eq_add_one.2 (by omega : 0 < levels)
    exact hL.read_pair.2 ⟨levels, _, _, rfl, hL.write_pair c e x y, hx.restored levels (by omega),
      hy.restored levels (by omega)⟩

/-- A map is restored although its entries come as a list. -/
theorem restores_map_of_entries {m : NatMap α}
    (h : (L.list (L.pair L.word c)).Restores depth m.entries) : (L.map c).Restores depth m where
  plain := by
    rw [hL.write_map]
    exact h.plain
  restored := by
    intro levels hlevels
    rw [hL.write_map, hL.read_map, h.restored levels hlevels, Option.map_some,
      NatMap.ofList_entries]

theorem restores_map {m : NatMap α}
    (h : ∀ p ∈ m.entries, p.1 < wordLimit ∧ c.Restores depth p.2) :
    (L.map c).Restores (depth + 2) m :=
  hL.restores_map_of_entries <| hL.restores_list fun p hp =>
    hL.restores_pair (hL.restores_word (h p hp).1) (h p hp).2

theorem restores_record {fields : Fields α} (hnames : fields.names.Nodup) {x : α}
    (h : fields.Each (fun _ c _ x => c.Restores depth x) x) :
    (L.record fields).Restores (depth + 1) x where
  plain := by
    rw [hL.write_record]
    exact .record (Fields.plain_members (h.imp Codec.Restores.plain))
  restored := by
    intro levels hlevels
    obtain ⟨levels, rfl⟩ := Nat.exists_eq_add_one.2 (by omega : 0 < levels)
    rw [hL.write_record]
    exact hL.read_record hnames (h.imp fun hx => hx.restored levels (by omega))

theorem restores_choice {cases : Cases α} (htags : cases.tags.Nodup) {x : α}
    (h : cases.Inside (fun _ inner c x => c.Restores inner x) depth x) :
    (L.choice cases).Restores depth x where
  plain := by
    rw [hL.write_choice]
    refine Cases.plain_written (h.mono (Nat.le_refl depth) fun hle hx => ?_)
    exact hx.plain.mono hle
  restored := by
    intro levels hlevels
    rw [hL.write_choice]
    exact hL.read_choice htags (h.mono hlevels fun hle hx => hx.restored _ hle)

end Library.Lawful

end SyntaxTables.Json
