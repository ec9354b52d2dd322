import SyntaxTables.Format.Lexicon
import SyntaxTables.Proofs.Json.Reader

/-!
# The laws of the strict library

The strict library obeys all laws that are relied on, and so does its codec of patterns.
-/

namespace SyntaxTables.Json

variable {α : Type}

/-! ### Records -/

theorem filter_named {members : List (String × Json)} (h : (members.map Prod.fst).Nodup)
    {m : String × Json} (hm : m ∈ members) :
    (named members).filter (fun n => n.1 = some m.1) = [(some m.1, m.2)] := by
  induction members with
  | nil => simp at hm
  | cons n ns ih =>
    obtain ⟨hn, hns⟩ := List.nodup_cons.1 h
    rw [named_cons]
    rcases List.mem_cons.1 hm with rfl | hm
    · have hrest : (named ns).filter (fun l => l.1 = some m.1) = [] := by
        rw [List.filter_eq_nil_iff]
        intro l hl heq
        obtain ⟨k, hk, rfl⟩ := List.mem_map.1 hl
        have hkm : k.1 = m.1 := by simpa using heq
        exact hn (hkm ▸ List.mem_map_of_mem hk)
      rw [List.filter_cons_of_pos (by simp), hrest]
    · have hne : n.1 ≠ m.1 := fun heq => hn (heq ▸ List.mem_map_of_mem hm)
      rw [List.filter_cons_of_neg (by simpa using hne), ih hns hm]

namespace Fields

variable {fields : Fields α} {levels : Nat}

theorem map_fst_members (fields : Fields α) (x : α) :
    (fields.members x).map Prod.fst = fields.names := by
  induction fields with
  | nil => rfl
  | cons name c missing rest ih =>
    rw [members, List.map_cons, ih]
    rfl

/-- Members that are there under their names are read, whatever others there are. -/
theorem ofMembers?_eq_some {ms : List (Option String × Json)} {x : α}
    (hms : ∀ m ∈ fields.members x, ms.filter (fun n => n.1 = some m.1) = [(some m.1, m.2)])
    (h : fields.Each (fun _ c _ x => c.read levels (c.write x) = some x) x) :
    fields.ofMembers? levels ms = some x := by
  induction fields with
  | nil => rfl
  | cons name c missing rest ih =>
    obtain ⟨x, y⟩ := x
    rw [members, List.forall_mem_cons] at hms
    simp [ofMembers?, ofMember?, hms.1, h.1, ih hms.2 h.2]

theorem each_of_ofMembers? {ms : List (Option String × Json)} {x : α}
    (h : fields.ofMembers? levels ms = some x) :
    fields.Each (fun _ c missing x => (∃ j, c.read levels j = some x) ∨ missing.Gives x) x := by
  induction fields with
  | nil => trivial
  | cons name c missing rest ih =>
    simp only [ofMembers?, Option.bind_eq_bind, Option.bind_eq_some_iff, Option.pure_def,
      Option.some.injEq] at h
    obtain ⟨x, hx, y, hy, rfl⟩ := h
    refine ⟨?_, ih hy⟩
    unfold ofMember? at hx
    split at hx
    next => exact Or.inr (Or.inl hx)
    next m _ => exact Or.inl ⟨_, hx⟩
    next => cases hx

theorem each_of_ofItems? {items : List Json} {x : α}
    (h : fields.ofItems? levels items = some x) :
    fields.Each (fun _ c missing x => (∃ j, c.read levels j = some x) ∨ missing.Gives x) x := by
  induction fields generalizing items with
  | nil => trivial
  | cons name c missing rest ih =>
    cases items with
    | nil =>
      simp only [ofItems?, Option.bind_eq_bind, Option.bind_eq_some_iff, Option.pure_def,
        Option.some.injEq] at h
      obtain ⟨x, hx, y, hy, rfl⟩ := h
      exact ⟨Or.inr (Or.inr hx), ih hy⟩
    | cons j js =>
      simp only [ofItems?, Option.bind_eq_bind, Option.bind_eq_some_iff, Option.pure_def,
        Option.some.injEq] at h
      obtain ⟨x, hx, y, hy, rfl⟩ := h
      exact ⟨Or.inl ⟨j, hx⟩, ih hy⟩

theorem decode_members (hnames : fields.names.Nodup) {x : α}
    (h : fields.Each (fun _ c _ x => c.read levels (c.write x) = some x) x) :
    fields.decode (levels + 1) (record (fields.members x)) = some x := by
  have hsome : (named (fields.members x)).any (fun m => m.1.isNone) = false := by simp [named]
  rw [record_eq, decode, hsome]
  refine ofMembers?_eq_some (fun m hm => filter_named ?_ hm) h
  rwa [map_fst_members]

theorem each_of_decode {j : Json} {x : α} (h : fields.decode levels j = some x) :
    ∃ inner, levels = inner + 1 ∧
      fields.Each (fun _ c missing x => (∃ j, c.read inner j = some x) ∨ missing.Gives x) x := by
  unfold decode at h
  split at h
  next inner members =>
    split_ifs at h
    exact ⟨inner, rfl, each_of_ofMembers? h⟩
  next inner items => exact ⟨inner, rfl, each_of_ofItems? h⟩
  next => cases h

end Fields

/-! ### Choices -/

namespace Cases

variable {cases : Cases α} {levels : Nat}

theorem inside_of_ofName? {P : ∀ α : Type, Nat → Codec α → α → Prop} {name : String} {x : α}
    (h : cases.ofName? name = some x) : cases.Inside P levels x := by
  induction cases with
  | nil => cases h
  | bare tag rest ih =>
    unfold ofName? at h
    split_ifs at h with htag
    · obtain rfl := Option.some.inj h
      trivial
    · obtain ⟨y, hy, rfl⟩ := Option.map_eq_some_iff.1 h
      exact ih hy
  | holding tag c rest ih =>
    unfold ofName? at h
    split_ifs at h with htag
    obtain ⟨y, hy, rfl⟩ := Option.map_eq_some_iff.1 h
    exact ih hy

theorem inside_of_ofContent? {name : String} {content : Json} {x : α}
    (h : cases.ofContent? levels content name = some x) :
    cases.Inside (fun _ inner c x => ∃ j, c.read inner j = some x) (levels + 1) x := by
  induction cases with
  | nil => cases h
  | bare tag rest ih =>
    unfold ofContent? at h
    split_ifs at h with htag
    · obtain ⟨x, -, rfl⟩ := Option.map_eq_some_iff.1 h
      trivial
    · obtain ⟨y, hy, rfl⟩ := Option.map_eq_some_iff.1 h
      exact ih hy
  | holding tag c rest ih =>
    unfold ofContent? at h
    split_ifs at h with htag
    · obtain ⟨x, hx, rfl⟩ := Option.map_eq_some_iff.1 h
      exact ⟨levels, rfl, content, hx⟩
    · obtain ⟨y, hy, rfl⟩ := Option.map_eq_some_iff.1 h
      exact ih hy

theorem inside_of_decode {j : Json} {x : α} (h : cases.decode levels j = some x) :
    cases.Inside (fun _ inner c x => ∃ j, c.read inner j = some x) levels x := by
  unfold decode at h
  split at h
  next => exact inside_of_ofName? h
  next => exact inside_of_ofContent? h
  next => cases h

/-- The case of a value is found under this tag, as a name or with what it holds. -/
def Found (cases : Cases α) (levels : Nat) (tag : String) (x : α) : Prop :=
  cases.written x = ofString tag ∧ cases.ofName? tag = some x ∨
    ∃ inner content, levels = inner + 1 ∧ cases.written x = tagged tag content ∧
      cases.ofContent? inner content tag = some x

/-- Readers that pass over the first case find all others as before. -/
theorem Found.later {β : Type} {rest : Cases β} {f : β → α} {tag : String} {y : β}
    (h : rest.Found levels tag y) (hwritten : cases.written (f y) = rest.written y)
    (hname : cases.ofName? tag = (rest.ofName? tag).map f)
    (hcontent : ∀ inner content,
      cases.ofContent? inner content tag = (rest.ofContent? inner content tag).map f) :
    cases.Found levels tag (f y) := by
  rcases h with ⟨hy, hfound⟩ | ⟨inner, content, hinner, hy, hfound⟩
  · exact Or.inl ⟨hwritten.trans hy, by rw [hname, hfound, Option.map_some]⟩
  · exact Or.inr ⟨inner, content, hinner, hwritten.trans hy,
      by rw [hcontent, hfound, Option.map_some]⟩

theorem found_of_inside (htags : cases.tags.Nodup) {x : α}
    (h : cases.Inside (fun _ inner c x => c.read inner (c.write x) = some x) levels x) :
    ∃ tag ∈ cases.tags, cases.Found levels tag x := by
  induction cases with
  | nil => cases x
  | bare tag rest ih =>
    obtain ⟨hnew, hrest⟩ := List.nodup_cons.1 htags
    cases x with
    | inl x => exact ⟨tag, List.mem_cons_self, Or.inl ⟨rfl, if_pos rfl⟩⟩
    | inr y =>
      obtain ⟨name, hname, hfound⟩ := ih hrest h
      have hne : name ≠ tag := fun heq => hnew (heq ▸ hname)
      exact ⟨name, List.mem_cons_of_mem tag hname,
        hfound.later rfl (if_neg hne) fun _ _ => if_neg hne⟩
  | holding tag c rest ih =>
    obtain ⟨hnew, hrest⟩ := List.nodup_cons.1 htags
    cases x with
    | inl x =>
      obtain ⟨inner, hinner, hx⟩ := h
      refine ⟨tag, List.mem_cons_self, Or.inr ⟨inner, c.write x, hinner, rfl, ?_⟩⟩
      rw [ofContent?, if_pos rfl, hx, Option.map_some]
    | inr y =>
      obtain ⟨name, hname, hfound⟩ := ih hrest h
      have hne : name ≠ tag := fun heq => hnew (heq ▸ hname)
      exact ⟨name, List.mem_cons_of_mem tag hname,
        hfound.later rfl (if_neg hne) fun _ _ => if_neg hne⟩

theorem decode_written (htags : cases.tags.Nodup) {x : α}
    (h : cases.Inside (fun _ inner c x => c.read inner (c.write x) = some x) levels x) :
    cases.decode levels (cases.written x) = some x := by
  obtain ⟨tag, -, ⟨hwritten, hx⟩ | ⟨inner, content, rfl, hwritten, hx⟩⟩ := found_of_inside htags h
  · rw [hwritten, ofString, decode, hx]
  · rw [hwritten]
    exact hx

end Cases

/-! ### The library -/

theorem list_eq_some_iff {d : Decoder α} {levels : Nat} {j : Json} {xs : List α} :
    Decoder.list d levels j = some xs ↔
      ∃ inner items, levels = inner + 1 ∧ j = .array items ∧ items.mapM (d inner) = some xs := by
  constructor
  · intro h
    unfold Decoder.list at h
    split at h
    next inner items => exact ⟨inner, items, rfl, rfl, h⟩
    next => cases h
  · rintro ⟨inner, items, rfl, rfl, h⟩
    exact h

theorem pair_eq_some_iff {β : Type} {d : Decoder α} {e : Decoder β} {levels : Nat} {j : Json}
    {x : α} {y : β} : Decoder.pair d e levels j = some (x, y) ↔
      ∃ inner u v, levels = inner + 1 ∧ j = .array [u, v] ∧ d inner u = some x ∧
        e inner v = some y := by
  constructor
  · intro h
    unfold Decoder.pair at h
    split at h
    next inner u v =>
      simp only [Option.bind_eq_bind, Option.bind_eq_some_iff, Option.pure_def, Option.some.injEq,
        Prod.mk.injEq] at h
      obtain ⟨_, hx, _, hy, rfl, rfl⟩ := h
      exact ⟨inner, u, v, rfl, rfl, hx, hy⟩
    next => cases h
  · rintro ⟨inner, u, v, rfl, rfl, hx, hy⟩
    simp [Decoder.pair, hx, hy]

theorem word_eq_some_iff {levels : Nat} {j : Json} {n : Nat} :
    Decoder.word levels j = some n ↔ j = .natural n ∧ n < wordLimit := by
  unfold Decoder.word
  split
  next m =>
    rw [Option.ite_none_right_eq_some, natural.injEq]
    constructor
    · rintro ⟨h, heq⟩
      obtain rfl := Option.some.inj heq
      exact ⟨rfl, h⟩
    · rintro ⟨rfl, h⟩
      exact ⟨h, rfl⟩
  next hne => exact iff_of_false (by simp) fun h => hne _ h.1

theorem string_eq_some_iff {levels : Nat} {j : Json} {s : String} :
    Decoder.string levels j = some s ↔ j = ofString s := by
  unfold Decoder.string
  split
  next value => simp [ofString]
  next hne => exact iff_of_false (by simp) fun h => hne _ h

theorem lawful_strict : Library.strict.Lawful where
  parse_print := read?_toBytes
  write_word _ := rfl
  read_word := word_eq_some_iff
  write_string _ := rfl
  read_string := string_eq_some_iff
  write_nullable _ _ := rfl
  read_null _ _ := rfl
  read_nullable _ _ _ hne := Decoder.nullable.eq_2 _ _ _ hne
  write_list _ _ := rfl
  read_list := list_eq_some_iff
  write_pair _ _ _ _ := rfl
  read_pair := pair_eq_some_iff
  write_map _ _ := rfl
  read_map _ _ _ := rfl
  write_record _ _ := rfl
  read_record hnames := Fields.decode_members hnames
  of_read_record := Fields.each_of_decode
  write_choice _ _ := rfl
  read_choice htags := Cases.decode_written htags
  of_read_choice := Cases.inside_of_decode

end SyntaxTables.Json

namespace SyntaxTables.Pattern

open Json

theorem partsToJson_eq (parts : List Pattern) : partsToJson parts = parts.map toJson := by
  induction parts with
  | nil => rfl
  | cons p ps ih => rw [partsToJson, ih, List.map_cons]

theorem toJson_eq (p : Pattern) : p.toJson = (layer .strict strict).write p := by
  cases p <;> simp [toJson, partsToJson_eq] <;> rfl

theorem ofName?_cases (name : String) : (cases .strict strict).ofName? name = none := by
  simp [cases, Cases.ofName?]

theorem decode_eq (levels : Nat) (j : Json) :
    decode levels j = (layer .strict strict).read levels j := by
  unfold decode
  split
  next inner tag content =>
    change _ = ((cases .strict strict).ofContent? inner content tag).map ofContent
    split
    -- In a list of parts, the codec of lists and the one of their items both use up a level.
    case h_4 | h_5 => cases inner <;> cases content <;> simp [cases, Cases.ofContent?] <;> rfl
    case h_10 hranges hnegated hstr hconcat hunion hoptional hstar hplus href =>
      simp only [cases, Cases.ofContent?, if_neg hranges, if_neg hnegated, if_neg hstr,
        if_neg hconcat, if_neg hunion, if_neg hoptional, if_neg hstar, if_neg hplus, if_neg href,
        Option.map_none]
    all_goals
      simp only [cases, Cases.ofContent?, String.reduceEq, if_true, if_false, Option.map_map]
      rfl
  next hother =>
    change _ = ((cases .strict strict).decode levels j).map ofContent
    unfold Cases.decode
    split
    next name => rw [ofName?_cases, Option.map_none]
    next inner name content => exact (hother inner name content rfl rfl).elim
    next => rfl

theorem strict_eq_layer : strict = layer .strict strict := by
  have hread : decode = (layer .strict strict).read :=
    funext fun levels => funext (decode_eq levels)
  have hwrite : toJson = (layer .strict strict).write := funext toJson_eq
  exact congrArg₂ Codec.mk hwrite hread

end SyntaxTables.Pattern
