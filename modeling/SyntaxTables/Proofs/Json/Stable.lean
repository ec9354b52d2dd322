import SyntaxTables.Proofs.Json.Codec

/-!
# The written form of what was read

One value has many texts: a record may be given as an object or as an array, with its fields in any
order, and defaults are left out. A writer settles on one of them. What was read must be restored
from that one, and within the levels of brackets that were there, since a text may use up all of
them. The property carries over from the parts of a value to the value.
-/

namespace SyntaxTables.Json

variable {α β : Type} {levels : Nat} {c : Codec α} {e : Codec β}

/-- Whatever is read within so many levels is restored from its written form within as many. -/
structure Codec.Settles (c : Codec α) (levels : Nat) : Prop where
  restores : ∀ {j : Json} {x : α}, c.read levels j = some x → c.Restores levels x

theorem Codec.Settles.via {pack : α → β} {unpack : β → α} (h : c.Settles levels)
    (hunpack : ∀ x, unpack (pack x) = x) : (c.via pack unpack).Settles levels where
  restores := by
    intro j y hy
    obtain ⟨x, hx, rfl⟩ := Option.map_eq_some_iff.1 hy
    have hrestores := h.restores hx
    rw [← hunpack x] at hrestores
    exact hrestores.via (by rw [hunpack])

/-- What stands for a field that was not given is written, so it must itself be restored. -/
structure Codec.FieldSettles (c : Codec α) (missing : Missing α) (levels : Nat) : Prop where
  given : c.Settles levels
  notGiven : ∀ {x : α}, missing.Gives x → c.Restores levels x

theorem Codec.FieldSettles.required (h : c.Settles levels) : c.FieldSettles {} levels :=
  ⟨h, by simp [Missing.Gives]⟩

theorem Codec.FieldSettles.withDefault {x : α} (h : c.Settles levels) (hx : c.Restores levels x) :
    c.FieldSettles ⟨some x, some x⟩ levels where
  given := h
  notGiven := by
    intro y hy
    obtain rfl : x = y := by simpa [Missing.Gives] using hy
    exact hx

theorem exists_of_mem_mapM {γ δ : Type} {f : γ → Option δ} {xs : List γ} {ys : List δ}
    (hys : xs.mapM f = some ys) : ∀ y ∈ ys, ∃ x ∈ xs, f x = some y := by
  induction xs generalizing ys with
  | nil =>
    obtain rfl := Option.some.inj hys
    simp
  | cons x xs ih =>
    simp only [List.mapM_cons, Option.bind_eq_bind, Option.bind_eq_some_iff, Option.pure_def,
      Option.some.injEq] at hys
    obtain ⟨y, hy, zs, hzs, rfl⟩ := hys
    intro z hz
    rcases List.mem_cons.1 hz with rfl | hz
    · exact ⟨x, List.mem_cons_self, hy⟩
    · obtain ⟨w, hw, hwz⟩ := ih hzs z hz
      exact ⟨w, List.mem_cons_of_mem x hw, hwz⟩

namespace Library.Lawful

variable {L : Library} (hL : L.Lawful)

include hL

theorem ofText_toText_of_ofText (h : c.Settles depthLimit) {text : List UInt8} {x : α}
    (hx : L.ofText c text = some x) : L.ofText c (L.toText c x) = some x := by
  obtain ⟨j, -, hj⟩ := Option.bind_eq_some_iff.1 hx
  exact hL.ofText_toText_of_restores (h.restores hj) (Nat.le_refl depthLimit)

theorem settles_word : L.word.Settles levels :=
  ⟨fun hn => hL.restores_word (hL.read_word.1 hn).2⟩

theorem settles_string : L.string.Settles levels := ⟨fun _ => hL.restores_string _⟩

theorem exists_of_read_list {j : Json} {xs : List α}
    (h : ∀ inner, levels = inner + 1 → c.Settles inner)
    (hxs : (L.list c).read levels j = some xs) :
    ∃ inner, levels = inner + 1 ∧ ∀ x ∈ xs, c.Restores inner x := by
  obtain ⟨inner, items, rfl, rfl, hitems⟩ := hL.read_list.1 hxs
  refine ⟨inner, rfl, fun x hx => ?_⟩
  obtain ⟨i, -, hi⟩ := exists_of_mem_mapM hitems x hx
  exact (h inner rfl).restores hi

theorem settles_list (h : ∀ inner, levels = inner + 1 → c.Settles inner) :
    (L.list c).Settles levels where
  restores := by
    intro j xs hxs
    obtain ⟨inner, rfl, hitems⟩ := hL.exists_of_read_list h hxs
    exact hL.restores_list hitems

theorem settles_nullable (h : c.Settles levels) (hnull : ∀ x, c.write x ≠ .null) :
    (L.nullable c).Settles levels where
  restores := by
    intro j o ho
    refine hL.restores_nullable (fun x hx => ?_) fun x _ => hnull x
    by_cases hj : j = .null
    · rw [hj, hL.read_null] at ho
      obtain rfl := Option.some.inj ho
      cases hx
    · rw [hL.read_nullable c hj] at ho
      obtain ⟨y, hy, rfl⟩ := Option.map_eq_some_iff.1 ho
      obtain rfl := Option.some.inj hx
      exact h.restores hy

theorem settles_pair (hc : ∀ inner, levels = inner + 1 → c.Settles inner)
    (he : ∀ inner, levels = inner + 1 → e.Settles inner) : (L.pair c e).Settles levels where
  restores := by
    rintro j ⟨x, y⟩ hxy
    obtain ⟨inner, u, v, rfl, -, hx, hy⟩ := hL.read_pair.1 hxy
    exact hL.restores_pair ((hc inner rfl).restores hx) ((he inner rfl).restores hy)

/-- Of equal keys the last counts, so the entries that are written are among those that were
read. -/
theorem settles_map (h : ∀ levels, c.Settles levels) : (L.map c).Settles levels where
  restores := by
    intro j m hm
    rw [hL.read_map] at hm
    obtain ⟨es, hes, rfl⟩ := Option.map_eq_some_iff.1 hm
    obtain ⟨inner, rfl, hentries⟩ := hL.exists_of_read_list
      (fun inner _ => hL.settles_pair (fun _ _ => hL.settles_word) fun levels _ => h levels) hes
    exact hL.restores_map_of_entries
      (hL.restores_list fun p hp => hentries p (NatMap.mem_of_mem_entries_ofList hp))

theorem settles_record {fields : Fields α} (hnames : fields.names.Nodup)
    (h : ∀ inner, levels = inner + 1 → fields.All fun _ c missing =>
      c.FieldSettles missing inner) :
    (L.record fields).Settles levels where
  restores := by
    intro j x hx
    obtain ⟨inner, rfl, hfields⟩ := hL.of_read_record hx
    refine hL.restores_record hnames (hfields.imp_of_all (h inner rfl) ?_)
    rintro α c missing x hsettles (⟨j, hj⟩ | hmissing)
    · exact hsettles.given.restores hj
    · exact hsettles.notGiven hmissing

theorem settles_choice {cases : Cases α} (htags : cases.tags.Nodup)
    (h : ∀ inner, levels = inner + 1 → cases.All fun _ c => c.Settles inner) :
    (L.choice cases).Settles levels where
  restores := by
    intro j x hx
    refine hL.restores_choice htags ((hL.of_read_choice hx).imp_of_all h ?_)
    rintro α inner c x hsettles ⟨j, hj⟩
    exact hsettles.restores hj

end Library.Lawful

end SyntaxTables.Json
