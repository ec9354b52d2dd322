import Mathlib.Data.List.Basic
import SyntaxTables.Grammar.Rules

/-!
# Names and their numbers

A name is numbered by the place where it is first met. Names that are met one after another are
numbered as those of the whole sequence, so a table may be filled in any number of passes; and the
number that a name has got is its place in every longer list.
-/

namespace SyntaxTables

/-! ### Lists and tables that grow -/

theorem getElem?_concat_eq_some {α : Type} {xs : List α} {x y : α} {i : Nat} :
    (xs ++ [x])[i]? = some y ↔ xs[i]? = some y ∨ i = xs.length ∧ x = y := by
  rcases Nat.lt_trichotomy i xs.length with h | h | h
  · simp [List.getElem?_append_left h, Nat.ne_of_lt h]
  · simp [h]
  · have hlen : (xs ++ [x]).length ≤ i := by rw [List.length_append]; exact h
    simp [List.getElem?_eq_none hlen, List.getElem?_eq_none (Nat.le_of_lt h), Nat.ne_of_gt h]

theorem getElem?_idxOf_of_mem {xs : List String} {x : String} (h : x ∈ xs) :
    xs[xs.idxOf x]? = some x := by
  have hlt : xs.idxOf x < xs.length := List.idxOf_lt_length_iff.2 h
  rw [List.getElem?_eq_getElem hlt, List.getElem_idxOf]

theorem lookup_cons_eq_some {α : Type} {table : List (String × α)} {key name : String}
    {new value : α} (hnew : table.lookup key = none) :
    ((key, new) :: table).lookup name = some value ↔
      table.lookup name = some value ∨ value = new ∧ key = name := by
  rw [List.lookup_cons]
  by_cases h : name = key
  · subst h
    simp [hnew, eq_comm]
  · simp [beq_false_of_ne h, Ne.symm h]

theorem nodup_eraseDups : ∀ xs : List String, xs.eraseDups.Nodup
  | [] => List.nodup_nil
  | x :: xs => by
    rw [List.eraseDups_cons, List.nodup_cons, List.mem_eraseDups]
    exact ⟨by simp, nodup_eraseDups _⟩
termination_by xs => xs.length
decreasing_by exact Nat.lt_succ_of_le (List.length_filter_le _ _)

/-- The names that are not known yet, each once, in the order in which they are first met. -/
def newNames (known names : List String) : List String := (names.filter (· ∉ known)).eraseDups

variable {known names : List String} {name : String}

theorem mem_newNames : name ∈ newNames known names ↔ name ∈ names ∧ name ∉ known := by
  simp [newNames, List.mem_eraseDups]

theorem newNames_nil_left (names : List String) : newNames [] names = names.eraseDups := by
  simp [newNames]

@[simp] theorem newNames_nil_right (known : List String) : newNames known [] = [] := rfl

theorem newNames_singleton :
    newNames known [name] = if name ∈ known then [] else [name] := by
  split_ifs with h <;> simp [newNames, h, List.eraseDups_cons]

theorem newNames_congr {others : List String} (h : ∀ name, name ∈ known ↔ name ∈ others) :
    newNames known names = newNames others names := by
  simp only [newNames, h]

theorem newNames_append (known names more : List String) :
    newNames known (names ++ more) =
      newNames known names ++ newNames (known ++ newNames known names) more := by
  -- what is new of the rest after the first names is new at all and not among them
  have hknown : newNames (known ++ newNames known names) more =
      ((more.filter (· ∉ known)).removeAll (names.filter (· ∉ known))).eraseDups := by
    rw [newNames, List.removeAll, List.filter_filter]
    congr 1
    refine List.filter_congr fun name _ => ?_
    by_cases hknown : name ∈ known <;> simp [mem_newNames, hknown]
  rw [hknown, newNames, List.filter_append, List.eraseDups_append, newNames]

theorem eraseDups_append_eq (names more : List String) :
    (names ++ more).eraseDups = names.eraseDups ++ newNames names more := by
  rw [← newNames_nil_left, newNames_append, newNames_nil_left, List.nil_append]
  exact congrArg _ (newNames_congr fun _ => List.mem_eraseDups)

/-! ### Tables of names -/

namespace NameTable

variable {t : NameTable}

/-- The number of a name is its place. -/
structure Sound (t : NameTable) : Prop where
  lookup_eq_some : ∀ {name i}, t.numbers.lookup name = some i ↔ t.names[i]? = some name

theorem sound_empty : Sound {} := ⟨by simp⟩

theorem Sound.isSome_lookup (h : t.Sound) : (t.numbers.lookup name).isSome ↔ name ∈ t.names := by
  rw [Option.isSome_iff_exists, List.mem_iff_getElem?]
  exact exists_congr fun _ => h.lookup_eq_some

/-- A number stays the place of its name however the table grows. -/
theorem Sound.idxOf_eq (h : t.Sound) {i : Nat} (hi : t.names[i]? = some name)
    (hgrown : t.names <+: names) : names.idxOf name = i := by
  have hmem : name ∈ t.names := List.mem_of_getElem? hi
  obtain ⟨rest, rfl⟩ := hgrown
  rw [List.idxOf_append_of_mem hmem]
  have hplace := getElem?_idxOf_of_mem hmem
  exact Option.some.inj ((h.lookup_eq_some.2 hplace).symm.trans (h.lookup_eq_some.2 hi))

/-- A name has its number after it was looked up, and only a new name is added. -/
theorem Sound.intern (h : t.Sound) (name : String) :
    (t.intern name).2.Sound ∧ (t.intern name).2.names = t.names ++ newNames t.names [name] ∧
      (t.intern name).2.names[(t.intern name).1]? = some name := by
  unfold NameTable.intern
  cases hi : t.numbers.lookup name with
  | some i =>
    have hname : t.names[i]? = some name := h.lookup_eq_some.1 hi
    refine ⟨h, ?_, hname⟩
    rw [newNames_singleton, if_pos (List.mem_of_getElem? hname), List.append_nil]
  | none =>
    have hnew : name ∉ t.names := fun hmem => by
      have := h.isSome_lookup.2 hmem
      simp [hi] at this
    refine ⟨⟨?_⟩, by rw [newNames_singleton, if_neg hnew], by simp⟩
    intro n i
    rw [lookup_cons_eq_some hi, getElem?_concat_eq_some, h.lookup_eq_some]

/-- Names that are looked up one after another. -/
theorem Sound.foldl_intern (h : t.Sound) (names : List String) :
    (names.foldl (fun t name => (t.intern name).2) t).Sound ∧
      (names.foldl (fun t name => (t.intern name).2) t).names =
        t.names ++ newNames t.names names := by
  induction names generalizing t with
  | nil => exact ⟨h, by simp⟩
  | cons name names ih =>
    obtain ⟨hsound, hnames, -⟩ := h.intern name
    obtain ⟨hfinal, hall⟩ := ih hsound
    refine ⟨hfinal, ?_⟩
    rw [List.foldl_cons, hall, hnames, List.append_assoc, ← newNames_append, List.singleton_append]

end NameTable

/-! ### The symbols of a grammar -/

namespace Grammar

variable {g : Grammar} {id : Nat}

theorem declares_terminal (h : g.terminals[id]? = some name) :
    g.Declares (.terminal id) ∧ g.symbolName (.terminal id) = name := by
  obtain ⟨hlt, -⟩ := List.getElem?_eq_some_iff.1 h
  refine ⟨hlt, ?_⟩
  have hne : id ≠ g.eof := Nat.ne_of_lt hlt
  rw [symbolName, if_neg hne, List.getD_eq_getElem?_getD, h, Option.getD_some]

theorem declares_nonterminal (h : g.nonterminals[id]? = some name) :
    g.Declares (.nonterminal id) ∧ g.symbolName (.nonterminal id) = name := by
  obtain ⟨hlt, -⟩ := List.getElem?_eq_some_iff.1 h
  refine ⟨hlt, ?_⟩
  rw [symbolName, List.getD_eq_getElem?_getD, h, Option.getD_some]

end Grammar

end SyntaxTables
