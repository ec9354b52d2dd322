import Std.Data.TreeMap
import Std.Data.TreeSet

/-!
# Ascending lists

Sets are lists in strictly ascending order, so that equal sets are equal lists and a set can name a
state. `NatMap` is a map from numbers kept as a list of entries with ascending keys; the order is a
field of the type, so two maps with the same entries are equal. Search trees put things in order and
are then read off; no tree stays in a value.
-/

namespace SyntaxTables

open Std (TreeMap TreeSet TransOrd LawfulEqOrd)

namespace Ascending

variable {α β : Type} [Ord α]

/-- The elements of a list without repetition, in order. -/
def ofList (xs : List α) : List α := (TreeSet.ofList xs compare).toList

def union (xs ys : List α) : List α := ofList (xs ++ ys)

/-- Puts the value of a pair before those that its key has already. -/
def addPair (p : α × β) (m : TreeMap α (List β)) : TreeMap α (List β) :=
  m.alter p.1 fun vs => some (p.2 :: vs.getD [])

/-- The keys of some pairs in order, each with its values in the order of the pairs. -/
def groups (pairs : List (α × β)) : List (α × List β) := (pairs.foldr addPair ∅).toList

variable [TransOrd α]

theorem pairwise_ofList (xs : List α) : (ofList xs).Pairwise (fun a b => compare a b = .lt) :=
  TreeSet.ordered_toList

variable [LawfulEqOrd α]

@[simp] theorem mem_ofList {x : α} {xs : List α} : x ∈ ofList xs ↔ x ∈ xs := by
  have : DecidableEq α := fun _ _ => Classical.propDecidable _
  simp [ofList]

theorem mem_union {x : α} {xs ys : List α} : x ∈ union xs ys ↔ x ∈ xs ∨ x ∈ ys := by
  simp [union]

theorem getElem?_foldr_addPair [DecidableEq α] (pairs : List (α × β)) (k : α) :
    (pairs.foldr addPair ∅)[k]?.getD [] = (pairs.filter fun p => p.1 = k).map Prod.snd := by
  induction pairs with
  | nil => simp
  | cons p pairs ih =>
    rw [List.foldr_cons, addPair, TreeMap.getElem?_alter]
    by_cases h : p.1 = k
    · subst h
      simp [ih]
    · simp [h, ih]

end Ascending

/-- A finite map from numbers, as entries in strictly ascending order of their keys. -/
structure NatMap (β : Type) where
  entries : List (Nat × β)
  ascending : entries.Pairwise (fun a b => a.1 < b.1)

namespace NatMap

variable {β γ : Type}

theorem ext {m n : NatMap β} (h : m.entries = n.entries) : m = n := by
  cases m; cases n; cases h; rfl

instance [DecidableEq β] : DecidableEq (NatMap β) := fun m n =>
  if h : m.entries = n.entries then isTrue (ext h) else isFalse fun e => h (e ▸ rfl)

instance [Repr β] : Repr (NatMap β) := ⟨fun m p => reprPrec m.entries p⟩

def empty : NatMap β := ⟨[], .nil⟩

instance : EmptyCollection (NatMap β) := ⟨empty⟩

instance : Inhabited (NatMap β) := ⟨empty⟩

def ofTree (m : TreeMap Nat β) : NatMap β where
  entries := m.toList
  ascending := m.ordered_keys_toList.imp Nat.compare_eq_lt.1

/-- The map of a list of entries, where the last entry of a key counts. -/
def ofList (es : List (Nat × β)) : NatMap β := ofTree (TreeMap.ofList es compare)

def findEntry (k : Nat) : List (Nat × β) → Option β
  | [] => none
  | e :: es => if k = e.1 then some e.2 else findEntry k es

def get? (m : NatMap β) (k : Nat) : Option β := findEntry k m.entries

def size (m : NatMap β) : Nat := m.entries.length

theorem findEntry_eq_some_of_mem {k : Nat} {v : β} {es : List (Nat × β)}
    (h : es.Pairwise (fun a b => a.1 < b.1)) (hm : (k, v) ∈ es) : findEntry k es = some v := by
  induction es with
  | nil => simp at hm
  | cons e es ih =>
    obtain ⟨he, hes⟩ := List.pairwise_cons.1 h
    rw [findEntry]
    rcases List.mem_cons.1 hm with rfl | hm
    · simp
    · have := he _ hm
      rw [if_neg (by simp only at this; omega), ih hes hm]

theorem mem_of_findEntry_eq_some {k : Nat} {v : β} {es : List (Nat × β)}
    (h : findEntry k es = some v) : (k, v) ∈ es := by
  induction es with
  | nil => simp [findEntry] at h
  | cons e es ih =>
    rw [findEntry] at h
    split at h
    next hk =>
      obtain rfl := Option.some.inj h
      exact List.mem_cons.2 (.inl (by rw [hk]))
    next => exact List.mem_cons_of_mem _ (ih h)

theorem get?_eq_some_iff {m : NatMap β} {k : Nat} {v : β} :
    m.get? k = some v ↔ (k, v) ∈ m.entries :=
  ⟨mem_of_findEntry_eq_some, findEntry_eq_some_of_mem m.ascending⟩

theorem get?_ofTree (m : TreeMap Nat β) (k : Nat) : (ofTree m).get? k = m[k]? :=
  Option.ext fun v => by
    rw [get?_eq_some_iff, ofTree, TreeMap.mem_toList_iff_getElem?_eq_some]

end NatMap

end SyntaxTables
