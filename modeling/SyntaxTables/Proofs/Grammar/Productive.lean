import SyntaxTables.Proofs.Grammar.First

/-!
# Grammars in which everything derives a string

First sets are computed whether or not the symbols behind the first one derive anything. Where all
non-terminals that matter derive some string, nothing is told in vain: each terminal in a first set,
and the empty string, begins a string that is derived. Which non-terminals matter is left open; it
may be all of them, or those that the start symbol leads to.
-/

namespace SyntaxTables.Grammar

open FirstSets

variable {g : Grammar} {live : Nat → Prop}

/-- Every live non-terminal derives a string, and leads to live non-terminals only. -/
structure Productive (g : Grammar) (live : Nat → Prop) : Prop where
  derives : ∀ n, live n → ∃ w, g.Yields [.nonterminal n] w
  body : ∀ {i p}, g.Usable i p → live p.lhs → ∀ n, .nonterminal n ∈ p.rhs → live n

/-- The non-terminals that the start symbol leads to. -/
inductive Reachable (g : Grammar) : Nat → Prop
  | start : Reachable g g.start
  | body {i n : Nat} {p : Production} :
    Reachable g p.lhs → g.Usable i p → .nonterminal n ∈ p.rhs → Reachable g n

/-- The start symbol leads to declared non-terminals only, because ill-formed productions do not
count. -/
theorem Reachable.declares (hstart : g.Declares (.nonterminal g.start)) {n : Nat}
    (h : g.Reachable n) : g.Declares (.nonterminal n) := by
  cases h with
  | start => exact hstart
  | body _ hp hn => exact hp.2.2 _ hn

def AllLive (live : Nat → Prop) (γ : List Symbol) : Prop := ∀ n, .nonterminal n ∈ γ → live n

theorem AllLive.tail {s : Symbol} {γ : List Symbol} (h : AllLive live (s :: γ)) : AllLive live γ :=
  fun n hn => h n (List.mem_cons_of_mem _ hn)

theorem AllLive.drop {γ : List Symbol} (h : AllLive live γ) (d : Nat) : AllLive live (γ.drop d) :=
  fun n hn => h n (List.mem_of_mem_drop hn)

/-- Whatever the sets tell of live non-terminals begins a string. -/
def FirstSound (g : Grammar) (live : Nat → Prop) (sets : FirstSets) : Prop :=
  ∀ n o, live n → (sets.ofNonterminal n).Has o →
    ∃ w is, g.Forest [.nonterminal n] w is ∧ w.head? = o

section Productive

variable (h : g.Productive live)

include h

theorem Productive.exists_forest {γ : List Symbol} (hγ : AllLive live γ) :
    ∃ w is, g.Forest γ w is := by
  induction γ with
  | nil => exact ⟨[], [], .nil⟩
  | cons s γ ih =>
    obtain ⟨w, is, hw⟩ := ih hγ.tail
    cases s with
    | terminal a => exact ⟨a :: w, is, .terminal a hw⟩
    | nonterminal n =>
      obtain ⟨v, js, hv⟩ := h.derives n (hγ n List.mem_cons_self)
      exact ⟨v ++ w, _, hv.forest.append hw⟩

theorem FirstSound.ofSequence {sets : FirstSets} (hs : g.FirstSound live sets) {γ : List Symbol}
    (hγ : AllLive live γ) {o : Option Nat} (ho : (sets.ofSequence γ).Has o) :
    ∃ w is, g.Forest γ w is ∧ w.head? = o := by
  induction γ with
  | nil =>
    obtain rfl : o = none := by simpa using ho
    exact ⟨[], [], .nil, rfl⟩
  | cons s γ ih =>
    cases s with
    | terminal a =>
      obtain rfl : o = some a := by simpa using ho
      obtain ⟨w, is, hw⟩ := h.exists_forest hγ.tail
      exact ⟨a :: w, is, .terminal a hw, rfl⟩
    | nonterminal n =>
      have hn := hγ n List.mem_cons_self
      rcases has_ofSequence_nonterminal.1 ho with ⟨hfirst, hne⟩ | ⟨hnull, hrest⟩
      · obtain ⟨v, js, hv, hhead⟩ := hs n o hn hfirst
        obtain ⟨w, is, hw⟩ := h.exists_forest hγ.tail
        obtain ⟨x, rfl⟩ := Option.ne_none_iff_exists'.1 hne
        exact ⟨v ++ w, js ++ is, hv.append hw, by simp [List.head?_append, hhead]⟩
      · obtain ⟨v, js, hv, hhead⟩ := hs n none hn hnull
        obtain ⟨w, is, hw, hrest⟩ := ih hγ.tail hrest
        obtain rfl := List.head?_eq_none_iff.1 hhead
        exact ⟨w, js ++ is, hv.append hw, hrest⟩

theorem FirstSound.addFirst {sets : FirstSets} (hs : g.FirstSound live sets) {i : Nat}
    {p : Production} (hp : g.Usable i p) : g.FirstSound live (addFirst sets p) := by
  intro n o hn ho
  rcases has_addFirst.1 ho with ho | ⟨rfl, -, ho⟩
  · exact hs n o hn ho
  · obtain ⟨w, is, hw, hhead⟩ := FirstSound.ofSequence h hs (h.body hp hn) ho
    have htree := Forest.nonterminal hp hw .nil
    rw [List.append_nil] at htree
    exact ⟨w, _, htree, hhead⟩

theorem Productive.firstSound : g.FirstSound live g.firstSets := by
  apply firstSets_induction
  · intro n o _ ho
    rw [ofNonterminal_replicate] at ho
    cases o <;> simp [FirstSet.Has] at ho
  · intro sets i p hp hs
    exact FirstSound.addFirst h hs hp

/-- A terminal that can come behind a mark, if `b` comes behind the production, comes first in a
string derived from what is behind the mark, with `b` behind it. -/
theorem Productive.exists_forest_of_mem_lookaheads {γ : List Symbol} (hγ : AllLive live γ)
    {x b : Nat} (hx : x ∈ g.firstSets.lookaheads γ b) :
    ∃ w is, g.Forest γ w is ∧ ∀ z e, z.headD e = b → (w ++ z).headD e = x := by
  rcases mem_lookaheads.1 hx with hx | ⟨hnull, rfl⟩
  · obtain ⟨w, is, hw, hhead⟩ := FirstSound.ofSequence h h.firstSound hγ hx
    refine ⟨w, is, hw, fun z e _ => ?_⟩
    simp [List.headD_eq_head?_getD, List.head?_append, hhead]
  · obtain ⟨w, is, hw, hhead⟩ := FirstSound.ofSequence h h.firstSound hγ hnull
    obtain rfl := List.head?_eq_none_iff.1 hhead
    exact ⟨[], is, hw, fun z e hz => hz⟩

theorem Productive.exists_mem_lookaheads {γ : List Symbol} (hγ : AllLive live γ) (b : Nat) :
    ∃ x, x ∈ g.firstSets.lookaheads γ b := by
  obtain ⟨w, is, hw⟩ := h.exists_forest hγ
  have hfirst := hw.has_first
  cases hhead : w.head? with
  | none => exact ⟨b, mem_lookaheads.2 (Or.inr ⟨hhead ▸ hfirst, rfl⟩)⟩
  | some x => exact ⟨x, mem_lookaheads.2 (Or.inl (hhead ▸ hfirst))⟩

end Productive

end SyntaxTables.Grammar
