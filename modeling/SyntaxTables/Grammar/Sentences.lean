import SyntaxTables.Ascending
import SyntaxTables.Exploration
import SyntaxTables.Grammar
import SyntaxTables.Interval

/-!
# Short sentences

All terminal strings up to a given length that the start symbol derives, by leftmost expansion. A
sentential form is dropped when its shortest possible yield is too long. Forms are also bounded in
length, so that symbols that derive the empty string cannot pile up forever.
-/

namespace SyntaxTables.Grammar

/-- Stands for the yield of a symbol that derives no terminal string; sums stop here. -/
def endlessYield : Nat := sizeLimit - 1

def symbolYield (yields : Array Nat) : Symbol → Nat
  | .terminal _ => 1
  | .nonterminal n => yields.getD n endlessYield

def formYield (yields : Array Nat) (form : List Symbol) : Nat :=
  form.foldl (fun total s => min endlessYield (total + symbolYield yields s)) 0

def lowerYield (yields : Array Nat) (p : Production) : Array Nat :=
  let least := formYield yields p.rhs
  yields.modify p.lhs fun y => min y least

/-- Passes over all productions until one changes nothing. -/
def yieldsWithin (g : Grammar) : Nat → Array Nat → Array Nat
  | 0, yields => yields
  | passes + 1, yields =>
    let lower := g.productions.foldl lowerYield yields
    if lower = yields then yields else g.yieldsWithin passes lower

/-- The length of the shortest terminal string that each non-terminal derives. A shortest derivation
does not nest a non-terminal in itself, so a pass per non-terminal settles all of them. -/
def minYields (g : Grammar) : Array Nat :=
  g.yieldsWithin (g.nonterminals.length + 1) (Array.replicate g.nonterminals.length endlessYield)

/-- No form that replaces another is longer than this, which is computed as a size in memory. -/
def formLimit (maxLength : Nat) : Nat := (2 * maxLength + 4) % sizeLimit

/-- The forms that replace the leftmost non-terminal of a form and can still yield a short
sentence. -/
def expansions (g : Grammar) (yields : Array Nat) (maxLength : Nat) (form : List Symbol) :
    List (List Symbol) :=
  match form.dropWhile Symbol.isTerminal with
  | .nonterminal n :: rest =>
    let next := (g.productions.filter fun p => p.lhs = n).map fun p =>
      form.takeWhile Symbol.isTerminal ++ p.rhs ++ rest
    next.filter fun form => form.length ≤ formLimit maxLength ∧ formYield yields form ≤ maxLength
  | _ => []

def usedSymbols (g : Grammar) : List Symbol :=
  .nonterminal g.start :: g.productions.flatMap Production.rhs

/-- The forms that can be found consist of used symbols and are not too long. -/
def Fits (g : Grammar) (maxLength : Nat) (form : List Symbol) : Prop :=
  form.length ≤ max 1 (formLimit maxLength) ∧ ∀ s ∈ form, s ∈ g.usedSymbols

theorem exists_all_forms (symbols : List Symbol) (length : Nat) :
    ∃ all : List (List Symbol),
      ∀ form, (form.length ≤ length ∧ ∀ s ∈ form, s ∈ symbols) → form ∈ all := by
  induction length with
  | zero => exact ⟨[[]], fun form h => by simp [List.eq_nil_of_length_eq_zero (Nat.le_zero.1 h.1)]⟩
  | succ n ih =>
    obtain ⟨all, hall⟩ := ih
    refine ⟨[] :: symbols.flatMap fun s => all.map (s :: ·), fun form h => ?_⟩
    cases form with
    | nil => exact .head _
    | cons s form =>
      obtain ⟨hs, hform⟩ := List.forall_mem_cons.1 h.2
      exact .tail _ (List.mem_flatMap.2 ⟨s, hs, List.mem_map.2
        ⟨form, hall form ⟨Nat.le_of_succ_le_succ h.1, hform⟩, rfl⟩⟩)

theorem fits_of_mem_expansions {g : Grammar} {yields : Array Nat} {maxLength : Nat}
    {form next : List Symbol} (h : g.Fits maxLength form)
    (hn : next ∈ g.expansions yields maxLength form) : g.Fits maxLength next := by
  unfold expansions at hn
  split at hn
  next n rest hd =>
    obtain ⟨hn, hl⟩ := List.mem_filter.1 hn
    obtain ⟨p, hp, rfl⟩ := List.mem_map.1 hn
    refine ⟨Nat.le_trans (of_decide_eq_true hl).1 (Nat.le_max_right ..), fun s hs => ?_⟩
    rcases List.mem_append.1 hs with hs | hs
    · rcases List.mem_append.1 hs with hs | hs
      · exact h.2 s ((List.takeWhile_sublist _).subset hs)
      · exact .tail _ (List.mem_flatMap.2 ⟨p, (List.mem_filter.1 hp).1, hs⟩)
    · have hs : s ∈ form.dropWhile Symbol.isTerminal := hd ▸ List.mem_cons_of_mem _ hs
      exact h.2 s ((List.dropWhile_sublist _).subset hs)
  next => cases hn

/-- Expanding keeps to the finitely many forms that fit. -/
theorem enclosed_expansions (g : Grammar) (yields : Array Nat) (maxLength : Nat) :
    Exploration.Enclosed (g.expansions yields maxLength) (g.Fits maxLength) :=
  ⟨exists_all_forms g.usedSymbols _, fun _ h _ hn => fits_of_mem_expansions h hn⟩

theorem fits_start (g : Grammar) (maxLength : Nat) : g.Fits maxLength [.nonterminal g.start] :=
  ⟨Nat.le_max_left .., by simp [usedSymbols]⟩

/-- The terminals of a form without non-terminals. -/
def sentence? (form : List Symbol) : Option (List Nat) :=
  form.mapM fun
    | .terminal t => some t
    | .nonterminal _ => none

/-- All sentences of at most the given length, ascending. -/
def sentences (g : Grammar) (maxLength : Nat) : List (List Nat) :=
  let forms := Exploration.exhaust (g.enclosed_expansions g.minYields maxLength)
    [.nonterminal g.start] (g.fits_start maxLength)
  Ascending.ofList (forms.filterMap sentence?)

/-- Every non-terminal in a production is declared; otherwise its yield cannot be asked for. -/
def DeclaresNonterminals (g : Grammar) : Prop :=
  ∀ p ∈ g.productions, ∀ s ∈ .nonterminal p.lhs :: p.rhs, s.isTerminal ∨ g.Declares s

instance (g : Grammar) : Decidable g.DeclaresNonterminals :=
  inferInstanceAs (Decidable (∀ p ∈ g.productions, ∀ s ∈ _, _))

end SyntaxTables.Grammar
