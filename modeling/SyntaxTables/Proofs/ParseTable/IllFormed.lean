import SyntaxTables.Proofs.Grammar.Pruning
import SyntaxTables.Proofs.ParseTable.RenumberedRun
import SyntaxTables.Proofs.ParseTable.Safety

/-!
# Ill-formed productions take no part

A production may name symbols that are not declared. Such productions are left aside where the first
sets are computed and where items are predicted, so what is looked up while a table is made is
always there. The table is the one that the other productions make on their own, with their numbers
in the whole list, and it parses in the same way.
-/

namespace SyntaxTables.Grammar

open LrAutomaton

variable {g : Grammar}

/-- While the table of a grammar is made, nothing is looked for that is not there: neither in the
first sets as far as they are known, nor in the tables from which sets of items are closed, nor
among the states that are led to when they are merged, nor in the rows that are filled. -/
structure LooksInside (g : Grammar) (settings : ParserSettings) : Prop where
  first : ∀ {sets : FirstSets} {p}, sets.size = g.nonterminals.length → p ∈ g.productions →
    g.WellFormed p → p.lhs < sets.size ∧ sets.Determines p.rhs ∧ (addFirst sets p).size = sets.size
  body : ∀ {s it}, g.canonicalLr.Holds s it → it.production < g.closureTable.bodies.size
  predicted : ∀ {s it n rest}, g.canonicalLr.Holds s it →
    (g.body it.production).drop it.dot = .nonterminal n :: rest →
      n < g.closureTable.alternatives.size ∧ g.closureTable.first.Determines rest
  target : ∀ {s x t}, g.canonicalLr.Edge s x t → t < g.canonicalLr.states.length
  row : ∀ row ∈ (g.parseTable (g.lrAutomaton settings)).action, row.length = g.width
  shift : ∀ {s x t}, (g.lrAutomaton settings).Edge s (.terminal x) t → x < g.width
  lookahead : ∀ {s it}, (g.lrAutomaton settings).Holds s it → it.lookahead < g.width
  reduction : ∀ {s it}, (g.lrAutomaton settings).Holds s it → it.production ≠ g.augmented →
    it.production < g.productions.length
  reported : ∀ c ∈ (g.parseTable (g.lrAutomaton settings)).conflicts, ∀ {i},
    c.kept = .reduce i ∨ c.dropped = .reduce i → i < g.productions.length

theorem Admits.lt_length {it : Item} (h : g.Admits it) (hne : it.production ≠ g.augmented) :
    it.production < g.productions.length := by
  obtain ⟨p, hp⟩ := h.production.resolve_left hne
  exact lt_length_of_usable hp

theorem Admits.le_augmented {it : Item} (h : g.Admits it) : it.production ≤ g.augmented := by
  by_cases hne : it.production = g.augmented
  · exact Nat.le_of_eq hne
  · exact Nat.le_of_lt (h.lt_length hne)

theorem looksInside (hstart : g.Declares (.nonterminal g.start)) (settings : ParserSettings) :
    g.LooksInside settings := by
  have hcanonical := faithful_canonicalLr hstart
  have hfaithful := faithful_lrAutomaton hstart settings
  have hreduce : ∀ {s x i}, Supports g (g.lrAutomaton settings) s x (.reduce i) →
      i < g.productions.length := fun hact => (hfaithful.admits hact.2).lt_length hact.1
  exact {
    first := fun hsize _ hp =>
      ⟨hsize ▸ hp.1, determines_of_size hsize hp.2, size_addFirst _ _⟩
    body := by
      intro s it hit
      have hle := (hcanonical.admits hit).le_augmented
      simp only [closureTable, List.size_toArray, List.length_map, List.length_range]
      omega
    predicted := by
      intro s it n rest hit hdrop
      have hdeclares : ∀ x ∈ Symbol.nonterminal n :: rest, g.Declares x := fun x hx =>
        (hcanonical.admits hit).declares hstart x (List.mem_of_mem_drop (hdrop ▸ hx))
      obtain ⟨hn, hrest⟩ := List.forall_mem_cons.1 hdeclares
      exact ⟨by simpa [closureTable, Declares] using hn, determines_firstSets hrest⟩
    target := fun he => (hcanonical.enters he).1
    row := by
      intro row hrow
      have hlength := List.mem_map_of_mem (f := List.length) hrow
      rw [length_rows hfaithful] at hlength
      exact (List.mem_replicate.1 hlength).2
    shift := fun he => Nat.lt_succ_of_lt (lt_eof_of_edge hfaithful he)
    lookahead := fun hit => (hfaithful.admits hit).lookahead
    reduction := fun hit => (hfaithful.admits hit).lt_length
    reported := by
      intro c hc i hi
      obtain ⟨k, kept, hk, hkept, -, heq⟩ := (mem_conflicts_parseTable hfaithful).1 hc
      rw [heq] at hi
      rcases hi with rfl | hi
      · exact hreduce (supports_of_action? hfaithful hkept)
      · obtain rfl := Action.reduce.inj hi
        exact hreduce hk }

/-- Without its ill-formed productions a grammar has the same table, but for the places of the
productions that stay. -/
theorem buildParser_pruned (hvalid : g.validate.1 = .ok ()) (hpruned : g.pruned.validate.1 = .ok ())
    (settings : ParserSettings) :
    g.LooksInside settings ∧
      (StrictMono g.position ∧ ∀ j, g.pruned.productions[j]? = g.productions[g.position j]?) ∧
      ∃ t reports t' reports', g.buildParser settings = (.ok t, reports) ∧
        g.pruned.buildParser settings = (.ok t', reports') ∧
        (∀ s it, (g.pruned.lrAutomaton settings).Holds s it ↔
          (g.lrAutomaton settings).Holds s (it.renumber g.position)) ∧
        t.RenumberedBy g.position t' ∧
        (∀ input, t.parse? input = (t'.parse? input).map (Except.map (List.map g.position))) ∧
        ∀ n input, t.run n (.initial input) =
          (t'.run n (.initial input)).map (Except.map (List.map g.position)) := by
  have hstart := declares_start_of_validate hvalid
  have halike := g.renumbered_pruned.alike_lrAutomaton hstart settings
  have hrenumbered := g.renumbered_pruned.renumberedBy_parseTable halike
    (faithful_lrAutomaton hstart settings)
    (faithful_lrAutomaton (declares_start_of_validate hpruned) settings)
    g.strictMono_position g.position_augmented fun j => (getElem?_pruned j).symm
  exact ⟨looksInside hstart settings, ⟨g.strictMono_position, getElem?_pruned⟩, _, _, _, _,
    buildParser_of_validate hvalid settings, buildParser_of_validate hpruned settings,
    fun s it => (Renumbered.holds_renumber_iff halike g.strictMono_position.injective
      g.position_augmented).symm,
    hrenumbered, hrenumbered.parse?_eq, fun n input => hrenumbered.run_eq n (.initial input)⟩

/-- Lists of one terminal, between productions with the end of input, a terminal and a non-terminal
that are not declared. -/
def undeclared : Grammar where
  terminals := ["a"]
  nonterminals := ["S"]
  start := 0
  productions := [⟨.normal, 0, [.terminal 1], none⟩,
    ⟨.normal, 0, [.terminal 0, .nonterminal 0], none⟩, ⟨.normal, 0, [.terminal 99], none⟩,
    ⟨.normal, 7, [.terminal 0], none⟩, ⟨.normal, 0, [.terminal 0], none⟩]

/-- The two productions that stay have the numbers 1 and 4 in the list. -/
theorem buildParser_pruned_undeclared :
    undeclared.validate.1 = .ok () ∧ undeclared.pruned.validate.1 = .ok () ∧
      undeclared.LooksInside {} ∧
      ∃ t reports t' reports', undeclared.buildParser {} = (.ok t, reports) ∧
        undeclared.pruned.buildParser {} = (.ok t', reports') ∧
        t.RenumberedBy undeclared.position t' ∧
        t'.parse? [0, 0] = some (.ok [1, 0]) ∧ t.parse? [0, 0] = some (.ok [4, 1]) := by
  have hvalid : undeclared.validate.1 = .ok () := by decide +kernel
  have hpruned : undeclared.pruned.validate.1 = .ok () := by decide +kernel
  obtain ⟨hinside, -, t, reports, t', reports', hbuilt, hbuilt', -, hrenumbered, hparse, -⟩ :=
    buildParser_pruned hvalid hpruned {}
  obtain ⟨-, rfl⟩ := eq_of_buildParser hbuilt'
  have hparse' : (undeclared.pruned.parseTable (undeclared.pruned.lrAutomaton {})).parse? [0, 0] =
      some (.ok [1, 0]) := by decide +kernel
  refine ⟨hvalid, hpruned, hinside, t, reports, _, reports', hbuilt, hbuilt', hrenumbered, hparse',
    ?_⟩
  rw [hparse, hparse']
  decide +kernel

end SyntaxTables.Grammar
