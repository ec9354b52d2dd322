import SyntaxTables.Proofs.Grammar.Derivation
import SyntaxTables.Proofs.Lr.Merge

/-!
# Merging as a quotient

The merged automaton is the given one with the states of each core taken as one. Nothing is added
and nothing gets lost: a merged state has the items of the states that go into it, and its edges are
theirs, led on to where the targets go. That these edges never contradict each other is no matter of
the merging itself. It holds because what is predicted in a closed set, and so what stands behind
the marks, depends on the cores alone.
-/

namespace SyntaxTables

namespace LrAutomaton

variable {g : Grammar} {a : LrAutomaton}

/-- An automaton is another one with the states of each core taken as one, where `rep` says what
becomes of a state. -/
structure QuotientBy (a b : LrAutomaton) (rep : Nat → Nat) : Prop where
  onto : ∀ {m}, m < b.states.length ↔ ∃ s < a.states.length, rep s = m
  core_iff : ∀ {s t q r}, a.states[s]? = some q → a.states[t]? = some r →
    (rep s = rep t ↔ q.core = r.core)
  items : ∀ {m it}, b.Holds m it ↔ ∃ s, a.Holds s it ∧ rep s = m
  edges : ∀ {m x n}, b.Edge m x n ↔ ∃ s t, a.Edge s x t ∧ rep s = m ∧ rep t = n

theorem exists_place_eq {m : Nat} (hm : m < a.cores.length) :
    ∃ s q, a.states[s]? = some q ∧ a.place s = m := by
  obtain ⟨q, hq, hnumber⟩ := exists_number_eq hm
  obtain ⟨s, hs⟩ := List.mem_iff_getElem?.1 hq
  exact ⟨s, q, hs, (place_eq hs).trans hnumber⟩

theorem quotientBy_mergeCores (h : Faithful g a) (hu : a.Uniform) :
    a.QuotientBy a.mergeCores a.place where
  onto := by
    intro m
    rw [length_mergeCores]
    constructor
    · intro hm
      obtain ⟨s, q, hq, hplace⟩ := exists_place_eq hm
      exact ⟨s, (List.getElem?_eq_some_iff.1 hq).1, hplace⟩
    · rintro ⟨s, hs, rfl⟩
      exact place_lt (List.getElem?_eq_getElem hs)
  core_iff := place_eq_place_iff
  items := holds_mergeCores
  edges := edge_mergeCores h hu

/-- Merged states differ from the states that go into them in lookaheads only. -/
theorem Faithful.core_mergeCores (h : Faithful g a) {s : Nat} {q r : LrState}
    (hr : a.states[s]? = some r) (hq : a.mergeCores.states[a.place s]? = some q) :
    q.core = r.core := by
  have hitems : ∀ it, it ∈ q.items ↔ ∃ t, a.Holds t it ∧ a.place t = a.place s := by
    intro it
    rw [← holds_iff_mem hq, holds_mergeCores]
  apply LrState.core_eq_of_coresIn
  · obtain ⟨-, rfl⟩ := getElem?_mergeCores.1 hq
    exact Ascending.pairwise_ofList _
  · exact h.ascending r (List.mem_of_getElem? hr)
  · intro it hit
    obtain ⟨t, hholds, hplace⟩ := (hitems it).1 hit
    obtain ⟨b, hb⟩ := exists_holds_of_place hholds hplace (List.getElem?_eq_some_iff.1 hr).1
    exact ⟨_, (holds_iff_mem hr).1 hb, rfl⟩
  · intro it hit
    exact ⟨it, (hitems it).2 ⟨s, ⟨r, hr, hit⟩, rfl⟩, rfl⟩

theorem Faithful.map_core_mergeCores (h : Faithful g a) :
    a.mergeCores.states.map LrState.core = a.cores := by
  apply List.ext_getElem
  · rw [List.length_map, length_mergeCores]
  · intro m hm hcores
    obtain ⟨s, r, hr, rfl⟩ := exists_place_eq hcores
    have hlt : a.place s < a.mergeCores.states.length := by rwa [length_mergeCores]
    have hcore := h.core_mergeCores hr (List.getElem?_eq_getElem hlt)
    have hplace := getElem?_cores (List.mem_of_getElem? hr)
    rw [← place_eq hr, List.getElem?_eq_getElem hcores, Option.some.injEq] at hplace
    rw [List.getElem_map, hcore, hplace]

end LrAutomaton

namespace Grammar

variable {g : Grammar}

/-- States of one core have edges on the same symbols, to targets of one core. -/
theorem exists_edge_of_core_eq (hstart : g.Declares (.nonterminal g.start)) {s s' t : Nat}
    {x : Symbol} {q q' : LrState} (hq : g.canonicalLr.states[s]? = some q)
    (hq' : g.canonicalLr.states[s']? = some q') (hcore : q.core = q'.core)
    (he : g.canonicalLr.Edge s x t) :
    ∃ t' r r', g.canonicalLr.Edge s' x t' ∧ g.canonicalLr.states[t]? = some r ∧
      g.canonicalLr.states[t']? = some r' ∧ r.core = r'.core := by
  have hfaithful := faithful_canonicalLr hstart
  obtain ⟨t', he'⟩ := hfaithful.exists_edge he hq hq' hcore
  have hr := List.getElem?_eq_getElem (hfaithful.enters he).1
  have hr' := List.getElem?_eq_getElem (hfaithful.enters he').1
  refine ⟨t', _, _, he', hr, hr', ?_⟩
  exact uniform_canonicalLr hstart hq hq' hr hr' ((LrAutomaton.edge_iff_target? hq).1 he)
    ((LrAutomaton.edge_iff_target? hq').1 he') hcore

/-- What merging makes of the canonical automaton of a grammar that validation lets pass. An edge
that is put down where there is one already is the same edge. -/
theorem mergeCores_canonicalLr (h : g.validate.1 = .ok ()) :
    (g.canonicalLr.mergeCores.states.map LrState.core).Nodup ∧
      g.canonicalLr.mergeCores.Holds 0 ⟨g.augmented, 0, g.eof⟩ ∧
      (∃ rep, g.canonicalLr.QuotientBy g.canonicalLr.mergeCores rep ∧
        ∀ s s' x t t', g.canonicalLr.Edge s x t → g.canonicalLr.Edge s' x t' →
          rep s = rep s' → rep t = rep t') ∧
      ∀ s s' x t q q', g.canonicalLr.states[s]? = some q → g.canonicalLr.states[s']? = some q' →
        q.core = q'.core → g.canonicalLr.Edge s x t →
          ∃ t' r r', g.canonicalLr.Edge s' x t' ∧ g.canonicalLr.states[t]? = some r ∧
            g.canonicalLr.states[t']? = some r' ∧ r.core = r'.core := by
  have hstart := declares_start_of_validate h
  have hfaithful := faithful_canonicalLr hstart
  have huniform : g.canonicalLr.Uniform := uniform_canonicalLr hstart
  have hquotient := LrAutomaton.quotientBy_mergeCores hfaithful huniform
  refine ⟨?_, ?_, ⟨g.canonicalLr.place, hquotient, ?_⟩, ?_⟩
  · rw [hfaithful.map_core_mergeCores]
    exact Exploration.nodup_distinct _
  · exact (LrAutomaton.Faithful.mergeCores hfaithful huniform).start
  · intro s s' x t t' he he' hrep
    have hmerged := hquotient.edges.2 ⟨s, t, he, rfl, rfl⟩
    have hmerged' := hquotient.edges.2 ⟨s', t', he', hrep.symm, rfl⟩
    exact hmerged.unique hmerged'
  · intro s s' x t q q' hq hq' hcore he
    exact exists_edge_of_core_eq hstart hq hq' hcore he

/-- A grammar with three cores that two states share each, as what follows the first `C` is not what
follows the second. -/
def doubled : Grammar where
  terminals := ["c", "d"]
  nonterminals := ["S", "C"]
  start := 0
  productions := [⟨.normal, 0, [.nonterminal 1, .nonterminal 1], none⟩,
    ⟨.normal, 1, [.terminal 0, .nonterminal 1], none⟩, ⟨.normal, 1, [.terminal 1], none⟩]

theorem mergeCores_canonicalLr_doubled :
    doubled.canonicalLr.states.length = 10 ∧ doubled.canonicalLr.mergeCores.states.length = 7 ∧
      (doubled.canonicalLr.mergeCores.states.map LrState.core).Nodup ∧
      doubled.canonicalLr.mergeCores.Holds 0 ⟨3, 0, 2⟩ ∧
      (∃ rep, doubled.canonicalLr.QuotientBy doubled.canonicalLr.mergeCores rep ∧
        ∀ s s' x t t', doubled.canonicalLr.Edge s x t → doubled.canonicalLr.Edge s' x t' →
          rep s = rep s' → rep t = rep t') ∧
      ∀ s s' x t q q', doubled.canonicalLr.states[s]? = some q →
        doubled.canonicalLr.states[s']? = some q' → q.core = q'.core →
          doubled.canonicalLr.Edge s x t → ∃ t' r r', doubled.canonicalLr.Edge s' x t' ∧
            doubled.canonicalLr.states[t]? = some r ∧
              doubled.canonicalLr.states[t']? = some r' ∧ r.core = r'.core := by
  have hvalid : doubled.validate.1 = .ok () := by decide +kernel
  exact ⟨by decide +kernel, by decide +kernel, mergeCores_canonicalLr hvalid⟩

end Grammar

end SyntaxTables
