import Mathlib.Tactic
import SyntaxTables.Nfa.Thompson
import SyntaxTables.Proofs.Ascending
import SyntaxTables.Proofs.Exploration

/-!
# Paths of an automaton

A path reads a string along the edges it takes. A part of the arena that no edge leaves keeps its
paths whatever is added elsewhere. If one silent edge is added that leaves such a part, then a path
out of it reads first what leads to the source of this edge, and if other silent edges lead from
there back into the part, it may go round any number of times in between.
-/

namespace SyntaxTables.Nfa

variable {α : Type} {a b : Nfa} {reads : α → Nat → Prop}

/-! ### Single states -/

theorem state_of_size_le {s : Nat} (h : a.size ≤ s) : a.state s = {} := by
  have hnone : a.states[s]? = none := Array.getElem?_eq_none_iff.2 h
  simp [state, Array.getD_eq_getD_getElem?, hnone]

theorem state_addState (a : Nfa) (s : Nat) : a.addState.state s = a.state s := by
  simp only [state, addState, Array.getD_eq_getD_getElem?, Array.getElem?_push]
  split_ifs with hs
  · simp [hs]
  · rfl

theorem state_modify (states : Array NfaState) (start u s : Nat) (f : NfaState → NfaState)
    (hu : u < states.size) :
    state { states := states.modify u f, start := start } s =
      if s = u then f (states.getD u {}) else states.getD s {} := by
  simp only [state, Array.getD_eq_getD_getElem?, Array.getElem?_modify]
  split_ifs with hs hs' hs'
  · subst hs
    simp [hu]
  · exact absurd hs.symm hs'
  · exact absurd hs'.symm hs
  · rfl

theorem state_addSilent {u : Nat} (hu : u < a.size) (v s : Nat) :
    (a.addSilent u v).state s =
      if s = u then { a.state u with silent := (a.state u).silent ++ [v] } else a.state s :=
  state_modify a.states a.start u s _ hu

theorem state_addEdge {u : Nat} (hu : u < a.size) (x v s : Nat) :
    (a.addEdge u x v).state s =
      if s = u then { a.state u with edges := (a.state u).edges ++ [(x, v)] } else a.state s :=
  state_modify a.states a.start u s _ hu

theorem state_setLabel {u : Nat} (hu : u < a.size) (label : Label) (s : Nat) :
    (a.setLabel u label).state s =
      if s = u then { a.state u with label := some label } else a.state s :=
  state_modify a.states a.start u s _ hu

theorem mem_successors {s t : Nat} :
    t ∈ a.successors s ↔ (∃ x, (x, t) ∈ (a.state s).edges) ∨ t ∈ (a.state s).silent := by
  simp [successors]

/-! ### Paths -/

/-- A path along which a string is read, where `reads` tells the symbols that read a letter. -/
inductive Path (a : Nfa) (reads : α → Nat → Prop) : Nat → List α → Nat → Prop
  | nil (s : Nat) : Path a reads s [] s
  | silent {s t u : Nat} {w : List α} :
    t ∈ (a.state s).silent → Path a reads t w u → Path a reads s w u
  | edge {s t u x : Nat} {c : α} {w : List α} :
    (x, t) ∈ (a.state s).edges → reads c x → Path a reads t w u → Path a reads s (c :: w) u

theorem Path.trans {s t u : Nat} {v w : List α} (h : a.Path reads s v t)
    (h' : a.Path reads t w u) : a.Path reads s (v ++ w) u := by
  induction h with
  | nil s => exact h'
  | silent hs _ ih => exact .silent hs (ih h')
  | edge he hr _ ih => exact .edge he hr (ih h')

theorem Path.first {s t : Nat} {w : List α} (h : a.Path reads s w t) :
    w = [] ∧ t = s ∨ (∃ r ∈ (a.state s).silent, a.Path reads r w t) ∨
      ∃ c v x r, w = c :: v ∧ (x, r) ∈ (a.state s).edges ∧ reads c x ∧ a.Path reads r v t := by
  cases h with
  | nil => exact Or.inl ⟨rfl, rfl⟩
  | silent hs hp => exact Or.inr (Or.inl ⟨_, hs, hp⟩)
  | edge he hr hp => exact Or.inr (Or.inr ⟨_, _, _, _, rfl, he, hr, hp⟩)

/-- Before a first letter is read, a path takes silent edges only. -/
theorem Path.of_cons {c : α} {s t : Nat} {w : List α} (h : a.Path reads s (c :: w) t) :
    ∃ q x r, a.Path reads s [] q ∧ (x, r) ∈ (a.state q).edges ∧ reads c x ∧
      a.Path reads r w t := by
  generalize hv : c :: w = v at h
  induction h with
  | nil => simp at hv
  | silent hs _ ih =>
    obtain ⟨q, x, r, hq, hrest⟩ := ih hv
    exact ⟨q, x, r, .silent hs hq, hrest⟩
  | @edge s r _ x _ _ he hread hp _ =>
    obtain ⟨rfl, rfl⟩ := List.cons.inj hv
    exact ⟨s, x, r, .nil s, he, hread, hp⟩

theorem Path.of_edges_eq {s t : Nat} {w : List α} (h : a.Path reads s w t)
    (hedges : ∀ s, (b.state s).edges = (a.state s).edges)
    (hsilent : ∀ s, (b.state s).silent = (a.state s).silent) : b.Path reads s w t := by
  induction h with
  | nil s => exact .nil s
  | silent hs _ ih => exact .silent (hsilent _ ▸ hs) ih
  | edge he hr _ ih => exact .edge (hedges _ ▸ he) hr ih

theorem Path.eq_of_no_successors {s t : Nat} {w : List α} (h : a.Path reads s w t)
    (hs : a.successors s = []) : w = [] ∧ t = s := by
  rcases h.first with hnil | ⟨r, hr, -⟩ | ⟨c, v, x, r, -, hr, -⟩
  · exact hnil
  · exact absurd (mem_successors.2 (Or.inr hr)) (by simp [hs])
  · exact absurd (mem_successors.2 (Or.inl ⟨x, hr⟩)) (by simp [hs])

theorem path_nil_iff {s t : Nat} :
    a.Path reads s [] t ↔ Exploration.Reaches (fun s => (a.state s).silent) s t := by
  constructor
  · generalize hw : ([] : List α) = w
    intro h
    induction h with
    | nil => exact .refl
    | silent hs _ ih => exact .head hs (ih hw)
    | edge => simp at hw
  · intro h
    induction h using Relation.ReflTransGen.head_induction_on with
    | refl => exact .nil t
    | head hs _ ih => exact .silent hs ih

theorem mem_closure {seeds : List Nat} {t : Nat} :
    t ∈ a.closure seeds ↔
      ∃ s ∈ seeds, Exploration.Reaches (fun s => (a.state s).silent) s t := by
  unfold closure
  rw [Ascending.mem_ofList]
  apply Exploration.mem_breadthFirst_of_length_le (List.range a.size)
  · intro s _ t _ hne
    rw [List.mem_range]
    by_contra hle
    exact hne (by rw [state_of_size_le (Nat.not_lt.1 hle)])
  · simp

theorem silentlyReaches_iff {s t : Nat} :
    a.silentlyReaches s t = true ↔ a.Path reads s [] t := by
  rw [path_nil_iff, silentlyReaches, decide_eq_true_eq, mem_closure]
  simp

/-! ### Parts that no edge leaves -/

def Closed (a : Nfa) (part : Nat → Prop) : Prop := ∀ s, part s → ∀ t ∈ a.successors s, part t

section Closed

variable {part : Nat → Prop} {s t : Nat} {w : List α}

theorem Closed.of_path (h : a.Closed part) (hp : a.Path reads s w t) (hs : part s) : part t := by
  induction hp with
  | nil => exact hs
  | silent ht _ ih => exact ih (h _ hs _ (mem_successors.2 (Or.inr ht)))
  | edge he _ _ ih => exact ih (h _ hs _ (mem_successors.2 (Or.inl ⟨_, he⟩)))

theorem Closed.of_same (h : a.Closed part) (hsame : ∀ s, part s → b.state s = a.state s) :
    b.Closed part := by
  intro s hs t ht
  rw [successors, hsame s hs] at ht
  exact h s hs t ht

theorem Closed.path_of_same (h : a.Closed part) (hsame : ∀ s, part s → b.state s = a.state s)
    (hp : a.Path reads s w t) (hs : part s) : b.Path reads s w t := by
  induction hp with
  | nil s => exact .nil s
  | silent ht _ ih =>
    refine .silent ?_ (ih (h _ hs _ (mem_successors.2 (Or.inr ht))))
    rwa [hsame _ hs]
  | edge he hr _ ih =>
    refine .edge ?_ hr (ih (h _ hs _ (mem_successors.2 (Or.inl ⟨_, he⟩))))
    rwa [hsame _ hs]

/-- Paths in a closed part depend on its states only. -/
theorem Closed.path_iff (h : a.Closed part) (hsame : ∀ s, part s → b.state s = a.state s)
    (hs : part s) : b.Path reads s w t ↔ a.Path reads s w t :=
  ⟨fun hp => (h.of_same hsame).path_of_same (fun s hs => (hsame s hs).symm) hp hs,
    fun hp => h.path_of_same hsame hp hs⟩

/-- Where a closed part is found again under other numbers, the paths from it are found again. -/
theorem Closed.path_map_iff {place : Nat → Nat} (h : a.Closed part)
    (hsame : ∀ s, part s → b.state (place s) = (a.state s).moveTargets place)
    (hinj : ∀ r s, part r → place r = place s → r = s) (hs : part s) :
    b.Path reads (place s) w (place t) ↔ a.Path reads s w t := by
  constructor
  · generalize hu : place s = u
    generalize hv : place t = v
    intro hp
    induction hp generalizing s with
    | nil r =>
      obtain rfl := hinj s t hs (hu.trans hv.symm)
      exact .nil s
    | silent hr _ ih =>
      subst hu
      rw [hsame s hs] at hr
      obtain ⟨r, hsr, rfl⟩ := List.mem_map.1 hr
      exact .silent hsr (ih (h s hs r (mem_successors.2 (Or.inr hsr))) rfl hv)
    | edge hr hc _ ih =>
      subst hu
      rw [hsame s hs] at hr
      obtain ⟨⟨x, r⟩, hsr, he⟩ := List.mem_map.1 hr
      obtain ⟨rfl, rfl⟩ := Prod.mk.inj he
      exact .edge hsr hc (ih (h s hs r (mem_successors.2 (Or.inl ⟨x, hsr⟩))) rfl hv)
  · intro hp
    induction hp with
    | nil r => exact .nil _
    | @silent s r _ _ hr _ ih =>
      refine .silent ?_ (ih (h s hs r (mem_successors.2 (Or.inr hr))))
      rw [hsame s hs]
      exact List.mem_map.2 ⟨r, hr, rfl⟩
    | @edge s r _ x _ _ hr hc _ ih =>
      refine .edge ?_ hc (ih (h s hs r (mem_successors.2 (Or.inl ⟨x, hr⟩))))
      rw [hsame s hs]
      exact List.mem_map.2 ⟨(x, r), hr, rfl⟩

/-- To a state that no edge of a part leads to, there is no way but to begin there. -/
theorem Closed.eq_of_no_predecessor (h : a.Closed part) (hp : a.Path reads s w t)
    (hnone : ∀ s, part s → t ∉ a.successors s) (hs : part s) : w = [] ∧ s = t := by
  induction hp with
  | nil => exact ⟨rfl, rfl⟩
  | silent ht _ ih =>
    have hmem := mem_successors.2 (Or.inr ht)
    obtain ⟨-, rfl⟩ := ih hnone (h _ hs _ hmem)
    exact absurd hmem (hnone _ hs)
  | edge he _ _ ih =>
    have hmem := mem_successors.2 (Or.inl ⟨_, he⟩)
    obtain ⟨-, rfl⟩ := ih hnone (h _ hs _ hmem)
    exact absurd hmem (hnone _ hs)

/-- The second automaton has the same states in a part, but for one that has more silent edges. -/
structure Opened (a b : Nfa) (part : Nat → Prop) (source : Nat) (targets : List Nat) : Prop where
  closed : a.Closed part
  same : ∀ s, part s → s ≠ source → b.state s = a.state s
  edges : (b.state source).edges = (a.state source).edges
  silent : (b.state source).silent = (a.state source).silent ++ targets

theorem Opened.edges_eq {source : Nat} {targets : List Nat} (h : Opened a b part source targets)
    (hs : part s) : (b.state s).edges = (a.state s).edges := by
  by_cases he : s = source
  · rw [he]
    exact h.edges
  · rw [h.same s hs he]

theorem Opened.mem_silent {source : Nat} {targets : List Nat} (h : Opened a b part source targets)
    (hs : part s) : t ∈ (b.state s).silent ↔ t ∈ (a.state s).silent ∨ s = source ∧ t ∈ targets := by
  by_cases he : s = source
  · subst he
    simp [h.silent]
  · rw [h.same s hs he]
    simp [he]

theorem Opened.path {source : Nat} {targets : List Nat} (h : Opened a b part source targets)
    (hp : a.Path reads s w t) (hs : part s) : b.Path reads s w t := by
  induction hp with
  | nil s => exact .nil s
  | silent ht _ ih =>
    exact .silent ((h.mem_silent hs).2 (Or.inl ht))
      (ih (h.closed _ hs _ (mem_successors.2 (Or.inr ht))))
  | edge he hr _ ih =>
    exact .edge (by rwa [h.edges_eq hs]) hr
      (ih (h.closed _ hs _ (mem_successors.2 (Or.inl ⟨_, he⟩))))

/-- A path in the opened part either needs no new edge or takes one for a first time. -/
theorem Opened.exists_first {source : Nat} {targets : List Nat}
    (h : Opened a b part source targets) (hp : b.Path reads s w t) (hs : part s) :
    a.Path reads s w t ∨ ∃ u v, w = u ++ v ∧ a.Path reads s u source ∧
      ∃ target ∈ targets, b.Path reads target v t := by
  induction hp with
  | nil s => exact Or.inl (.nil s)
  | silent ht hp ih =>
    rcases (h.mem_silent hs).1 ht with ht | ⟨rfl, ht⟩
    · rcases ih (h.closed _ hs _ (mem_successors.2 (Or.inr ht))) with hp | ⟨u, v, rfl, hu, hv⟩
      · exact Or.inl (.silent ht hp)
      · exact Or.inr ⟨u, v, rfl, .silent ht hu, hv⟩
    · exact Or.inr ⟨[], _, rfl, .nil _, _, ht, hp⟩
  | edge he hr hp ih =>
    rw [h.edges_eq hs] at he
    rcases ih (h.closed _ hs _ (mem_successors.2 (Or.inl ⟨_, he⟩))) with hp | ⟨u, v, rfl, hu, hv⟩
    · exact Or.inl (.edge he hr hp)
    · exact Or.inr ⟨_ :: u, v, rfl, .edge he hr hu, hv⟩

/-- Over the only new edge the part is left. -/
theorem Opened.path_out_iff {source out : Nat} (h : Opened a b part source [out])
    (hsource : part source) (hs : part s) (ht : ¬ part t) :
    b.Path reads s w t ↔
      ∃ u v, w = u ++ v ∧ a.Path reads s u source ∧ b.Path reads out v t := by
  constructor
  · intro hp
    rcases h.exists_first hp hs with hp | ⟨u, v, rfl, hu, target, htarget, hv⟩
    · exact absurd (h.closed.of_path hp hs) ht
    · rw [List.mem_singleton] at htarget
      exact ⟨u, v, rfl, hu, htarget ▸ hv⟩
  · rintro ⟨u, v, rfl, hu, hv⟩
    refine (h.path hu hs).trans (.silent ?_ hv)
    exact (h.mem_silent hsource).2 (Or.inr ⟨rfl, List.mem_cons_self⟩)

/-- A path that ends outside of the opened part leaves it over a new edge. Until then it goes round
over new edges that lead back into the part. -/
theorem Opened.exists_last {source out : Nat} {back : List Nat}
    (h : Opened a b part source (back ++ [out])) (hback : ∀ s ∈ back, part s)
    (hp : b.Path reads s w t) (hs : part s) (ht : ¬ part t) :
    ∃ (u : List α) (rounds : List (List α)) (v : List α),
      w = u ++ (rounds.flatten ++ v) ∧ a.Path reads s u source ∧
      (∀ x ∈ rounds, ∃ s ∈ back, a.Path reads s x source) ∧ b.Path reads out v t := by
  induction hp with
  | nil s => exact absurd hs ht
  | silent hst hp ih =>
    rcases (h.mem_silent hs).1 hst with hst | ⟨rfl, hst⟩
    · obtain ⟨u, rounds, v, rfl, hu, hrounds, hv⟩ :=
        ih (h.closed _ hs _ (mem_successors.2 (Or.inr hst))) ht
      exact ⟨u, rounds, v, rfl, .silent hst hu, hrounds, hv⟩
    · rcases List.mem_append.1 hst with hst | hst
      · obtain ⟨u, rounds, v, rfl, hu, hrounds, hv⟩ := ih (hback _ hst) ht
        exact ⟨[], u :: rounds, v, by simp, .nil _,
          List.forall_mem_cons.2 ⟨⟨_, hst, hu⟩, hrounds⟩, hv⟩
      · rw [List.mem_singleton] at hst
        subst hst
        exact ⟨[], [], _, rfl, .nil _, by simp, hp⟩
  | edge he hr hp ih =>
    rw [h.edges_eq hs] at he
    obtain ⟨u, rounds, v, rfl, hu, hrounds, hv⟩ :=
      ih (h.closed _ hs _ (mem_successors.2 (Or.inl ⟨_, he⟩))) ht
    exact ⟨_ :: u, rounds, v, rfl, .edge he hr hu, hrounds, hv⟩

theorem Opened.path_last {source out : Nat} {back : List Nat}
    (h : Opened a b part source (back ++ [out])) (hsource : part source)
    (hback : ∀ s ∈ back, part s) {u v : List α} {rounds : List (List α)} (hs : part s)
    (hu : a.Path reads s u source) (hrounds : ∀ x ∈ rounds, ∃ s ∈ back, a.Path reads s x source)
    (hv : b.Path reads out v t) : b.Path reads s (u ++ (rounds.flatten ++ v)) t := by
  apply (h.path hu hs).trans
  clear hu
  induction rounds with
  | nil =>
    exact .silent ((h.mem_silent hsource).2 (Or.inr ⟨rfl, by simp⟩)) hv
  | cons x rounds ih =>
    obtain ⟨⟨r, hr, hx⟩, hrounds⟩ := List.forall_mem_cons.1 hrounds
    rw [List.flatten_cons, List.append_assoc]
    refine .silent ((h.mem_silent hsource).2 (Or.inr ⟨rfl, List.mem_append_left _ hr⟩)) ?_
    exact (h.path hx (hback r hr)).trans (ih hrounds)

end Closed

end SyntaxTables.Nfa
