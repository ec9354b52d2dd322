import SyntaxTables.Proofs.Exploration.Queue

/-!
# Searches that end because there are finitely many nodes

A search that is only known to stay among finitely many nodes finds exactly what the seed leads to,
and a work list from the same seed ends with these nodes.
-/

namespace SyntaxTables.Exploration

open Std (TreeMap TreeSet TransOrd LawfulEqOrd)

variable {α : Type} [Ord α] [TransOrd α] [LawfulEqOrd α] {successors : α → List α}
  {inside : α → Prop}

theorem Layered.expand {x : α} {latest : List α} {known : TreeSet α}
    (h : Layered successors (x :: latest) known) :
    Layered successors ((successors x).foldl Findings.note ⟨latest, known⟩).latest
      ((successors x).foldl Findings.note ⟨latest, known⟩).known := by
  constructor
  · intro y hy
    rw [Findings.mem_known_foldl_note]
    rcases Findings.mem_latest_foldl_note.1 hy with hy | ⟨hy, -⟩
    · exact Or.inl (h.frontier_known y (List.mem_cons_of_mem x hy))
    · exact Or.inr hy
  · intro y hy
    rw [Findings.mem_latest_foldl_note]
    by_cases hyk : y ∈ known
    · rcases h.expanded y hyk with hyx | hyc
      · rcases List.mem_cons.1 hyx with rfl | hyl
        · exact Or.inr fun z hz => Findings.mem_known_foldl_note.2 (Or.inr hz)
        · exact Or.inl (Or.inl hyl)
      · exact Or.inr fun z hz => Findings.mem_known_foldl_note.2 (Or.inl (hyc z hz))
    · have hnew := (Findings.mem_known_foldl_note.1 hy).resolve_left hyk
      exact Or.inl (Or.inr ⟨hnew, hyk⟩)

/-- What is known in the end is closed, and is what was known or what the noted nodes lead to. -/
theorem exhaustFrom_spec (h : Enclosed successors inside) (f : Findings α)
    (hf : ∀ x ∈ f.latest, inside x) (hlayered : Layered successors f.latest f.known) :
    (∀ x ∈ f.known, x ∈ exhaustFrom h f hf) ∧
      (∀ x ∈ exhaustFrom h f hf, ∀ y ∈ successors x, y ∈ exhaustFrom h f hf) ∧
      ∀ x ∈ exhaustFrom h f hf, x ∈ f.known ∨ ∃ s ∈ f.latest, Reaches successors s x := by
  fun_induction exhaustFrom h f hf with
  | case1 known =>
    refine ⟨fun _ hx => hx, fun x hx => ?_, fun _ hx => Or.inl hx⟩
    exact (hlayered.expanded x hx).resolve_left (List.not_mem_nil)
  | case2 x latest known _ hf ih =>
    obtain ⟨hmono, hclosed, hsound⟩ := ih hlayered.expand
    refine ⟨fun y hy => hmono y (Findings.mem_known_foldl_note.2 (Or.inl hy)), hclosed, ?_⟩
    intro y hy
    rcases hsound y hy with hy | ⟨s, hs, hsy⟩
    · rcases Findings.mem_known_foldl_note.1 hy with hy | hy
      · exact Or.inl hy
      · exact Or.inr ⟨x, List.mem_cons_self, .single hy⟩
    · rcases Findings.mem_latest_foldl_note.1 hs with hs | ⟨hs, -⟩
      · exact Or.inr ⟨s, List.mem_cons_of_mem x hs, hsy⟩
      · exact Or.inr ⟨x, List.mem_cons_self, .head hs hsy⟩

theorem mem_exhaust (h : Enclosed successors inside) {seed : α} (hs : inside seed) {x : α} :
    x ∈ exhaust h seed hs ↔ Reaches successors seed x := by
  have hseed : ∀ y, y ∈ (TreeSet.empty : TreeSet α).insert seed ↔ y = seed := by
    intro y
    rw [TreeSet.mem_insert, Std.compare_eq_iff_eq]
    simp [eq_comm]
  have hlayered : Layered successors [seed] ((TreeSet.empty : TreeSet α).insert seed) :=
    ⟨fun y hy => (hseed y).2 (List.mem_singleton.1 hy),
      fun y hy => Or.inl (List.mem_singleton.2 ((hseed y).1 hy))⟩
  obtain ⟨hmono, hclosed, hsound⟩ := exhaustFrom_spec h ⟨[seed], TreeSet.empty.insert seed⟩
    (List.forall_mem_singleton.2 hs) hlayered
  rw [exhaust, TreeSet.mem_toList]
  constructor
  · intro hx
    rcases hsound x hx with hx | ⟨s, hs, hsx⟩
    · rw [(hseed x).1 hx]
    · rwa [List.mem_singleton.1 hs] at hsx
  · intro hx
    induction hx with
    | refl => exact hmono seed ((hseed seed).2 rfl)
    | tail _ hstep ih => exact hclosed _ ih _ hstep

/-- A work list that keeps to finitely many nodes ends, with exactly the nodes that a search
finds. -/
theorem exists_drains (h : Enclosed successors inside) {seed : α} (hs : inside seed) :
    ∃ nodes, Drains successors [] [seed] nodes ∧ ∀ x, x ∈ nodes ↔ x ∈ exhaust h seed hs := by
  obtain ⟨all, hall⟩ := h.finite
  have hinside : ∀ x, Reaches successors seed x → inside x := by
    intro x hx
    induction hx with
    | refl => exact hs
    | tail _ hstep ih => exact h.closed _ ih _ hstep
  have hreach : ∀ s ∈ [seed], ∀ x, Reaches successors s x → successors x ≠ [] → x ∈ all := by
    intro s hseed x hx _
    rw [List.mem_singleton.1 hseed] at hx
    exact hall x (hinside x hx)
  have hdistinct : distinct [seed] = [seed] := by simp [distinct, fresh, Findings.note]
  refine ⟨breadthFirst successors all.length [seed], ?_, fun x => ?_⟩
  · rw [← hdistinct]
    exact drains_breadthFirst all hreach (Nat.le_refl _)
  · rw [mem_breadthFirst_of_length_le all hreach (Nat.le_refl _), mem_exhaust]
    simp

end SyntaxTables.Exploration
