import SyntaxTables.Grammar.Sentences
import SyntaxTables.Proofs.Grammar.Derivation

/-!
# Least yields

A pass lowers the yield of each left-hand side to that of its bodies. Whatever a yield is lowered to
is the length of a string that is derived. In the other direction, a tree need not nest a
non-terminal in itself: the innermost tree of that non-terminal spells no more. So as many passes as
there are non-terminals are enough, and one more changes nothing.
-/

namespace SyntaxTables.Grammar

variable {g : Grammar} {yields lower : Array Nat} {γ δ : List Symbol}

/-! ### Yields of forms -/

theorem foldl_symbolYield (yields : Array Nat) (γ : List Symbol) {total : Nat}
    (ht : total ≤ endlessYield) :
    γ.foldl (fun total s => min endlessYield (total + symbolYield yields s)) total =
      min endlessYield (total + (γ.map (symbolYield yields)).sum) := by
  induction γ generalizing total with
  | nil => simpa using ht
  | cons s γ ih =>
    rw [List.foldl_cons, ih (Nat.min_le_left _ _), List.map_cons, List.sum_cons]
    omega

theorem formYield_eq (yields : Array Nat) (γ : List Symbol) :
    formYield yields γ = min endlessYield (γ.map (symbolYield yields)).sum := by
  rw [formYield, foldl_symbolYield yields γ (Nat.zero_le _), Nat.zero_add]

theorem formYield_cons (yields : Array Nat) (s : Symbol) (γ : List Symbol) :
    formYield yields (s :: γ) = min endlessYield (symbolYield yields s + formYield yields γ) := by
  rw [formYield_eq, formYield_eq, List.map_cons, List.sum_cons]
  omega

theorem formYield_singleton (yields : Array Nat) (s : Symbol) :
    formYield yields [s] = min endlessYield (symbolYield yields s) := by
  rw [formYield_eq, List.map_singleton, List.sum_singleton]

theorem formYield_terminals (yields : Array Nat) (w : List Nat) :
    formYield yields (w.map .terminal) = min endlessYield w.length := by
  have hones : w.map (symbolYield yields ∘ Symbol.terminal) = List.replicate w.length 1 :=
    List.map_const'
  rw [formYield_eq, List.map_map, hones]
  simp

/-- No symbol has a larger yield in the first array. -/
def YieldsLe (lower yields : Array Nat) : Prop :=
  ∀ s, symbolYield lower s ≤ symbolYield yields s

theorem YieldsLe.trans {least : Array Nat} (h : YieldsLe least lower) (h' : YieldsLe lower yields) :
    YieldsLe least yields :=
  fun s => Nat.le_trans (h s) (h' s)

theorem YieldsLe.formYield (h : YieldsLe lower yields) (γ : List Symbol) :
    formYield lower γ ≤ formYield yields γ := by
  induction γ with
  | nil => exact Nat.le_refl _
  | cons s γ ih =>
    rw [formYield_cons, formYield_cons]
    have hs := h s
    omega

/-! ### One pass -/

@[simp] theorem size_lowerYield (yields : Array Nat) (p : Production) :
    (lowerYield yields p).size = yields.size := by
  simp [lowerYield]

theorem symbolYield_lowerYield {p : Production} (hp : p.lhs < yields.size) (n : Nat) :
    symbolYield (lowerYield yields p) (.nonterminal n) =
      if n = p.lhs then min (symbolYield yields (.nonterminal n)) (formYield yields p.rhs)
      else symbolYield yields (.nonterminal n) := by
  simp only [symbolYield, lowerYield, Array.getD_eq_getD_getElem?, Array.getElem?_modify]
  by_cases hn : n = p.lhs
  · subst hn
    simp [hp]
  · simp [hn, Ne.symm hn]

theorem yieldsLe_lowerYield (yields : Array Nat) (p : Production) :
    YieldsLe (lowerYield yields p) yields := by
  intro s
  cases s with
  | terminal t => exact Nat.le_refl _
  | nonterminal n =>
    simp only [symbolYield, lowerYield, Array.getD_eq_getD_getElem?, Array.getElem?_modify]
    split_ifs
    · cases yields[n]? with
      | none => exact Nat.le_refl _
      | some y => exact Nat.min_le_left _ _
    · exact Nat.le_refl _

def yieldPass (g : Grammar) (yields : Array Nat) : Array Nat :=
  g.productions.foldl lowerYield yields

def endlessYields (g : Grammar) : Array Nat := Array.replicate g.nonterminals.length endlessYield

theorem size_foldl_lowerYield (ps : List Production) (yields : Array Nat) :
    (ps.foldl lowerYield yields).size = yields.size := by
  induction ps generalizing yields with
  | nil => rfl
  | cons p ps ih => rw [List.foldl_cons, ih, size_lowerYield]

theorem yieldsLe_foldl (ps : List Production) (yields : Array Nat) :
    YieldsLe (ps.foldl lowerYield yields) yields := by
  induction ps generalizing yields with
  | nil => exact fun s => Nat.le_refl _
  | cons p ps ih => exact (ih _).trans (yieldsLe_lowerYield yields p)

theorem symbolYield_yieldPass_le {p : Production} (hp : p ∈ g.productions)
    (hlhs : p.lhs < yields.size) :
    symbolYield (g.yieldPass yields) (.nonterminal p.lhs) ≤ formYield yields p.rhs := by
  obtain ⟨before, behind, hps⟩ := List.append_of_mem hp
  rw [yieldPass, hps, List.foldl_append, List.foldl_cons]
  rw [← size_foldl_lowerYield before yields] at hlhs
  refine Nat.le_trans (yieldsLe_foldl behind _ _) ?_
  rw [symbolYield_lowerYield hlhs, if_pos rfl]
  exact Nat.le_trans (Nat.min_le_right _ _) ((yieldsLe_foldl before yields).formYield p.rhs)

theorem eq_of_symbolYield_eq (hsize : lower.size = yields.size)
    (h : ∀ n, symbolYield lower (.nonterminal n) = symbolYield yields (.nonterminal n)) :
    lower = yields := by
  apply Array.ext hsize
  intro n hn hn'
  have hget := h n
  simpa [symbolYield, Array.getD_eq_getD_getElem?, hn, hn'] using hget

/-! ### Yields that are attained -/

/-- Each yield that is not endless is the length of a derived string. -/
def Attained (g : Grammar) (yields : Array Nat) : Prop :=
  ∀ n, symbolYield yields (.nonterminal n) < endlessYield →
    ∃ w is, g.Forest [.nonterminal n] w is ∧ w.length = symbolYield yields (.nonterminal n)

theorem Attained.exists_forest (h : g.Attained yields) (hγ : formYield yields γ < endlessYield) :
    ∃ w is, g.Forest γ w is ∧ w.length = formYield yields γ := by
  induction γ with
  | nil => exact ⟨[], [], .nil, rfl⟩
  | cons s γ ih =>
    rw [formYield_cons] at hγ ⊢
    obtain ⟨w, is, hw, hlength⟩ := ih (by omega)
    cases s with
    | terminal t =>
      refine ⟨t :: w, is, .terminal t hw, ?_⟩
      rw [List.length_cons, hlength, symbolYield] at *
      omega
    | nonterminal n =>
      obtain ⟨v, js, hv, hlength'⟩ := h n (by omega)
      refine ⟨v ++ w, js ++ is, hv.append hw, ?_⟩
      rw [List.length_append, hlength, hlength']
      omega

theorem Attained.lowerYield (h : g.Attained yields) {i : Nat} {p : Production} (hp : g.Usable i p)
    (hsize : yields.size = g.nonterminals.length) : g.Attained (lowerYield yields p) := by
  intro n hn
  have hlhs : p.lhs < yields.size := hsize ▸ hp.2.1
  rw [symbolYield_lowerYield hlhs] at hn ⊢
  split_ifs at hn ⊢ with heq
  · subst heq
    rcases Nat.le_total (symbolYield yields (.nonterminal p.lhs)) (formYield yields p.rhs) with
      hle | hle
    · rw [Nat.min_eq_left hle] at hn ⊢
      exact h _ hn
    · rw [Nat.min_eq_right hle] at hn ⊢
      obtain ⟨w, is, hw, hlength⟩ := h.exists_forest hn
      have htree := Forest.nonterminal hp hw .nil
      rw [List.append_nil] at htree
      exact ⟨w, _, htree, hlength⟩
  · exact h n hn

theorem Attained.foldl (h : g.Attained yields) {ps : List Production}
    (hps : ∀ p ∈ ps, ∃ i, g.Usable i p) (hsize : yields.size = g.nonterminals.length) :
    g.Attained (ps.foldl Grammar.lowerYield yields) := by
  induction ps generalizing yields with
  | nil => exact h
  | cons p ps ih =>
    obtain ⟨⟨i, hp⟩, hps⟩ := List.forall_mem_cons.1 hps
    exact ih (h.lowerYield hp hsize) hps (by rw [size_lowerYield, hsize])

section WellFormed

variable (hg : ∀ p ∈ g.productions, g.WellFormed p)

include hg

theorem exists_usable {p : Production} (hp : p ∈ g.productions) : ∃ i, g.Usable i p := by
  obtain ⟨i, hi⟩ := List.mem_iff_getElem?.1 hp
  exact ⟨i, hi, hg p hp⟩

theorem Attained.yieldPass (h : g.Attained yields) (hsize : yields.size = g.nonterminals.length) :
    g.Attained (g.yieldPass yields) :=
  h.foldl (fun _ hp => exists_usable hg hp) hsize

end WellFormed

/-! ### Trees that do not nest a non-terminal in itself -/

def UsesLhs (g : Grammar) (is : List Nat) (n : Nat) : Prop :=
  ∃ i ∈ is, ∃ p, g.Usable i p ∧ p.lhs = n

/-- In a forest with a tree of a non-terminal there is an innermost one. -/
theorem Forest.exists_innermost {w is : List Nat} (h : g.Forest γ w is) (n : Nat) :
    ¬ g.UsesLhs is n ∨ ∃ i p v js, g.Usable i p ∧ p.lhs = n ∧ g.Forest p.rhs v js ∧
      v.length ≤ w.length ∧ js ⊆ is ∧ ¬ g.UsesLhs js n := by
  induction h with
  | nil => exact Or.inl (by simp [UsesLhs])
  | terminal a _ ih =>
    refine ih.imp_right ?_
    rintro ⟨i, p, v, js, hp, hlhs, hv, hle, hsub, hnot⟩
    exact ⟨i, p, v, js, hp, hlhs, hv, Nat.le_succ_of_le hle, hsub, hnot⟩
  | @nonterminal i p γ v w is js hp hbody _ ihbody ih =>
    rcases ih with hrest | ⟨i', p', v', js', hp', hlhs, hv, hle, hsub, hnot⟩
    · rcases ihbody with hnone | ⟨i', p', v', js', hp', hlhs, hv, hle, hsub, hnot⟩
      · by_cases hlhs : p.lhs = n
        · refine Or.inr ⟨i, p, v, is, hp, hlhs, hbody, ?_, List.subset_append_left _ _, hnone⟩
          rw [List.length_append]
          exact Nat.le_add_right _ _
        · left
          rintro ⟨k, hk, q, hq, hqn⟩
          rcases List.mem_append.1 hk with hk | hk
          · exact hnone ⟨k, hk, q, hq, hqn⟩
          · rcases List.mem_cons.1 hk with rfl | hk
            · obtain rfl := Option.some.inj (hp.1.symm.trans hq.1)
              exact hlhs hqn
            · exact hrest ⟨k, hk, q, hq, hqn⟩
      · refine Or.inr ⟨i', p', v', js', hp', hlhs, hv, ?_, ?_, hnot⟩
        · rw [List.length_append]
          omega
        · exact List.Subset.trans hsub (List.subset_append_left _ _)
    · refine Or.inr ⟨i', p', v', js', hp', hlhs, hv, ?_, ?_, hnot⟩
      · rw [List.length_append]
        omega
      · exact List.Subset.trans hsub fun k hk =>
          List.mem_append_right _ (List.mem_cons_of_mem _ hk)

theorem Forest.usesLhs {n : Nat} {w is : List Nat} (h : g.Forest [.nonterminal n] w is) :
    g.UsesLhs is n := by
  cases h with
  | nonterminal hp _ _ => exact ⟨_, List.mem_append_right _ List.mem_cons_self, _, hp, rfl⟩

theorem UsesLhs.mono {n : Nat} {is js : List Nat} (h : g.UsesLhs js n) (hsub : js ⊆ is) :
    g.UsesLhs is n := by
  obtain ⟨i, hi, hp⟩ := h
  exact ⟨i, hsub hi, hp⟩

/-- A form yields no more than its trees spell if this holds of each tree. -/
theorem Forest.formYield_le_of_trees {w is : List Nat} (h : g.Forest γ w is)
    (htrees : ∀ n v js, g.Forest [.nonterminal n] v js → js ⊆ is →
      symbolYield yields (.nonterminal n) ≤ v.length) :
    formYield yields γ ≤ w.length := by
  induction h with
  | nil => exact Nat.le_refl _
  | terminal a _ ih =>
    have htail := ih htrees
    rw [formYield_cons, symbolYield, List.length_cons]
    omega
  | @nonterminal i p γ v w is js hp hbody _ _ ih =>
    have hin : is ++ [i] ⊆ is ++ i :: js := by
      rw [List.append_cons is i js]
      exact List.subset_append_left _ _
    have htree := Forest.nonterminal hp hbody .nil
    rw [List.append_nil] at htree
    have hhead := htrees p.lhs v _ htree hin
    have htail := ih fun n v ks hv hks => htrees n v ks hv
      (List.subset_append_of_subset_right _ (List.subset_cons_of_subset _ hks))
    rw [formYield_cons, List.length_append]
    omega

theorem size_iterate_yieldPass (passes : Nat) :
    (g.yieldPass^[passes] g.endlessYields).size = g.nonterminals.length := by
  induction passes with
  | zero => simp [endlessYields]
  | succ passes ih =>
    rw [Function.iterate_succ_apply']
    exact (size_foldl_lowerYield _ _).trans ih

/-- A pass for each non-terminal that a forest uses brings its yield down to what it spells. -/
theorem Forest.formYield_le {w is : List Nat} (h : g.Forest γ w is) {passes : Nat}
    {used : Finset Nat} (hused : ∀ n, g.UsesLhs is n → n ∈ used) (hcard : used.card ≤ passes) :
    formYield (g.yieldPass^[passes] g.endlessYields) γ ≤ w.length := by
  induction passes generalizing γ w is used with
  | zero =>
    refine h.formYield_le_of_trees fun n v js hv hjs => ?_
    have hmem := hused n (hv.usesLhs.mono hjs)
    rw [Finset.card_eq_zero.1 (Nat.le_zero.1 hcard)] at hmem
    exact absurd hmem (Finset.notMem_empty n)
  | succ passes ih =>
    refine h.formYield_le_of_trees fun n v js hv hjs => ?_
    -- the innermost tree of the same non-terminal does not use it again
    obtain ⟨i, p, u, ks, hp, rfl, hu, hle, hks, hnot⟩ :=
      (hv.exists_innermost n).resolve_left (not_not_intro hv.usesLhs)
    have hbelow : ∀ m, g.UsesLhs ks m → m ∈ used.erase p.lhs := by
      intro m hm
      refine Finset.mem_erase.2 ⟨?_, hused m (hm.mono (List.Subset.trans hks hjs))⟩
      rintro rfl
      exact hnot hm
    have hfewer : (used.erase p.lhs).card ≤ passes := by
      rw [Finset.card_erase_of_mem (hused p.lhs (hv.usesLhs.mono hjs))]
      omega
    have hlt : p.lhs < (g.yieldPass^[passes] g.endlessYields).size := by
      rw [size_iterate_yieldPass]
      exact hp.2.1
    rw [Function.iterate_succ_apply']
    calc symbolYield _ (.nonterminal p.lhs)
        ≤ formYield (g.yieldPass^[passes] g.endlessYields) p.rhs :=
          symbolYield_yieldPass_le (List.mem_of_getElem? hp.1) hlt
      _ ≤ u.length := ih hu hbelow hfewer
      _ ≤ v.length := hle

/-! ### The yields that are computed -/

theorem yieldsWithin_eq (passes : Nat) (yields : Array Nat) :
    g.yieldsWithin passes yields = g.yieldPass^[passes] yields := by
  induction passes generalizing yields with
  | zero => rfl
  | succ passes ih =>
    rw [yieldsWithin]
    by_cases hfixed : g.productions.foldl lowerYield yields = yields
    · have hpass : g.yieldPass yields = yields := hfixed
      simp only [hfixed, if_true, Function.iterate_fixed hpass]
    · simp only [hfixed, if_false]
      rw [Function.iterate_succ_apply]
      exact ih _

theorem minYields_eq (g : Grammar) :
    g.minYields = g.yieldPass^[g.nonterminals.length + 1] g.endlessYields :=
  yieldsWithin_eq _ _

theorem symbolYield_endlessYields (n : Nat) :
    symbolYield g.endlessYields (.nonterminal n) = endlessYield := by
  simp only [symbolYield, endlessYields, Array.getD_eq_getD_getElem?, Array.getElem?_replicate]
  split_ifs <;> rfl

theorem symbolYield_le_endless (passes n : Nat) :
    symbolYield (g.yieldPass^[passes] g.endlessYields) (.nonterminal n) ≤ endlessYield := by
  induction passes with
  | zero => exact Nat.le_of_eq (symbolYield_endlessYields n)
  | succ passes ih =>
    rw [Function.iterate_succ_apply']
    exact Nat.le_trans (yieldsLe_foldl _ _ _) ih

theorem Forest.iterate_yield_le {w is : List Nat} (h : g.Forest γ w is) :
    formYield (g.yieldPass^[g.nonterminals.length] g.endlessYields) γ ≤ w.length := by
  have hused : ∀ n, g.UsesLhs is n → n ∈ Finset.range g.nonterminals.length := by
    rintro n ⟨i, -, p, hp, rfl⟩
    exact Finset.mem_range.2 hp.2.1
  exact h.formYield_le hused (by simp)

section WellFormed

variable (hg : ∀ p ∈ g.productions, g.WellFormed p)

include hg

theorem attained_iterate (passes : Nat) :
    g.Attained (g.yieldPass^[passes] g.endlessYields) := by
  induction passes with
  | zero =>
    intro n hn
    exact absurd hn (Nat.not_lt.2 (Nat.le_of_eq (symbolYield_endlessYields n).symm))
  | succ passes ih =>
    rw [Function.iterate_succ_apply']
    exact ih.yieldPass hg (size_iterate_yieldPass passes)

/-- One more pass than there are non-terminals changes nothing. -/
theorem yieldPass_iterate :
    g.yieldPass (g.yieldPass^[g.nonterminals.length] g.endlessYields) =
      g.yieldPass^[g.nonterminals.length] g.endlessYields := by
  rw [← Function.iterate_succ_apply' g.yieldPass, Nat.succ_eq_add_one]
  apply eq_of_symbolYield_eq
  · rw [size_iterate_yieldPass, size_iterate_yieldPass]
  · intro n
    apply Nat.le_antisymm
    · rw [Function.iterate_succ_apply']
      exact yieldsLe_foldl _ _ _
    · rcases Nat.lt_or_ge (symbolYield (g.yieldPass^[g.nonterminals.length + 1] g.endlessYields)
        (.nonterminal n)) endlessYield with hlt | hge
      · obtain ⟨w, is, hw, hlength⟩ := attained_iterate hg _ n hlt
        have hle := hw.iterate_yield_le
        rwa [formYield_singleton, Nat.min_eq_right (symbolYield_le_endless _ n), hlength] at hle
      · exact Nat.le_trans (symbolYield_le_endless _ n) hge

/-- The passes end with the yields that are computed. -/
theorem minYields_spec :
    g.yieldPass^[g.nonterminals.length] g.endlessYields = g.minYields ∧
      g.yieldPass g.minYields = g.minYields := by
  have hfixed := yieldPass_iterate hg
  rw [minYields_eq, Function.iterate_succ_apply', hfixed]
  exact ⟨rfl, hfixed⟩

/-- No derived string is shorter than the yield that is computed. -/
theorem Forest.minYield_le {w is : List Nat} (h : g.Forest γ w is) :
    formYield g.minYields γ ≤ w.length := by
  rw [← (minYields_spec hg).1]
  exact h.iterate_yield_le

end WellFormed

end SyntaxTables.Grammar
