import SyntaxTables.Proofs.ParseTable.Continuation

/-!
# Runs end

At one terminal a run could reduce forever in two ways: building up the stack with productions that
derive nothing, or passing through the same states over and over at one height. Above a state, the
run does the same over every stack that has this state on top. One of these stacks can be continued
by an input that is accepted, so it reduces finitely, and on any other the state is left again after
finitely many reductions. What takes its place stands at the same height or lower. At the same
height a symbol has been renamed to the left-hand side of a production with a body that derives no
more than this symbol, and such renamings do not form a cycle.
-/

namespace SyntaxTables.ParseTable

open LrAutomaton

variable {g : Grammar} {a : LrAutomaton} {live : Nat → Prop}

/-! ### Renaming a symbol -/

/-- Over a state, production `i` renames the symbol that leads to `m`: the rest of its body derives
the empty string, and its left-hand side leads to `n`. -/
def RenamesBy (g : Grammar) (a : LrAutomaton) (s i m n : Nat) : Prop :=
  ∃ p x η js, g.Usable i p ∧ g.body i = x :: η ∧ g.Forest η [] js ∧ a.Edge s x m ∧
    a.Edge s (.nonterminal p.lhs) n

/-- Some production that begins in the state renames a symbol. -/
def Renames (g : Grammar) (a : LrAutomaton) (s m n : Nat) : Prop :=
  ∃ i b, RenamesBy g a s i m n ∧ a.Holds s ⟨i, 0, b⟩

/-- The same, where the stack justifies that the production begins, with `b` to follow it. -/
def RenamesOn (g : Grammar) (a : LrAutomaton) (ss : List Nat) (b s m n : Nat) : Prop :=
  ∃ i, RenamesBy g a s i m n ∧ Justified g a (s :: ss) ⟨i, 0, b⟩

theorem exists_headD {b : Nat} (hb : b < g.width) :
    ∃ z : List Nat, z.headD g.eof = b ∧ ∀ y ∈ z, y < g.eof := by
  by_cases he : b = g.eof
  · exact ⟨[], he.symm, by simp⟩
  · refine ⟨[b], rfl, ?_⟩
    simp only [List.mem_singleton, forall_eq]
    unfold Grammar.width at hb
    unfold Grammar.eof at he ⊢
    omega

/-- What lies above `m` begins in the same way over another stack. -/
theorem exists_append_cons {τ σ rest : List Nat} {m s : Nat} (σ' : List Nat)
    (hτ : τ ++ m :: σ = s :: rest) : ∃ rest', τ ++ m :: σ' = s :: rest' := by
  cases τ with
  | nil =>
    obtain rfl : m = s := (List.cons.inj hτ).1
    exact ⟨σ', rfl⟩
  | cons s' τ =>
    obtain rfl : s' = s := (List.cons.inj hτ).1
    exact ⟨τ ++ m :: σ', rfl⟩

section Table

variable (h : Faithful g a)

include h

/-- If a production is justified, so is one that makes its first symbol. -/
theorem RenamesBy.justified {s i j m n o b : Nat} {ss : List Nat} (hi : RenamesBy g a s i m n)
    (hj : RenamesBy g a s j n o) (hjust : Justified g a (s :: ss) ⟨j, 0, b⟩) :
    Justified g a (s :: ss) ⟨i, 0, b⟩ := by
  obtain ⟨p, -, -, -, hp, -, -, -, he⟩ := hi
  obtain ⟨q, y, η, js, -, hbody, hη, he', -⟩ := hj
  obtain rfl := h.symbol_unique he' he
  refine hjust.predict (Grammar.mem_predictions_iff.2 ⟨p, by rw [hbody]; rfl, hp, rfl, ?_⟩)
  exact Grammar.Forest.expects (by rw [hbody]; exact hη)

/-- A chain of renamings is justified by one stack with one terminal to follow. -/
theorem exists_renamesOn (hg : Grounded g a) {s m n : Nat}
    (hr : Relation.TransGen (Renames g a s) m n) :
    ∃ ss b, Relation.TransGen (RenamesOn g a ss b s) m n := by
  induction hr using Relation.TransGen.head_induction_on with
  | single hr =>
    obtain ⟨i, b, hby, hit⟩ := hr
    obtain ⟨ss, hjust⟩ := hg.held hit
    exact ⟨ss, b, .single ⟨i, hby, hjust⟩⟩
  | head hr _ ih =>
    obtain ⟨i, -, hby, -⟩ := hr
    obtain ⟨ss, b, hchain⟩ := ih
    obtain ⟨_, ⟨j, hby', hjust⟩, -⟩ := Relation.TransGen.head'_iff.1 hchain
    exact ⟨ss, b, .head ⟨i, hby, hby.justified h hby' hjust⟩ hchain⟩

variable (hstart : g.Declares (.nonterminal g.start))
  (hconflicts : (g.parseTable a).conflicts = [])

include hstart hconflicts

theorem RenamesOn.reduces {s m n b : Nat} {ss : List Nat} (hr : RenamesOn g a ss b s m n) :
    Relation.TransGen ((g.parseTable a).Reduces b) (m :: s :: ss) (n :: s :: ss) := by
  obtain ⟨i, ⟨p, x, η, js, hp, hbody, hη, hm, hn⟩, hjust⟩ := hr
  have hit := hjust.holds h
  have hit₁ : a.Holds m ⟨i, 1, b⟩ := h.holds_advance hm hit (by rw [hbody]; rfl)
  obtain ⟨z, hz, hlt⟩ := exists_headD (h.admits hit).lookahead
  obtain ⟨c, hreads, hrest, hcomplete⟩ := exists_reads_of_forest h hconflicts hη (δ := [])
    (c := ⟨m, s :: ss, 0, z, []⟩) hit₁ (by simp [hbody]) rfl hlt
    (FirstSets.mem_lookaheads_nil.2 hz)
  obtain ⟨k, hk⟩ := hreads.advance
  have hmany := reduces_of_advance h hstart hk hrest
  have hlook : Configuration.lookahead (g.parseTable a) ⟨m, s :: ss, 0, z, []⟩ = b := hz
  rw [hlook] at hmany
  rw [Grammar.body_of_usable hp] at hbody
  have hdrop : c.stack.drop p.rhs.length = s :: ss := by
    rw [hbody, List.length_cons, ← List.drop_drop, hreads.stack]
    rfl
  have hlength : 1 + η.length = p.rhs.length := by
    rw [hbody, List.length_cons, Nat.add_comm]
  rw [hlength] at hcomplete
  exact .tail' hmany (reduces_of_complete h hconflicts hp rfl hcomplete hdrop hn)

variable (hlive : g.Productive live) (hs : live g.start)

include hlive hs

/-- Where something held is completed, some stack with the same top reduces finitely. -/
theorem exists_reducesFinitely {ss : List Nat} {it : Item} (hjust : Justified g a ss it)
    {k top x : Nat} {below : List Nat} (hdrop : (top :: below).drop k = ss)
    (hit : a.Holds top ⟨it.production, it.dot + k, it.lookahead⟩)
    (hx : g.Expects ⟨it.production, it.dot + k, it.lookahead⟩ x) :
    (g.parseTable a).ReducesFinitely x (top :: below) := by
  obtain ⟨z, rfl, hlt, hcontinues⟩ :=
    exists_continuation h hconflicts hstart hlive hs hjust hdrop hit hx
  obtain ⟨n, is, hrun⟩ := hcontinues ⟨top, below, 0, z, []⟩ rfl rfl
  exact reducesFinitely_of_run (admits_of_lt hlt) hrun

variable (hg : Grounded g a)

include hg

theorem renames_no_cycle {s m : Nat} : ¬ Relation.TransGen (Renames g a s) m m := by
  intro hcycle
  obtain ⟨ss, b, hchain⟩ := exists_renamesOn h hg hcycle
  have hreduces : Relation.TransGen ((g.parseTable a).Reduces b) (m :: s :: ss) (m :: s :: ss) :=
    hchain.lift' (fun n => n :: s :: ss) fun _ _ hr => hr.reduces h hstart hconflicts
  obtain ⟨n, ⟨i, ⟨p, x, η, js, -, hbody, hη, hm, -⟩, hjust⟩, -⟩ :=
    Relation.TransGen.head'_iff.1 hchain
  have hit : a.Holds m ⟨i, 1, b⟩ := h.holds_advance hm (hjust.holds h) (by rw [hbody]; rfl)
  have hexpects : g.Expects ⟨i, 1, b⟩ b := Grammar.Forest.expects (by rw [hbody]; exact hη)
  have hfinite :=
    exists_reducesFinitely h hstart hconflicts hlive hs hjust (k := 1) rfl hit hexpects
  exact hfinite.no_cycle hreduces

theorem acc_renames (s : Nat) {m : Nat} (hm : m < a.states.length) :
    Acc (fun n m => Renames g a s m n) m := by
  let r : Fin a.states.length → Fin a.states.length → Prop := fun n m => Renames g a s m n
  have hirrefl : Std.Irrefl (Relation.TransGen r) := by
    constructor
    intro n hn
    have hcycle : Relation.TransGen (Renames g a s) n.val n.val :=
      (Relation.transGen_swap.2 hn).lift Fin.val fun _ _ hr => hr
    exact renames_no_cycle h hstart hconflicts hlive hs hg hcycle
  have htrans : IsTrans _ (Relation.TransGen r) := ⟨fun _ _ _ => Relation.TransGen.trans⟩
  have hwf : WellFounded r :=
    Subrelation.wf (fun hr => Relation.TransGen.single hr)
      (Finite.wellFounded_of_trans_of_irrefl (Relation.TransGen r))
  suffices ∀ m : Fin a.states.length, Acc (fun n m => Renames g a s m n) m.val from this ⟨m, hm⟩
  intro m
  induction m using hwf.induction with
  | h m ih =>
    constructor
    intro n hn
    have hlt : n < a.states.length := by
      obtain ⟨i, b, ⟨p, x, η, js, -, -, -, -, he⟩, -⟩ := hn
      exact (h.enters he).1
    exact ih ⟨n, hlt⟩ hn

/-! ### Reducing the part of a stack above a state -/

/-- A reduction of the symbols `η` at the end of a path, together with some of the symbols `γ` in
front of them, which lead to the states `ss`. -/
def Pops (g : Grammar) (a : LrAutomaton) (ss : List Nat) (γ η : List Symbol) (ss' : List Nat) :
    Prop :=
  ∃ i p front δ s rest n, g.Usable i p ∧ p.rhs = δ ++ η ∧ δ ≠ [] ∧ γ = front ++ δ ∧
    ss.drop δ.length = s :: rest ∧ Stack a (s :: rest) front ∧ (∃ b, a.Holds s ⟨i, 0, b⟩) ∧
    a.Edge s (.nonterminal p.lhs) n ∧ ss' = n :: s :: rest

omit hstart hlive hs hg in
include hconflicts in
/-- A reduction above `m` is made over another stack as well, unless it takes away `m` and perhaps
more below it. -/
theorem reduces_above {x m : Nat} {σ σ' τ ss' : List Nat} {γ η : List Symbol} {js : List Nat}
    (hstack : Stack a (τ ++ m :: σ) (γ ++ η)) (hlength : η.length = τ.length)
    (hη : g.Forest η [] js) (hred : (g.parseTable a).Reduces x (τ ++ m :: σ) ss') :
    Pops g a (m :: σ) γ η ss' ∨
      ∃ τ' η' js', ss' = τ' ++ m :: σ ∧
        (g.parseTable a).Reduces x (τ ++ m :: σ') (τ' ++ m :: σ') ∧
        Stack a (τ' ++ m :: σ) (γ ++ η') ∧ η'.length = τ'.length ∧ g.Forest η' [] js' := by
  obtain ⟨i, p, front, s, rest, n, hp, hγ, ⟨top, htop, hit⟩, hdrop, hfront, hbegin, he, rfl⟩ :=
    hred.exists_production h hstack
  have hbodies : p.rhs <:+ γ ++ η := by
    rw [hγ]
    exact List.suffix_append _ _
  by_cases hle : p.rhs.length ≤ η.length
  · -- the body lies above `m`
    right
    obtain ⟨η₁, rfl⟩ := List.suffix_of_suffix_length_le hbodies (List.suffix_append _ _) hle
    obtain rfl : γ ++ η₁ = front := by
      rw [← List.append_assoc] at hγ
      exact List.append_cancel_right hγ
    obtain ⟨v, v', js₁, js₂, hnil, -, hη₁, hbody⟩ := hη.exists_append
    obtain ⟨rfl, rfl⟩ := List.append_eq_nil_iff.1 hnil.symm
    rw [hlength] at hle
    rw [List.drop_append_of_le_length hle] at hdrop
    have htop' : (τ ++ m :: σ').head? = some top := by
      rw [List.head?_append] at htop ⊢
      exact htop
    obtain ⟨rest', hdrop'⟩ := exists_append_cons σ' hdrop
    have hred' := reduces_of_complete h hconflicts hp htop' hit
      ((List.drop_append_of_le_length hle).trans hdrop') he
    have hpushed := hfront.push he
    rw [← hdrop, List.append_assoc, ← List.cons_append] at hpushed
    rw [← hdrop', ← List.cons_append] at hred'
    refine ⟨n :: τ.drop p.rhs.length, η₁ ++ [Symbol.nonterminal p.lhs], _, ?_, hred', hpushed, ?_,
      hη₁.append (.nonterminal hp hbody .nil)⟩
    · rw [← hdrop]
      rfl
    · simp only [List.length_append, List.length_cons, List.length_nil, List.length_drop] at *
      omega
  · -- the body reaches down to `m` at least
    left
    obtain ⟨δ, hδ⟩ := List.suffix_of_suffix_length_le (List.suffix_append _ _) hbodies
      (Nat.le_of_not_le hle)
    have hfrontδ : γ = front ++ δ := by
      rw [← hδ, ← List.append_assoc] at hγ
      exact List.append_cancel_right hγ
    have hne : δ ≠ [] := by
      rintro rfl
      exact hle (by rw [← hδ]; exact Nat.le_refl _)
    rw [← hδ, List.length_append, Nat.add_comm, hlength, ← List.drop_drop, List.drop_left] at hdrop
    exact ⟨i, p, front, δ, s, rest, n, hp, hδ.symm, hne, hfrontδ, hdrop, hfront, hbegin, he, rfl⟩

omit hstart hlive hs hg in
include hconflicts in
/-- Above `m` a stack is reduced finitely if another one is, and if what is left is reduced finitely
once `m` has been taken away. -/
theorem reducesFinitely_above {x m : Nat} {σ σ' : List Nat} {γ : List Symbol}
    (hpop : ∀ {η js ss'}, g.Forest η [] js → Pops g a (m :: σ) γ η ss' →
      (g.parseTable a).ReducesFinitely x ss')
    {τ : List Nat} {η : List Symbol} {js : List Nat}
    (hfinite : (g.parseTable a).ReducesFinitely x (τ ++ m :: σ'))
    (hstack : Stack a (τ ++ m :: σ) (γ ++ η)) (hlength : η.length = τ.length)
    (hη : g.Forest η [] js) : (g.parseTable a).ReducesFinitely x (τ ++ m :: σ) := by
  generalize hss : τ ++ m :: σ' = ss at hfinite
  induction hfinite generalizing τ η js with
  | intro ss _ ih =>
    subst hss
    constructor
    intro ss' hred
    rcases reduces_above h hconflicts hstack hlength hη hred with
      hpopped | ⟨τ', η', js', rfl, hred', hstack', hlength', hη'⟩
    · exact hpop hη hpopped
    · exact ih _ hred' hstack' hlength' hη' rfl

/-- A state that asks for a reduction is the top of a stack that is reduced finitely. -/
theorem Reduces.exists_reducesFinitely {x m : Nat} {σ ss' : List Nat} {γ : List Symbol}
    (hred : (g.parseTable a).Reduces x (m :: σ) ss') (hstack : Stack a (m :: σ) γ) :
    ∃ ss, (g.parseTable a).ReducesFinitely x (m :: ss) := by
  obtain ⟨i, p, -, -, -, -, hp, -, ⟨top, htop, hit⟩, -⟩ := hred.exists_production h hstack
  obtain rfl : m = top := Option.some.inj htop
  rw [← Grammar.body_of_usable hp] at hit
  obtain ⟨ss, hjust⟩ := hg.held hit
  exact ⟨ss, ParseTable.exists_reducesFinitely h hstart hconflicts hlive hs hjust (k := 0) rfl hit
    (Grammar.expects_lookahead i x)⟩

theorem reducesFinitely_of_stack (x : Nat) {m : Nat} {σ : List Nat} {γ : List Symbol}
    (hstack : Stack a (m :: σ) γ) : (g.parseTable a).ReducesFinitely x (m :: σ) := by
  -- the height falls, or else the top is renamed
  induction hn : σ.length using Nat.strong_induction_on generalizing m σ γ with
  | h height ihlower =>
    subst hn
    have hacc := acc_renames h hstart hconflicts hlive hs hg (σ.headD 0) (hstack.lt_length h)
    induction hacc generalizing γ with
    | intro m _ ihrenamed =>
      by_cases hex : ∃ ss', (g.parseTable a).Reduces x (m :: σ) ss'
      · obtain ⟨ss', hred⟩ := hex
        obtain ⟨ss, hfinite⟩ :=
          hred.exists_reducesFinitely h hstart hconflicts hlive hs hg hstack
        have hstack' : Stack a ([] ++ m :: σ) (γ ++ []) := by rwa [List.append_nil]
        refine reducesFinitely_above h hconflicts (τ := []) ?_ hfinite hstack' rfl .nil
        rintro η js _ hη ⟨i, p, front, δ, s, rest, n, hp, hrhs, hne, hγ, hdrop, hfront, hbegin, he,
          rfl⟩
        have hpushed := hfront.push he
        rcases δ with _ | ⟨y, _ | ⟨y', δ⟩⟩
        · exact absurd rfl hne
        · -- only `m` goes, and its symbol is renamed
          obtain rfl : σ = s :: rest := hdrop
          obtain ⟨δ, y', hδ, -, hm⟩ := hstack.exists_edge
          obtain ⟨-, hy⟩ := List.append_inj' (hγ.symm.trans hδ) rfl
          obtain rfl : y = y' := List.singleton_inj.1 hy
          obtain ⟨b, hb⟩ := hbegin
          have hrenames : RenamesBy g a s i m n :=
            ⟨p, y, η, js, hp, (Grammar.body_of_usable hp).trans hrhs, hη, hm, he⟩
          exact ihrenamed n ⟨i, b, hrenames, hb⟩ hpushed
        · have hlengths := congrArg List.length hdrop
          simp only [List.length_drop, List.length_cons] at hlengths
          exact ihlower (s :: rest).length (by simp only [List.length_cons]; omega) hpushed rfl
      · constructor
        intro ss' hred
        exact absurd ⟨ss', hred⟩ hex

omit hstart hconflicts hlive hs hg in
include hstart in
/-- A run from a stack that is reduced finitely ends, if it ends after each shift. -/
theorem exists_run_of_reducesFinitely {input : List Nat} {length x : Nat} {ss : List Nat}
    (hshorter : ∀ c, Derives g a input c → c.rest.length < length →
      ∃ n r, (g.parseTable a).run n c = some r)
    (hfinite : (g.parseTable a).ReducesFinitely x ss) {c : Configuration} (hc : Derives g a input c)
    (hstack : c.stack = ss) (hlook : c.lookahead (g.parseTable a) = x)
    (hlength : c.rest.length = length) : ∃ n r, (g.parseTable a).run n c = some r := by
  induction hfinite generalizing c with
  | intro ss _ ih =>
    subst hstack hlook
    cases hstep : (g.parseTable a).step c with
    | accepted is => exact ⟨1, .ok is, by rw [run, hstep]⟩
    | failed e => exact ⟨1, .error e, by rw [run, hstep]⟩
    | running c' =>
      have hc' := hc.step h hstart hstep
      apply exists_run_of_step hstep
      rcases (running_cases hstep).2 with ⟨s, hact, rfl⟩ | ⟨hred, hrest, -⟩
      · obtain ⟨y, rest, hr⟩ := exists_rest_of_shift h hstart hact
        apply hshorter _ hc'
        rw [← hlength, hr]
        exact Nat.lt_succ_self _
      · exact ih _ hred hc' rfl (lookahead_eq hrest) (by rw [hrest, hlength])

theorem exists_run_of_derives {input : List Nat} {c : Configuration} (hc : Derives g a input c) :
    ∃ n r, (g.parseTable a).run n c = some r := by
  induction hn : c.rest.length using Nat.strong_induction_on generalizing c with
  | h length ih =>
    obtain ⟨γ, hstack, -⟩ := id hc
    have hfinite := reducesFinitely_of_stack h hstart hconflicts hlive hs hg
      (c.lookahead (g.parseTable a)) hstack
    exact exists_run_of_reducesFinitely h hstart (fun c' hc' hlt => ih _ hlt hc' rfl) hfinite hc rfl
      rfl hn

end Table

/-! ### Built tables -/

/-- A built table without conflicts runs to an end on every input, if each non-terminal that the
start symbol leads to derives some string. -/
theorem run_ends {settings : ParserSettings} {t : ParseTable} {reports : List Diagnostic}
    (h : g.buildParser settings = (.ok t, reports)) (hconflicts : t.conflicts = [])
    (hproductive : ∀ n, g.Reachable n → ∃ w, g.Yields [.nonterminal n] w) (input : List Nat) :
    ∃ steps r, t.run steps (.initial input) = some r := by
  obtain ⟨hstart, rfl⟩ := Grammar.eq_of_buildParser h
  have hfaithful := Grammar.faithful_lrAutomaton hstart settings
  have hgrounded := Grammar.grounded_lrAutomaton hstart settings
  have hlive : g.Productive g.Reachable := ⟨hproductive, fun hp hlhs _ hn => hlhs.body hp hn⟩
  exact exists_run_of_derives hfaithful hstart hconflicts hlive .start hgrounded
    (derives_initial g _ input)

/-- Lists hide a left recursion behind the empty string, and their run still ends. -/
theorem run_ends_lists :
    ∃ steps r, (lists.parseTable (lists.lrAutomaton {})).run steps (.initial [0, 1]) = some r := by
  have hbuilt : lists.buildParser {} =
      (.ok (lists.parseTable (lists.lrAutomaton {})), (lists.buildParser {}).2) := rfl
  have hconflicts : (lists.parseTable (lists.lrAutomaton {})).conflicts = [] := by decide +kernel
  refine run_ends hbuilt hconflicts ?_ [0, 1]
  intro n hn
  have hlt : n < 2 := hn.declares (by decide)
  obtain rfl | rfl : n = 0 ∨ n = 1 := by omega
  · exact ⟨[], [1], .step (.mk (p := ⟨.normal, 0, [], none⟩) ⟨rfl, by decide⟩ [] []) (.refl _)⟩
  · exact ⟨[], [2], .step (.mk (p := ⟨.removed, 1, [], none⟩) ⟨rfl, by decide⟩ [] []) (.refl _)⟩

/-- A grammar in which nothing comes of the last non-terminal. -/
def stalled : Grammar where
  terminals := ["a", "b", "c"]
  nonterminals := ["S", "A", "E", "X", "U"]
  start := 0
  productions := [⟨.normal, 0, [.terminal 0, .terminal 1], none⟩,
    ⟨.normal, 0, [.terminal 0, .nonterminal 1], none⟩,
    ⟨.normal, 1, [.nonterminal 2, .nonterminal 1, .terminal 1], none⟩,
    ⟨.normal, 1, [.nonterminal 3, .nonterminal 4], none⟩, ⟨.normal, 2, [], none⟩,
    ⟨.normal, 3, [.terminal 2], none⟩]

/-- Without that a run may reduce the empty production forever: it waits for a terminal that comes
first in a body with a non-terminal that derives nothing, and no state has an item that reads it. -/
theorem run_stalled :
    stalled.buildParser {} = (.ok (stalled.parseTable (stalled.lrAutomaton {})), []) ∧
      (stalled.parseTable (stalled.lrAutomaton {})).conflicts = [] ∧
      ∀ steps,
        (stalled.parseTable (stalled.lrAutomaton {})).run steps (.initial [0, 2]) = none := by
  have hconflicts : (stalled.parseTable (stalled.lrAutomaton {})).conflicts = [] := by
    decide +kernel
  refine ⟨?_, hconflicts, ?_⟩
  · unfold Grammar.buildParser
    have hvalid : stalled.validate = (.ok (), []) := by decide +kernel
    simp only [hvalid, hconflicts, List.map_nil, List.append_nil]
  generalize ht : stalled.parseTable (stalled.lrAutomaton {}) = t
  have heof : t.eof = 3 := by rw [← ht]; rfl
  have hshift : t.action? 0 0 = some (.shift 1) := by rw [← ht]; decide +kernel
  have hreduce : ∀ s, s = 1 ∨ s = 5 → t.action? s 2 = some (.reduce 4) ∧ t.goto? s 2 = some 5 := by
    rw [← ht]
    rintro s (rfl | rfl) <;> decide +kernel
  have hinfo : t.productions[4]? = some ⟨2, 0, .normal, none⟩ := by rw [← ht]; rfl
  have hloop : ∀ steps s below reduced, s = 1 ∨ s = 5 →
      t.run steps ⟨s, below, 1, [2], reduced⟩ = none := by
    intro steps
    induction steps with
    | zero => exact fun _ _ _ _ => rfl
    | succ steps ih =>
      intro s below reduced hs
      obtain ⟨hact, hgoto⟩ := hreduce s hs
      rw [run, step_of_action? (by simp [Admits, heof]) hact]
      simp only [reduceStep, hinfo, List.drop_zero, hgoto]
      exact ih 5 _ _ (Or.inr rfl)
  intro steps
  cases steps with
  | zero => rfl
  | succ steps =>
    rw [run, step_of_action? (by simp [Admits, heof, Configuration.initial]) hshift]
    exact hloop steps 1 [0] [] (Or.inl rfl)

end SyntaxTables.ParseTable
