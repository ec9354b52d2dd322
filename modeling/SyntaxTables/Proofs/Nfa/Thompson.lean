import SyntaxTables.Proofs.Nfa.Construction
import SyntaxTables.Proofs.Pattern

/-!
# Blocks of patterns

The block of a pattern spells what the pattern stands for, if the blocks of its references do. A
building that fails leaves states behind that nothing leads to, so only the growth of the arena is
known of it, and that some reference cannot be built.
-/

namespace SyntaxTables

/-- A template spells what its name stands for. -/
structure Template.Faithful (alphabet : Alphabet) (lexicon : Lexicon) (name : String)
    (t : Template) : Prop where
  resolves : lexicon.Resolves name
  grown : Nfa.Grown alphabet {} t.arena
  spells : Nfa.Spells alphabet t.arena 0 t.block (Pattern.Matches lexicon (.reference name))

/-- All templates made so far are right. -/
def Stocked (alphabet : Alphabet) (lexicon : Lexicon) (templates : Std.TreeMap String Template) :
    Prop :=
  ∀ name t, templates[name]? = some t → Template.Faithful alphabet lexicon name t

namespace Nfa.Build

variable {alphabet : Alphabet} {lexicon : Lexicon} {β γ : Type} {base base' : Nfa}

/-- How a building ends that began with the arena `base`: it grows the arena in any case, and ends
well exactly if it is possible. -/
def Ends (alphabet : Alphabet) (lexicon : Lexicon) (base : Nfa) (possible : Prop)
    (post : Nfa → β → Prop) : EStateM.Result ReferenceError Workshop β → Prop
  | .ok x w =>
    Stocked alphabet lexicon w.templates ∧ Grown alphabet base w.arena ∧ possible ∧
      post w.arena x
  | .error _ w =>
    Stocked alphabet lexicon w.templates ∧ Grown alphabet base w.arena ∧ ¬ possible

theorem Ends.mono {r : EStateM.Result ReferenceError Workshop β} {P Q : Prop}
    {post post' : Nfa → β → Prop} (h : Ends alphabet lexicon base P post r) (hPQ : P ↔ Q)
    (hpost : ∀ a x, post a x → post' a x) :
    Ends alphabet lexicon base Q post' r := by
  cases r with
  | ok x w =>
    obtain ⟨hstocked, hgrown, hp, hx⟩ := h
    exact ⟨hstocked, hgrown, hPQ.1 hp, hpost _ _ hx⟩
  | error e w =>
    obtain ⟨hstocked, hgrown, hp⟩ := h
    exact ⟨hstocked, hgrown, fun hq => hp (hPQ.2 hq)⟩

theorem bind_of_ok {x : Build β} {f : β → Build γ} {w w' : Workshop} {y : β}
    (h : x w = .ok y w') : (x >>= f) w = f y w' := by
  change EStateM.bind x f w = _
  unfold EStateM.bind
  rw [h]

theorem ends_bind {x : Build β} {f : β → Build γ} {w : Workshop} {P Q : Prop}
    {post : Nfa → β → Prop} {post' : Nfa → γ → Prop} (hgrown : Grown alphabet base base')
    (hx : Ends alphabet lexicon base' P post (x w)) (hQP : Q → P)
    (hf : ∀ y w', Stocked alphabet lexicon w'.templates → Grown alphabet base' w'.arena → P →
      post w'.arena y → Ends alphabet lexicon base Q post' (f y w')) :
    Ends alphabet lexicon base Q post' ((x >>= f) w) := by
  change Ends alphabet lexicon base Q post' (EStateM.bind x f w)
  unfold EStateM.bind
  cases hr : x w with
  | ok y w' =>
    rw [hr] at hx
    exact hf y w' hx.1 hx.2.1 hx.2.2.1 hx.2.2.2
  | error e w' =>
    rw [hr] at hx
    exact ⟨hx.1, hgrown.trans hx.2.1, fun hq => hx.2.2 (hQP hq)⟩

/-! ### What the single buildings do to the arena -/

theorem run_optional (e : Block) (w : Workshop) :
    (do
      let b ← newBlock
      addSilent b.entry e.entry
      addSilent b.entry b.exit
      addSilent e.exit b.exit
      return b : Build Block) w =
      .ok ⟨w.arena.size, w.arena.size + 1⟩ { w with arena := w.arena.wrap e true false } := by
  rw [wrap, wrapEdges, ← size_addState]
  rfl

theorem run_star (e : Block) (w : Workshop) :
    (do
      let b ← newBlock
      addSilent b.entry e.entry
      addSilent b.entry b.exit
      addSilent e.exit e.entry
      addSilent e.exit b.exit
      return b : Build Block) w =
      .ok ⟨w.arena.size, w.arena.size + 1⟩ { w with arena := w.arena.wrap e true true } := by
  rw [wrap, wrapEdges, ← size_addState]
  rfl

theorem run_plus (e : Block) (w : Workshop) :
    (do
      let b ← newBlock
      addSilent b.entry e.entry
      addSilent e.exit e.entry
      addSilent e.exit b.exit
      return b : Build Block) w =
      .ok ⟨w.arena.size, w.arena.size + 1⟩ { w with arena := w.arena.wrap e false true } := by
  rw [wrap, wrapEdges, ← size_addState]
  rfl

theorem run_empty (w : Workshop) :
    (do
      let b ← newBlock
      addSilent b.entry b.exit
      return b : Build Block) w =
      .ok ⟨w.arena.size, w.arena.size + 1⟩
        { w with arena := w.arena.addBlock.addSilent w.arena.size (w.arena.size + 1) } := by
  rw [← size_addState]
  rfl

theorem run_addSilent (u v : Nat) (w : Workshop) :
    Build.addSilent u v w = .ok () { w with arena := w.arena.addSilent u v } := rfl

theorem run_newBlock (w : Workshop) :
    newBlock w = .ok ⟨w.arena.size, w.arena.size + 1⟩ { w with arena := w.arena.addBlock } := by
  rw [← size_addState]
  rfl

theorem run_addEdges (u v : Nat) (xs : List Nat) (w : Workshop) :
    Build.addEdges u v xs w = .ok () { w with arena := w.arena.addEdges u v xs } := by
  induction xs generalizing w with
  | nil => rfl
  | cons x xs ih =>
    exact ih { w with arena := w.arena.addEdge u x v }

theorem mem_expand_lt {r : Interval} {x : Nat} (hx : x ∈ alphabet.expand r)
    (h : alphabet.Ordered) : x < alphabet.size := by
  obtain ⟨s, hs, -⟩ := h.mem_expand.1 hx
  exact (Array.getElem?_eq_some_iff.1 hs).1

/-- References to a name are built right. -/
def Serves (alphabet : Alphabet) (lexicon : Lexicon) (resolve : String → Build Block)
    (n : String) : Prop :=
  ∀ w : Workshop, Stocked alphabet lexicon w.templates →
    Ends alphabet lexicon w.arena (lexicon.Resolves n)
      (fun a b => Spells alphabet a w.arena.size b (Pattern.Matches lexicon (.reference n)))
      (resolve n w)

/-- A pattern that is built and then wrapped can be built exactly if the pattern can. -/
theorem ends_wrap {resolve : String → Build Block} {p : Pattern} {skip again : Bool}
    {f : Block → Build Block} {P : Prop} {L M : List Nat → Prop} {w : Workshop}
    (hp : Ends alphabet lexicon w.arena P (fun a b => Spells alphabet a w.arena.size b L)
      (ofPattern alphabet resolve p w))
    (hf : ∀ e w, f e w = .ok ⟨w.arena.size, w.arena.size + 1⟩
      { w with arena := w.arena.wrap e skip again })
    (hLM : ∀ v, Rounds skip again L v ↔ M v) :
    Ends alphabet lexicon w.arena P (fun a b => Spells alphabet a w.arena.size b M)
      ((ofPattern alphabet resolve p >>= f) w) := by
  apply ends_bind (.refl _) hp id
  intro e w' hw' hgrown hP he
  rw [hf]
  exact ⟨hw', grown_wrap hgrown he skip again, hP, (spells_wrap hgrown he skip again).congr hLM⟩

section Letters

variable (halphabet : alphabet.Ordered)

include halphabet

theorem ends_ofClass {ranges : List Interval} (hranges : ∀ r ∈ ranges, alphabet.Respects r)
    {w : Workshop} (hw : Stocked alphabet lexicon w.templates) :
    Ends alphabet lexicon w.arena True
      (fun a b => Spells alphabet a w.arena.size b fun v =>
        ∃ c, v = [c] ∧ ∃ r ∈ ranges, c ∈ r) (ofClass alphabet ranges w) := by
  have hxs : ∀ x ∈ Exploration.distinct (ranges.flatMap alphabet.expand), x < alphabet.size := by
    intro x hx
    rw [Exploration.mem_distinct, List.mem_flatMap] at hx
    obtain ⟨r, -, hx⟩ := hx
    exact mem_expand_lt hx halphabet
  obtain ⟨hgrown, hspells⟩ := spells_addEdges (Grown.refl w.arena) hxs
  have hrun : ofClass alphabet ranges w =
      .ok ⟨w.arena.size, w.arena.size + 1⟩
        { w with
          arena := w.arena.addBlock.addEdges w.arena.size (w.arena.size + 1)
            (Exploration.distinct (ranges.flatMap alphabet.expand)) } := by
    unfold ofClass
    rw [bind_of_ok (run_newBlock w), bind_of_ok (run_addEdges _ _ _ _)]
    rfl
  rw [hrun]
  refine ⟨hw, hgrown, trivial, hspells.congr fun v => ?_⟩
  refine exists_congr fun c => and_congr_right fun _ => ?_
  simp only [Exploration.mem_distinct, List.mem_flatMap]
  constructor
  · rintro ⟨x, ⟨r, hr, hx⟩, hc⟩
    exact ⟨r, hr, (hranges r hr c).2 ⟨x, hx, hc⟩⟩
  · rintro ⟨r, hr, hc⟩
    obtain ⟨x, hx, hcx⟩ := (hranges r hr c).1 hc
    exact ⟨x, ⟨r, hr, hx⟩, hcx⟩

/-- A chain from a state without edges spells the text. Other states it leaves as they are. -/
theorem run_chain {text : List Char}
    (hrespects : ∀ c ∈ text, alphabet.Respects (Interval.ofChar c)) {last : Nat} {w : Workshop}
    (hgrown : Grown alphabet base w.arena) (hlast : w.arena.Since base.size last)
    (hfresh : w.arena.state last = {}) :
    ∃ b f, chain alphabet last text w = .ok f { w with arena := b } ∧ Grown alphabet base b ∧
      b.Since base.size f ∧ last ≤ f ∧ w.arena.size ≤ b.size ∧
      (∀ s < w.arena.size, s ≠ last → b.state s = w.arena.state s) ∧
      ∀ v, b.Path alphabet.Reads last v f ↔ v = text.map Char.toNat := by
  induction text generalizing last w with
  | nil =>
    refine ⟨w.arena, last, rfl, hgrown, hlast, Nat.le_refl _, Nat.le_refl _,
      fun _ _ _ => rfl, fun v => ?_⟩
    constructor
    · intro hp
      exact (hp.eq_of_no_successors (by simp [successors, hfresh])).1
    · rintro rfl
      exact .nil _
  | cons c text ih =>
    obtain ⟨hc, htext⟩ := List.forall_mem_cons.1 hrespects
    have hlast' : w.arena.addState.Since base.size last := hlast.mono (by simp)
    have hnext : w.arena.addState.Since base.size w.arena.size :=
      ⟨hgrown.size_le, by rw [size_addState]; exact Nat.lt_succ_self _⟩
    have hxs : ∀ x ∈ alphabet.expand (Interval.ofChar c), x < alphabet.size :=
      fun x hx => mem_expand_lt hx halphabet
    have hstate := state_addEdges hlast'.2 w.arena.size (alphabet.expand (Interval.ofChar c))
    have hne : last ≠ w.arena.size := Nat.ne_of_lt hlast.2
    have hfresh' : (w.arena.addState.addEdges last w.arena.size
        (alphabet.expand (Interval.ofChar c))).state w.arena.size = {} := by
      rw [hstate, if_neg hne.symm, state_addState, state_of_size_le (Nat.le_refl _)]
    obtain ⟨b, f, hrun, hb, hf, hle, hsize, hsame, hpath⟩ :=
      ih htext
        (w := { w with
          arena := w.arena.addState.addEdges last w.arena.size
            (alphabet.expand (Interval.ofChar c)) })
        (hgrown.addState.addEdges hlast' hnext hxs) (hnext.mono (by simp)) hfresh'
    simp only [size_addEdges, size_addState] at hsize hsame
    have hedges : b.state last =
        { edges := (alphabet.expand (Interval.ofChar c)).map fun x => (x, w.arena.size) } := by
      rw [hsame last (Nat.lt_succ_of_lt hlast.2) hne, hstate, if_pos rfl, state_addState, hfresh]
      rfl
    refine ⟨b, f, ?_, hb, hf, Nat.le_trans (Nat.le_of_lt hlast.2) hle, by omega, ?_, ?_⟩
    · unfold chain
      rw [bind_of_ok (show newState w = .ok w.arena.size { w with arena := w.arena.addState } from
        rfl), bind_of_ok (run_addEdges _ _ _ _)]
      exact hrun
    · intro s hs hsl
      rw [hsame s (Nat.lt_succ_of_lt hs) (Nat.ne_of_lt hs), hstate, if_neg hsl, state_addState]
    · intro v
      rw [path_fan_iff hedges (Nat.ne_of_gt (Nat.lt_of_lt_of_le hlast.2 hle)), List.map_cons]
      constructor
      · rintro ⟨d, u, rfl, hd, hu⟩
        have hdc := Interval.mem_iff.1 ((hc d).2 hd)
        obtain rfl : d = c.toNat := Nat.le_antisymm hdc.2 hdc.1
        rw [(hpath u).1 hu]
      · rintro rfl
        exact ⟨_, _, rfl, (hc c.toNat).1 (Interval.mem_ofChar.2 rfl),
          (hpath _).2 rfl⟩

theorem ends_ofText {text : List Char}
    (hrespects : ∀ c ∈ text, alphabet.Respects (Interval.ofChar c)) {w : Workshop}
    (hw : Stocked alphabet lexicon w.templates) :
    Ends alphabet lexicon w.arena True
      (fun a b => Spells alphabet a w.arena.size b fun v => v = text.map Char.toNat)
      (ofText alphabet text w) := by
  have hstate : newState w = .ok w.arena.size { w with arena := w.arena.addState } := rfl
  unfold ofText
  rw [bind_of_ok hstate]
  have hrefl : Grown alphabet w.arena w.arena := .refl _
  cases text with
  | nil =>
    obtain ⟨hgrown, hspells⟩ := spells_addSilent hrefl
    have hrun := run_empty w
    change Ends alphabet lexicon _ True _ ((do
      let b ← newBlock
      addSilent b.entry b.exit
      return b : Build Block) w)
    rw [hrun]
    exact ⟨hw, hgrown, trivial, hspells⟩
  | cons c text =>
    obtain ⟨b, f, hrun, hb, hf, -, hsize, -, hpath⟩ := run_chain halphabet hrespects
      (w := { w with arena := w.arena.addState }) hrefl.addState
      ⟨Nat.le_refl _, by simp⟩ (by rw [state_addState, state_of_size_le (Nat.le_refl _)])
    rw [if_neg (by simp), bind_of_ok hrun]
    have hentry : b.Since w.arena.size w.arena.size :=
      ⟨Nat.le_refl _, by rw [size_addState] at hsize; omega⟩
    exact ⟨hw, hb, trivial, hentry, hf, hpath⟩

end Letters

/-! ### Patterns -/

theorem rounds_optional {p : Pattern} {v : List Nat} :
    Rounds true false (p.Matches lexicon) v ↔ Pattern.Matches lexicon (.optional p) v := by
  rw [Pattern.matches_optional]
  constructor
  · rintro (⟨-, hv⟩ | ⟨u, rounds, rfl, hu, hrounds⟩)
    · exact Or.inl hv
    · have hnone : rounds = [] :=
        List.eq_nil_iff_forall_not_mem.2 fun x hx => absurd (hrounds x hx).1 (by simp)
      right
      simpa [hnone] using hu
  · rintro (rfl | hv)
    · exact Or.inl ⟨rfl, rfl⟩
    · exact Or.inr ⟨v, [], by simp, hv, by simp⟩

theorem rounds_star {p : Pattern} {v : List Nat} :
    Rounds true true (p.Matches lexicon) v ↔ Pattern.Matches lexicon (.star p) v := by
  rw [Pattern.matches_star]
  constructor
  · rintro (⟨-, rfl⟩ | ⟨u, rounds, rfl, hu, hrounds⟩)
    · exact ⟨[], rfl, by simp⟩
    · exact ⟨u :: rounds, rfl, List.forall_mem_cons.2 ⟨hu, fun x hx => (hrounds x hx).2⟩⟩
  · rintro ⟨rounds, rfl, hrounds⟩
    cases rounds with
    | nil => exact Or.inl ⟨rfl, rfl⟩
    | cons u rounds =>
      obtain ⟨hu, hrounds⟩ := List.forall_mem_cons.1 hrounds
      exact Or.inr ⟨u, rounds, rfl, hu, fun x hx => ⟨rfl, hrounds x hx⟩⟩

theorem rounds_plus {p : Pattern} {v : List Nat} :
    Rounds false true (p.Matches lexicon) v ↔ Pattern.Matches lexicon (.plus p) v := by
  rw [Pattern.matches_plus]
  constructor
  · rintro (⟨hfalse, -⟩ | ⟨u, rounds, rfl, hu, hrounds⟩)
    · simp at hfalse
    · exact ⟨u, _, rfl, hu, Pattern.matches_star.2 ⟨rounds, rfl, fun x hx => (hrounds x hx).2⟩⟩
  · rintro ⟨u, _, rfl, hu, hstar⟩
    obtain ⟨rounds, rfl, hrounds⟩ := Pattern.matches_star.1 hstar
    exact Or.inr ⟨u, rounds, rfl, hu, fun x hx => ⟨rfl, hrounds x hx⟩⟩

variable {resolve : String → Build Block}

mutual

/-- A pattern can be built exactly if its references can, and then its block spells what it stands
for. -/
theorem ends_ofPattern (halphabet : alphabet.Ordered) : (p : Pattern) →
    (∀ r ∈ p.intervals, alphabet.Respects r) →
    (∀ n ∈ p.references, Serves alphabet lexicon resolve n) → (w : Workshop) →
    Stocked alphabet lexicon w.templates →
    Ends alphabet lexicon w.arena (∀ n ∈ p.references, lexicon.Resolves n)
      (fun a b => Spells alphabet a w.arena.size b (p.Matches lexicon))
      (ofPattern alphabet resolve p w)
  | .oneOf ranges, hp, _, w, hw => by
    rw [Pattern.intervals] at hp
    rw [ofPattern]
    apply (ends_ofClass halphabet hp hw).mono (by simp [Pattern.references])
    intro a b hb
    exact hb.congr fun v => Pattern.matches_oneOf.symm
  | .noneOf ranges, hp, _, w, hw => by
    rw [Pattern.intervals] at hp
    rw [ofPattern]
    apply (ends_ofClass halphabet hp hw).mono (by simp [Pattern.references])
    intro a b hb
    apply hb.congr
    intro v
    rw [Pattern.matches_noneOf]
    simp only [exists_mem_complement_iff]
  | .literal text, hp, _, w, hw => by
    rw [Pattern.intervals, List.forall_mem_map] at hp
    rw [ofPattern]
    apply (ends_ofText halphabet hp hw).mono (by simp [Pattern.references])
    intro a b hb
    exact hb.congr fun v => Pattern.matches_literal.symm
  | .concat [], _, _, w, hw => by
    have hrefl : Grown alphabet w.arena w.arena := .refl _
    obtain ⟨hgrown, hspells⟩ := spells_addSilent hrefl
    rw [ofPattern, ofSequence, run_empty]
    exact ⟨hw, hgrown, by simp [Pattern.references, Pattern.referencesOfParts],
      hspells.congr fun v => Pattern.matches_concat_nil.symm⟩
  | .concat (p :: ps), hp, hrefs, w, hw => by
    rw [Pattern.intervals, Pattern.intervalsOfParts, List.forall_mem_append] at hp
    rw [Pattern.references, Pattern.referencesOfParts, List.forall_mem_append] at hrefs
    rw [ofPattern, ofSequence, Pattern.references, Pattern.referencesOfParts,
      List.forall_mem_append]
    apply ends_bind (.refl _) (ends_ofPattern halphabet p hp.2 hrefs.1 w hw) And.left
    intro x w' hw' hgrown hP hx
    refine (ends_ofSequence halphabet ps hp.1 hrefs.2 w' hw' hgrown hx).mono
      (and_iff_right hP).symm ?_
    intro a b hb
    exact hb.congr fun v => Pattern.matches_concat_cons.symm
  | .union ps, hp, hrefs, w, hw => by
    rw [Pattern.intervals] at hp
    rw [Pattern.references] at hrefs
    rw [ofPattern, Pattern.references, bind_of_ok (run_newBlock w)]
    refine ends_bind (.refl _) (ends_ofAlternatives halphabet ps hp hrefs
      { w with arena := w.arena.addBlock } hw (Grown.refl w.arena).addBlock
      (choice_addBlock (Grown.refl w.arena))) id ?_
    intro _ w' hw' hgrown hP hx
    exact ⟨hw', hgrown, hP, hx.toSpells.congr fun v => by simp [Pattern.matches_union]⟩
  | .optional inner, hp, hrefs, w, hw => by
    rw [Pattern.intervals] at hp
    rw [Pattern.references] at hrefs
    rw [ofPattern, Pattern.references]
    exact ends_wrap (ends_ofPattern halphabet inner hp hrefs w hw) run_optional fun _ =>
      rounds_optional
  | .star inner, hp, hrefs, w, hw => by
    rw [Pattern.intervals] at hp
    rw [Pattern.references] at hrefs
    rw [ofPattern, Pattern.references]
    exact ends_wrap (ends_ofPattern halphabet inner hp hrefs w hw) run_star fun _ => rounds_star
  | .plus inner, hp, hrefs, w, hw => by
    rw [Pattern.intervals] at hp
    rw [Pattern.references] at hrefs
    rw [ofPattern, Pattern.references]
    exact ends_wrap (ends_ofPattern halphabet inner hp hrefs w hw) run_plus fun _ => rounds_plus
  | .reference name, _, hrefs, w, hw => by
    rw [Pattern.references, List.forall_mem_singleton] at hrefs
    rw [ofPattern, Pattern.references]
    apply (hrefs w hw).mono (by simp)
    exact fun _ _ hb => hb

/-- The parts of a concatenation are appended to a block that is there. -/
theorem ends_ofSequence (halphabet : alphabet.Ordered) : (ps : List Pattern) →
    (∀ r ∈ Pattern.intervalsOfParts ps, alphabet.Respects r) →
    (∀ n ∈ Pattern.referencesOfParts ps, Serves alphabet lexicon resolve n) → (w : Workshop) →
    Stocked alphabet lexicon w.templates → ∀ {base : Nfa} {x : Block} {L : List Nat → Prop},
    Grown alphabet base w.arena → Spells alphabet w.arena base.size x L →
    Ends alphabet lexicon base (∀ n ∈ Pattern.referencesOfParts ps, lexicon.Resolves n)
      (fun a b => Spells alphabet a base.size b fun v =>
        ∃ u u', v = u ++ u' ∧ L u ∧ Pattern.Matches lexicon (.concat ps) u')
      (ofSequence alphabet resolve (some x) ps w)
  | [], _, _, w, hw, base, x, L, hgrown, hx => by
    rw [ofSequence]
    refine ⟨hw, hgrown, by simp [Pattern.referencesOfParts], hx.congr fun v => ?_⟩
    simp [Pattern.matches_concat_nil]
  | p :: ps, hp, hrefs, w, hw, base, x, L, hgrown, hx => by
    rw [Pattern.intervalsOfParts, List.forall_mem_append] at hp
    rw [Pattern.referencesOfParts, List.forall_mem_append] at hrefs
    rw [ofSequence, Pattern.referencesOfParts, List.forall_mem_append]
    apply ends_bind hgrown (ends_ofPattern halphabet p hp.2 hrefs.1 w hw) And.left
    intro y w' hw' hgrown' hP hy
    rw [bind_of_ok (run_addSilent _ _ _)]
    refine (ends_ofSequence halphabet ps hp.1 hrefs.2
      { w' with arena := w'.arena.addSilent x.exit y.entry } hw'
      (grown_append hgrown hx hgrown' hy) (spells_append hgrown hx hgrown' hy)).mono
      (and_iff_right hP).symm fun a b hb => hb.congr fun v => ?_
    simp only [Pattern.matches_concat_cons]
    constructor
    · rintro ⟨_, u', rfl, ⟨u, v, rfl, hu, hv⟩, hu'⟩
      exact ⟨u, v ++ u', by rw [List.append_assoc], hu, v, u', rfl, hv, hu'⟩
    · rintro ⟨u, _, rfl, hu, v, u', rfl, hv, hu'⟩
      exact ⟨u ++ v, u', by rw [List.append_assoc], ⟨u, v, rfl, hu, hv⟩, hu'⟩

/-- The alternatives are added as ways through a block that is there. -/
theorem ends_ofAlternatives (halphabet : alphabet.Ordered) : (ps : List Pattern) →
    (∀ r ∈ Pattern.intervalsOfParts ps, alphabet.Respects r) →
    (∀ n ∈ Pattern.referencesOfParts ps, Serves alphabet lexicon resolve n) → (w : Workshop) →
    Stocked alphabet lexicon w.templates → ∀ {base : Nfa} {x : Block} {L : List Nat → Prop},
    Grown alphabet base w.arena → Choice alphabet w.arena base.size x L →
    Ends alphabet lexicon base (∀ n ∈ Pattern.referencesOfParts ps, lexicon.Resolves n)
      (fun a (_ : Unit) => Choice alphabet a base.size x fun v =>
        L v ∨ ∃ p ∈ ps, p.Matches lexicon v)
      (ofAlternatives alphabet resolve x ps w)
  | [], _, _, w, hw, base, x, L, hgrown, hx => by
    rw [ofAlternatives]
    exact ⟨hw, hgrown, by simp [Pattern.referencesOfParts], hx.congr fun v => by simp⟩
  | p :: ps, hp, hrefs, w, hw, base, x, L, hgrown, hx => by
    rw [Pattern.intervalsOfParts, List.forall_mem_append] at hp
    rw [Pattern.referencesOfParts, List.forall_mem_append] at hrefs
    rw [ofAlternatives, Pattern.referencesOfParts, List.forall_mem_append]
    apply ends_bind hgrown (ends_ofPattern halphabet p hp.2 hrefs.1 w hw) And.left
    intro y w' hw' hgrown' hP hy
    rw [bind_of_ok (run_addSilent _ _ _), bind_of_ok (run_addSilent _ _ _)]
    refine (ends_ofAlternatives halphabet ps hp.1 hrefs.2
      { w' with arena := w'.arena.addAlternative x y } hw'
      (grown_alternative hgrown hx hgrown' hy) (choice_alternative hgrown hx hgrown' hy)).mono
      (and_iff_right hP).symm fun a _ hb => hb.congr fun v => ?_
    simp only [List.mem_cons, exists_eq_or_imp, or_assoc]

end

end Nfa.Build

end SyntaxTables
