import SyntaxTables.Proofs.Nfa.Template
import SyntaxTables.Proofs.Nfa.Word

/-!
# Templates that serve many buildings

The templates of a lexicon are handed from one building to the next. The buildings have arenas of
their own, may be of any patterns, and some of them fail; the intervals of a pattern that is only
built need not be known to the alphabet. Templates are made for definitions alone, so whatever the
buildings were, all templates are right, and what is built with them spells what it should.
-/

namespace SyntaxTables.Nfa.Build

variable {alphabet : Alphabet} {lexicon : Lexicon} {β γ : Type}

/-- The arena and the templates after a building, however it ended. -/
def after : EStateM.Result ReferenceError Workshop β → Workshop
  | .ok _ w => w
  | .error _ w => w

/-- The templates after any number of calls for one lexicon with one alphabet, whatever they were to
build, into whichever arenas, and however they ended. -/
inductive InUse (alphabet : Alphabet) (lexicon : Lexicon) :
    Std.TreeMap String Template → Prop
  | unused : InUse alphabet lexicon ∅
  | instantiate {templates : Std.TreeMap String Template}
    (h : InUse alphabet lexicon templates) (name : String) (arena : Nfa) :
    InUse alphabet lexicon (after (instantiate alphabet lexicon name ⟨arena, templates⟩)).templates
  | compile {templates : Std.TreeMap String Template}
    (h : InUse alphabet lexicon templates) (pattern : Pattern) (arena : Nfa) :
    InUse alphabet lexicon (after (compile alphabet lexicon pattern ⟨arena, templates⟩)).templates

/-! ### What buildings keep -/

/-- A property of the templates that still holds after a building, however it ends. -/
def Keeps (property : Std.TreeMap String Template → Prop) (build : Build β) : Prop :=
  ∀ w, property w.templates → property (after (build w)).templates

section Keeps

variable {property : Std.TreeMap String Template → Prop}

theorem Keeps.bind {x : Build β} {f : β → Build γ} (hx : Keeps property x)
    (hf : ∀ y, Keeps property (f y)) : Keeps property (x >>= f) := by
  intro w hw
  change property (after (EStateM.bind x f w)).templates
  unfold EStateM.bind
  have hafter := hx w hw
  cases hr : x w with
  | ok y w' =>
    rw [hr] at hafter
    exact hf y w' hafter
  | error e w' =>
    rw [hr] at hafter
    exact hafter

theorem keeps_pure (x : β) : Keeps property (pure x : Build β) := fun _ hw => hw

theorem keeps_of_run {x : Build β} {result : Workshop → β} {change : Workshop → Nfa}
    (h : ∀ w, x w = .ok (result w) { w with arena := change w }) : Keeps property x := by
  intro w hw
  rw [h]
  exact hw

theorem keeps_newState : Keeps property newState := keeps_of_run fun _ => rfl

theorem keeps_addSilent (source target : Nat) : Keeps property (Build.addSilent source target) :=
  keeps_of_run (run_addSilent source target)

theorem keeps_newBlock : Keeps property newBlock := keeps_of_run run_newBlock

theorem keeps_addEdges (source target : Nat) (symbols : List Nat) :
    Keeps property (Build.addEdges source target symbols) :=
  keeps_of_run (run_addEdges source target symbols)

theorem keeps_ofClass (ranges : List Interval) : Keeps property (ofClass alphabet ranges) :=
  keeps_newBlock.bind fun _ => (keeps_addEdges _ _ _).bind fun _ => keeps_pure _

theorem keeps_chain (last : Nat) (text : List Char) :
    Keeps property (chain alphabet last text) := by
  induction text generalizing last with
  | nil => exact keeps_pure last
  | cons c text ih =>
    exact keeps_newState.bind fun next => (keeps_addEdges _ _ _).bind fun _ => ih next

theorem keeps_ofText (text : List Char) : Keeps property (ofText alphabet text) := by
  refine keeps_newState.bind fun entry => ?_
  cases text with
  | nil =>
    exact keeps_newState.bind fun _ => (keeps_addSilent _ _).bind fun _ => keeps_pure _
  | cons c text => exact (keeps_chain entry (c :: text)).bind fun _ => keeps_pure _

variable {resolve : String → Build Block}

mutual

theorem keeps_ofPattern (hresolve : ∀ n, Keeps property (resolve n)) :
    (p : Pattern) → Keeps property (ofPattern alphabet resolve p)
  | .oneOf ranges => by
    rw [ofPattern]
    exact keeps_ofClass ranges
  | .noneOf ranges => by
    rw [ofPattern]
    exact keeps_ofClass (complement ranges)
  | .literal text => by
    rw [ofPattern]
    exact keeps_ofText text
  | .concat parts => by
    rw [ofPattern]
    exact keeps_ofSequence hresolve none parts
  | .union parts => by
    rw [ofPattern]
    exact keeps_newBlock.bind fun b =>
      (keeps_ofAlternatives hresolve b parts).bind fun _ => keeps_pure b
  | .optional inner => by
    rw [ofPattern]
    exact (keeps_ofPattern hresolve inner).bind fun e => keeps_of_run (run_optional e)
  | .star inner => by
    rw [ofPattern]
    exact (keeps_ofPattern hresolve inner).bind fun e => keeps_of_run (run_star e)
  | .plus inner => by
    rw [ofPattern]
    exact (keeps_ofPattern hresolve inner).bind fun e => keeps_of_run (run_plus e)
  | .reference name => by
    rw [ofPattern]
    exact hresolve name

theorem keeps_ofSequence (hresolve : ∀ n, Keeps property (resolve n)) : (b : Option Block) →
    (parts : List Pattern) → Keeps property (ofSequence alphabet resolve b parts)
  | some b, [] => by
    rw [ofSequence]
    exact keeps_pure b
  | none, [] => by
    rw [ofSequence]
    exact keeps_of_run run_empty
  | none, p :: ps => by
    rw [ofSequence]
    exact (keeps_ofPattern hresolve p).bind fun b => keeps_ofSequence hresolve (some b) ps
  | some a, p :: ps => by
    rw [ofSequence]
    exact (keeps_ofPattern hresolve p).bind fun b => (keeps_addSilent _ _).bind fun _ =>
      keeps_ofSequence hresolve (some ⟨a.entry, b.exit⟩) ps

theorem keeps_ofAlternatives (hresolve : ∀ n, Keeps property (resolve n)) (b : Block) :
    (parts : List Pattern) → Keeps property (ofAlternatives alphabet resolve b parts)
  | [] => by
    rw [ofAlternatives]
    exact keeps_pure ()
  | p :: ps => by
    rw [ofAlternatives]
    exact (keeps_ofPattern hresolve p).bind fun _ => (keeps_addSilent _ _).bind fun _ =>
      (keeps_addSilent _ _).bind fun _ => keeps_ofAlternatives hresolve b ps

end

theorem keeps_compile
    (hinstantiate : ∀ n, Keeps property (Build.instantiate alphabet lexicon n)) (p : Pattern) :
    Keeps property (Build.compile alphabet lexicon p) :=
  keeps_ofPattern hinstantiate p

end Keeps

/-! ### What is built with templates in use -/

theorem Ends.stocked {base : Nfa} {possible : Prop} {post : Nfa → β → Prop}
    {r : EStateM.Result ReferenceError Workshop β}
    (h : Ends alphabet lexicon base possible post r) :
    Stocked alphabet lexicon (after r).templates := by
  cases r with
  | ok x w => exact h.1
  | error e w => exact h.1

/-- No call makes a wrong template, not even one for a pattern that the alphabet was not cut for. -/
theorem InUse.stocked (halphabet : alphabet.Ordered)
    (hrespects : ∀ n p, lexicon.find? n = some p → ∀ r ∈ p.intervals, alphabet.Respects r)
    {templates : Std.TreeMap String Template} (h : InUse alphabet lexicon templates) :
    Stocked alphabet lexicon templates := by
  have hinstantiate : ∀ n,
      Keeps (Stocked alphabet lexicon) (Build.instantiate alphabet lexicon n) :=
    fun n w hw => (serves_instantiate halphabet hrespects n w hw).stocked
  induction h with
  | unused => exact stocked_empty
  | instantiate _ name arena ih => exact hinstantiate name ⟨arena, _⟩ ih
  | compile _ pattern arena ih => exact keeps_compile hinstantiate pattern ⟨arena, _⟩ ih

/-- How a pattern is built in an arena. In any case the arena of before has states added. If the
building ends well, the words of symbols between the ends of its block are those of the strings that
the pattern stands for; if not, something that the pattern needs is undefined or needs itself. -/
def Compiled (alphabet : Alphabet) (lexicon : Lexicon) (pattern : Pattern) (arena : Nfa) :
    EStateM.Result ReferenceError Workshop Block → Prop
  | .ok b w =>
    Grown alphabet arena w.arena ∧
      (∀ v, pattern.Matches lexicon v ↔
        ∃ word, List.Forall₂ (fun c x => alphabet.symbolOf? c = some x) v word ∧
          w.arena.WordPath b.entry word b.exit) ∧
      (w.arena.silentlyReaches b.entry b.exit = true ↔ pattern.Matches lexicon [])
  | .error _ w =>
    Grown alphabet arena w.arena ∧
      ∃ n, lexicon.Needs pattern n ∧
        (lexicon.find? n = none ∨ Relation.TransGen lexicon.Refers n n)

theorem compiled_of_ends {pattern : Pattern} {arena : Nfa}
    {r : EStateM.Result ReferenceError Workshop Block}
    (h : Ends alphabet lexicon arena (∀ n ∈ pattern.references, lexicon.Resolves n)
      (fun a b => Spells alphabet a arena.size b (pattern.Matches lexicon)) r) :
    Compiled alphabet lexicon pattern arena r := by
  cases r with
  | ok b w =>
    obtain ⟨-, hgrown, -, hspells⟩ := h
    refine ⟨hgrown, fun v => ?_, ?_⟩
    · rw [← hspells.path, path_iff_wordPath]
      rfl
    · rw [← hspells.path]
      exact silentlyReaches_iff
  | error e w =>
    obtain ⟨-, hgrown, hrefs⟩ := h
    rw [Lexicon.resolves_references_iff] at hrefs
    push Not at hrefs
    obtain ⟨n, hneeds, hn⟩ := hrefs
    refine ⟨hgrown, n, hneeds, ?_⟩
    cases hfind : lexicon.find? n with
    | none => exact Or.inl rfl
    | some q => exact Or.inr (hn ⟨q, hfind⟩)

/-- With an alphabet cut along the intervals of a pattern and of a lexicon, and with templates of
any history, the pattern is built right into any arena. -/
theorem compile_spells {ranges : List Interval} {pattern : Pattern}
    {templates : Std.TreeMap String Template} (hpattern : ∀ r ∈ pattern.intervals, r ∈ ranges)
    (hlexicon : ∀ r ∈ lexicon.intervals, r ∈ ranges)
    (huse : InUse (Alphabet.ofRanges ranges) lexicon templates) (arena : Nfa) :
    Compiled (Alphabet.ofRanges ranges) lexicon pattern arena
      (compile (Alphabet.ofRanges ranges) lexicon pattern ⟨arena, templates⟩) := by
  have hordered := Alphabet.ordered_ofRanges ranges
  have hdefinitions : ∀ n p, lexicon.find? n = some p →
      ∀ r ∈ p.intervals, (Alphabet.ofRanges ranges).Respects r :=
    fun _ _ hfind r hr =>
      Alphabet.respects_ofRanges (hlexicon r (Lexicon.mem_intervals_of_find? hfind hr))
  have hown : ∀ r ∈ pattern.intervals, (Alphabet.ofRanges ranges).Respects r :=
    fun r hr => Alphabet.respects_ofRanges (hpattern r hr)
  exact compiled_of_ends (ends_compile hordered hdefinitions hown
    (huse.stocked hordered hdefinitions))

/-- A fragment for letters, and one that needs itself. -/
def letterAndLoop : Lexicon where
  fragments := [⟨"letter", .oneOf [⟨97, 122⟩], none⟩, ⟨"loop", .optional (.reference "loop"), none⟩]
  tokens := []

/-- The templates after a pattern that needs both fragments and names a letter outside the
alphabet. -/
def afterLoop : Std.TreeMap String Template :=
  (after (compile (Alphabet.ofRanges letterAndLoop.intervals) letterAndLoop
    (.concat [.literal ['A'], .reference "letter", .reference "loop"]) {})).templates

/-- An arena with edges that lead nowhere. -/
def strayArena : Nfa where
  states := #[⟨[(9, 7)], [0, 5], some ⟨3, 3⟩⟩]
  start := 4

/-- The failed call left a template behind. It serves for names, of which none is empty. -/
theorem compile_spells_afterLoop :
    InUse (Alphabet.ofRanges letterAndLoop.intervals) letterAndLoop afterLoop ∧
      afterLoop.contains "letter" = true ∧
      ∃ b w, compile (Alphabet.ofRanges letterAndLoop.intervals) letterAndLoop
          (.plus (.reference "letter")) ⟨strayArena, afterLoop⟩ = .ok b w ∧
        w.arena.state 0 = strayArena.state 0 ∧
        ¬ Pattern.Matches letterAndLoop (.plus (.reference "letter")) [] := by
  have huse : InUse (Alphabet.ofRanges letterAndLoop.intervals) letterAndLoop afterLoop :=
    .compile .unused _ {}
  have hspells : Compiled _ letterAndLoop (.plus (.reference "letter")) strayArena
      (compile _ letterAndLoop _ ⟨strayArena, afterLoop⟩) :=
    compile_spells (by simp [Pattern.intervals]) (fun _ hr => hr) huse strayArena
  have hends : (match compile (Alphabet.ofRanges letterAndLoop.intervals) letterAndLoop
      (.plus (.reference "letter")) ⟨strayArena, afterLoop⟩ with
    | .ok b w => !w.arena.silentlyReaches b.entry b.exit
    | .error _ _ => false) = true := by decide +kernel
  refine ⟨huse, by decide +kernel, ?_⟩
  cases hr : compile (Alphabet.ofRanges letterAndLoop.intervals) letterAndLoop
      (.plus (.reference "letter")) ⟨strayArena, afterLoop⟩ with
  | ok b w =>
    rw [hr] at hspells hends
    obtain ⟨hgrown, -, hempty⟩ := hspells
    refine ⟨b, w, rfl, hgrown.old 0 (by decide), fun hmatches => ?_⟩
    simp [hempty.2 hmatches] at hends
  | error e w =>
    rw [hr] at hends
    simp at hends

end SyntaxTables.Nfa.Build
