import SyntaxTables.Proofs.Nfa.Afresh

/-!
# Calls that do not depend on their history

Here the names under construction are not handed down. They are recorded beside the templates, where
a name is entered before its definition is built and taken out again afterwards, whether that went
well or not. Along any sequence of calls this is the same building, and after each call no name is
left. So a call depends neither on the calls before it nor on the arena it builds into.
-/

namespace SyntaxTables

/-- A workshop that also records the names whose templates are being made. -/
structure Bench extends Workshop where
  inProgress : List String := []

namespace Nfa.Build

variable {alphabet : Alphabet} {lexicon : Lexicon} {β γ : Type} {names : List String}

/-! ### Buildings with names in progress -/

/-- A building at a bench. -/
abbrev Recorded := EStateM ReferenceError Bench

def withNames (names : List String) :
    EStateM.Result ReferenceError Workshop β → EStateM.Result ReferenceError Bench β
  | .ok x w => .ok x ⟨w, names⟩
  | .error e w => .error e ⟨w, names⟩

/-- A building that leaves the names in progress alone. -/
def recorded (build : Build β) : Recorded β := fun s => withNames s.inProgress (build s.toWorkshop)

section Definitions

variable (alphabet : Alphabet) (resolve : String → Recorded Block)

mutual

def recordedPattern : Pattern → Recorded Block
  | .oneOf ranges => recorded (ofClass alphabet ranges)
  | .noneOf ranges => recorded (ofClass alphabet (complement ranges))
  | .literal text => recorded (ofText alphabet text)
  | .concat parts => recordedSequence none parts
  | .union parts => do
    let b ← recorded newBlock
    recordedAlternatives b parts
    return b
  | .optional inner => do
    let e ← recordedPattern inner
    recorded do
      let b ← newBlock
      addSilent b.entry e.entry
      addSilent b.entry b.exit
      addSilent e.exit b.exit
      return b
  | .star inner => do
    let e ← recordedPattern inner
    recorded do
      let b ← newBlock
      addSilent b.entry e.entry
      addSilent b.entry b.exit
      addSilent e.exit e.entry
      addSilent e.exit b.exit
      return b
  | .plus inner => do
    let e ← recordedPattern inner
    recorded do
      let b ← newBlock
      addSilent b.entry e.entry
      addSilent e.exit e.entry
      addSilent e.exit b.exit
      return b
  | .reference name => resolve name

def recordedSequence : Option Block → List Pattern → Recorded Block
  | some b, [] => return b
  | none, [] => recorded do
    let b ← newBlock
    addSilent b.entry b.exit
    return b
  | none, p :: ps => do
    let b ← recordedPattern p
    recordedSequence (some b) ps
  | some a, p :: ps => do
    let b ← recordedPattern p
    recorded (addSilent a.exit b.entry)
    recordedSequence (some ⟨a.entry, b.exit⟩) ps

def recordedAlternatives (b : Block) : List Pattern → Recorded Unit
  | [] => return
  | p :: ps => do
    let a ← recordedPattern p
    recorded (addSilent b.entry a.entry)
    recorded (addSilent a.exit b.exit)
    recordedAlternatives b ps

end

/-- Builds in an empty arena, which becomes a template. The name is in progress meanwhile, and it is
taken out however the building ends. -/
def during (name : String) (build : Recorded Block) : Recorded Template := fun s =>
  match build ⟨{ s.toWorkshop with arena := {} }, name :: s.inProgress⟩ with
  | .ok b inner =>
    .ok ⟨inner.arena, b⟩
      ⟨{ inner.toWorkshop with arena := s.arena }, inner.inProgress.erase name⟩
  | .error e inner =>
    .error e ⟨{ inner.toWorkshop with arena := s.arena }, inner.inProgress.erase name⟩

/-- The template of a name. A reference to a name in progress is recursive. -/
def recordedTemplate (lexicon : Lexicon) : Nat → String → Recorded Template
  | 0, name => throw (.recursive name)
  | depth + 1, name => do
    match lexicon.find? name with
    | none => throw (.undefined name)
    | some pattern =>
      let s ← get
      match s.templates[name]? with
      | some t => return t
      | none =>
        if name ∈ s.inProgress then throw (.recursive name)
        else
          let resolve := fun inner => do
            let t ← recordedTemplate lexicon depth inner
            recorded (copy t)
          let t ← during name (recordedPattern alphabet resolve pattern)
          recorded (keep name t)
          return t

def recordedInstantiate (lexicon : Lexicon) (depth : Nat) (name : String) : Recorded Block := do
  let t ← recordedTemplate alphabet lexicon depth name
  recorded (copy t)

def recordedCompile (lexicon : Lexicon) (depth : Nat) (pattern : Pattern) : Recorded Block :=
  recordedPattern alphabet (recordedInstantiate alphabet lexicon depth) pattern

end Definitions

/-! ### The same with names handed down -/

/-- The building at a bench with these names in progress is the building in the workshop, and leaves
the names as they are. -/
def Tracks (names : List String) (x : Recorded β) (y : Build β) : Prop :=
  ∀ w, x ⟨w, names⟩ = withNames names (y w)

theorem tracks_recorded (x : Build β) : Tracks names (recorded x) x := fun _ => rfl

theorem tracks_pure (x : β) : Tracks names (pure x) (pure x) := fun _ => rfl

theorem Tracks.bind {x : Recorded β} {y : Build β} {f : β → Recorded γ} {g : β → Build γ}
    (h : Tracks names x y) (hf : ∀ u, Tracks names (f u) (g u)) :
    Tracks names (x >>= f) (y >>= g) := by
  intro w
  change EStateM.bind x f _ = withNames names (EStateM.bind y g w)
  unfold EStateM.bind
  rw [h w]
  cases y w with
  | ok u w' => exact hf u w'
  | error e w' => rfl

section Patterns

variable {resolve : String → Recorded Block} {resolve' : String → Build Block}

mutual

theorem tracks_pattern (h : ∀ n, Tracks names (resolve n) (resolve' n)) : (p : Pattern) →
    Tracks names (recordedPattern alphabet resolve p) (ofPattern alphabet resolve' p)
  | .oneOf ranges => by
    rw [recordedPattern, ofPattern]
    exact tracks_recorded _
  | .noneOf ranges => by
    rw [recordedPattern, ofPattern]
    exact tracks_recorded _
  | .literal text => by
    rw [recordedPattern, ofPattern]
    exact tracks_recorded _
  | .concat parts => by
    rw [recordedPattern, ofPattern]
    exact tracks_sequence h none parts
  | .union parts => by
    rw [recordedPattern, ofPattern]
    exact (tracks_recorded _).bind fun b => (tracks_alternatives h b parts).bind fun _ =>
      tracks_pure b
  | .optional inner => by
    rw [recordedPattern, ofPattern]
    exact (tracks_pattern h inner).bind fun e => tracks_recorded _
  | .star inner => by
    rw [recordedPattern, ofPattern]
    exact (tracks_pattern h inner).bind fun e => tracks_recorded _
  | .plus inner => by
    rw [recordedPattern, ofPattern]
    exact (tracks_pattern h inner).bind fun e => tracks_recorded _
  | .reference name => by
    rw [recordedPattern, ofPattern]
    exact h name

theorem tracks_sequence (h : ∀ n, Tracks names (resolve n) (resolve' n)) : (b : Option Block) →
    (parts : List Pattern) →
    Tracks names (recordedSequence alphabet resolve b parts) (ofSequence alphabet resolve' b parts)
  | some b, [] => by
    rw [recordedSequence, ofSequence]
    exact tracks_pure b
  | none, [] => by
    rw [recordedSequence, ofSequence]
    exact tracks_recorded _
  | none, p :: ps => by
    rw [recordedSequence, ofSequence]
    exact (tracks_pattern h p).bind fun b => tracks_sequence h (some b) ps
  | some a, p :: ps => by
    rw [recordedSequence, ofSequence]
    exact (tracks_pattern h p).bind fun b => (tracks_recorded _).bind fun _ =>
      tracks_sequence h (some ⟨a.entry, b.exit⟩) ps

theorem tracks_alternatives (h : ∀ n, Tracks names (resolve n) (resolve' n)) (b : Block) :
    (parts : List Pattern) →
    Tracks names (recordedAlternatives alphabet resolve b parts)
      (ofAlternatives alphabet resolve' b parts)
  | [] => by
    rw [recordedAlternatives, ofAlternatives]
    exact tracks_pure ()
  | p :: ps => by
    rw [recordedAlternatives, ofAlternatives]
    exact (tracks_pattern h p).bind fun a => (tracks_recorded _).bind fun _ =>
      (tracks_recorded _).bind fun _ => tracks_alternatives h b ps

end

end Patterns

/-- The name that was entered is the one that is taken out. -/
theorem Tracks.during {name : String} {x : Recorded Block} {y : Build Block}
    (h : Tracks (name :: names) x y) : Tracks names (during name x) (aside y) := by
  intro w
  unfold Build.during aside
  rw [h]
  cases y { w with arena := {} } with
  | ok b inner => simp [withNames]
  | error e inner => simp [withNames]

theorem tracks_template (depth : Nat) (names : List String) (name : String) :
    Tracks names (recordedTemplate alphabet lexicon depth name)
      (templateWithin alphabet lexicon depth names name) := by
  induction depth generalizing names name with
  | zero => exact fun _ => rfl
  | succ depth ih =>
    rw [recordedTemplate, templateWithin]
    cases lexicon.find? name with
    | none => exact fun _ => rfl
    | some pattern =>
      have hresolve := fun inner =>
        (ih (name :: names) inner).bind fun t => tracks_recorded (copy t)
      have hpattern : Tracks _ (recordedPattern alphabet _ pattern) _ :=
        tracks_pattern hresolve pattern
      have hmake := hpattern.during.bind fun t =>
        (tracks_recorded (keep name t)).bind fun _ => tracks_pure t
      intro w
      change (match w.templates[name]? with
        | some t => _
        | none => _ : Recorded Template) _ = withNames names ((match w.templates[name]? with
        | some t => _
        | none => _ : Build Template) w)
      cases w.templates[name]? with
      | some t => rfl
      | none =>
        simp only
        split_ifs with hname
        · rfl
        · exact hmake w

theorem tracks_instantiate (depth : Nat) (name : String) :
    Tracks names (recordedInstantiate alphabet lexicon depth name)
      (do copy (← templateWithin alphabet lexicon depth names name)) :=
  (tracks_template depth names name).bind fun t => tracks_recorded (copy t)

/-! ### Any sequence of calls -/

/-- The number of levels exceeds the number of definitions. -/
def Deep (lexicon : Lexicon) (depth : Nat) : Prop :=
  lexicon.fragments.length + lexicon.tokens.length < depth

/-- With enough levels, a call that finds no name in progress is the call in the workshop. -/
theorem Deep.tracks_instantiate {depth : Nat} (h : Deep lexicon depth) (name : String) :
    Tracks [] (recordedInstantiate alphabet lexicon depth name)
      (instantiate alphabet lexicon name) := by
  have heq : templateWithin alphabet lexicon depth [] name =
      templateWithin alphabet lexicon (fullDepth lexicon) [] name :=
    templateWithin_eq (visiting_nil name) roomy_fullDepth h
  have htracks : Tracks [] (recordedInstantiate alphabet lexicon depth name) _ :=
    Build.tracks_instantiate depth name
  rwa [heq] at htracks

theorem Deep.tracks_compile {depth : Nat} (h : Deep lexicon depth) (pattern : Pattern) :
    Tracks [] (recordedCompile alphabet lexicon depth pattern) (compile alphabet lexicon pattern) :=
  tracks_pattern h.tracks_instantiate pattern

/-- The bench after a building, however it ended. -/
def benchAfter : EStateM.Result ReferenceError Bench β → Bench
  | .ok _ s => s
  | .error _ s => s

/-- The templates and the names in progress after any sequence of calls, whatever they were to
build, into whichever arenas, and however they ended. -/
inductive Session (alphabet : Alphabet) (lexicon : Lexicon) :
    Std.TreeMap String Template → List String → Prop
  | opened : Session alphabet lexicon ∅ []
  | instantiate {templates : Std.TreeMap String Template} {names : List String} {depth : Nat}
    (h : Session alphabet lexicon templates names) (hdepth : Deep lexicon depth) (name : String)
    (arena : Nfa) {s : Bench}
    (hs : benchAfter (recordedInstantiate alphabet lexicon depth name ⟨⟨arena, templates⟩, names⟩) =
      s) : Session alphabet lexicon s.templates s.inProgress
  | compile {templates : Std.TreeMap String Template} {names : List String} {depth : Nat}
    (h : Session alphabet lexicon templates names) (hdepth : Deep lexicon depth) (pattern : Pattern)
    (arena : Nfa) {s : Bench}
    (hs : benchAfter (recordedCompile alphabet lexicon depth pattern ⟨⟨arena, templates⟩, names⟩) =
      s) : Session alphabet lexicon s.templates s.inProgress

theorem benchAfter_withNames (r : EStateM.Result ReferenceError Workshop β) :
    benchAfter (withNames names r) = ⟨after r, names⟩ := by
  cases r <;> rfl

/-- No call leaves a name in progress, and the templates are those of calls in the workshop. -/
theorem Session.inUse {templates : Std.TreeMap String Template}
    (h : Session alphabet lexicon templates names) :
    names = [] ∧ InUse alphabet lexicon templates := by
  induction h with
  | opened => exact ⟨rfl, .unused⟩
  | instantiate _ hdepth name arena hs ih =>
    obtain ⟨rfl, huse⟩ := ih
    rw [hdepth.tracks_instantiate, benchAfter_withNames] at hs
    subst hs
    exact ⟨rfl, huse.instantiate name arena⟩
  | compile _ hdepth pattern arena hs ih =>
    obtain ⟨rfl, huse⟩ := ih
    rw [hdepth.tracks_compile, benchAfter_withNames] at hs
    subst hs
    exact ⟨rfl, huse.compile pattern arena⟩

theorem Tallies.keeps {good : Std.TreeMap String Template → Prop} {P : Prop} {x y : Build Block}
    (h : ∀ base : Nfa, Tallies base good P (Block.raise base.size) x y) : Keeps good y := by
  intro w hw
  have hrepeats := h w.arena #[] ∅ w.templates hw
  rw [raise_nil] at hrepeats
  generalize x _ = r at hrepeats
  generalize y _ = r' at hrepeats ⊢
  cases hrepeats with
  | ok _ hgood => exact hgood
  | error _ hgood => exact hgood

theorem InUse.kept {templates : Std.TreeMap String Template}
    (h : InUse alphabet lexicon templates) : Kept alphabet lexicon templates := by
  induction h with
  | unused => exact kept_empty
  | instantiate _ name arena ih =>
    exact Tallies.keeps (fun _ => tallies_instantiate name) ⟨arena, _⟩ ih
  | compile _ pattern arena ih =>
    exact Tallies.keeps (fun _ => tallies_compile pattern) ⟨arena, _⟩ ih

/-! ### One call -/

/-- The second building did in an arena what the first one did in an empty one. -/
def Moved (arena : Nfa) :
    EStateM.Result ReferenceError Workshop Block →
      EStateM.Result ReferenceError Workshop Block → Prop
  | .ok b w, .ok b' w' => b' = b.raise arena.size ∧ w'.arena = arena.raise w.arena.states
  | .error e w, .error e' w' => e' = e ∧ w'.arena = arena.raise w.arena.states
  | _, _ => False

/-- A building with templates in use does what it does with none in an empty arena. -/
theorem Tallies.moved {P : Prop} {x y : Build Block}
    (h : ∀ base : Nfa, Tallies base (Kept alphabet lexicon) P (Block.raise base.size) x y)
    {templates : Std.TreeMap String Template} (hkept : Kept alphabet lexicon templates)
    (arena : Nfa) :
    ((∃ b w, y ⟨arena, templates⟩ = .ok b w) ↔ P) ∧ Moved arena (y {}) (y ⟨arena, templates⟩) := by
  have hfirst := h {} #[] ∅ ∅ kept_empty
  have hlater := h arena #[] ∅ templates hkept
  rw [raise_nil] at hfirst hlater
  refine ⟨hlater.ends_ok_iff.2, ?_⟩
  change Repeats _ _ _ _ _ (y {}) at hfirst
  generalize x _ = r at hfirst hlater
  generalize y {} = r₀ at hfirst ⊢
  generalize y _ = r' at hlater ⊢
  cases hfirst with
  | ok hp _ =>
    cases hlater with
    | ok _ _ => simp [Moved, raise_empty, size, Block.raise_zero]
  | error hp _ =>
    cases hlater with
    | error _ _ => simp [Moved, raise_empty]

theorem resolves_iff {name : String} :
    lexicon.Resolves name ↔ ∀ n, Relation.ReflTransGen lexicon.Refers name n →
      (∃ p, lexicon.find? n = some p) ∧ ¬ Relation.TransGen lexicon.Refers n n := by
  constructor
  · intro h n hn
    have hresolves := h.of_reflTransGen hn
    exact ⟨hresolves.defined, hresolves.acyclic⟩
  · exact Lexicon.resolves_of_acyclic

/-- After any sequence of calls no name is in progress, and a call is the one in the workshop. It
ends well exactly if everything that it needs is defined and nothing of that needs itself, and in
any case it does what a first call does, behind the states that are there. -/
theorem calls_independent {templates : Std.TreeMap String Template} {depth : Nat}
    (hsession : Session alphabet lexicon templates names) (hdepth : Deep lexicon depth)
    (arena : Nfa) :
    names = [] ∧
    (∀ name,
      recordedInstantiate alphabet lexicon depth name ⟨⟨arena, templates⟩, names⟩ =
        withNames [] (instantiate alphabet lexicon name ⟨arena, templates⟩) ∧
      ((∃ b w, instantiate alphabet lexicon name ⟨arena, templates⟩ = .ok b w) ↔
        ∀ n, Relation.ReflTransGen lexicon.Refers name n →
          (∃ p, lexicon.find? n = some p) ∧ ¬ Relation.TransGen lexicon.Refers n n) ∧
      Moved arena (instantiate alphabet lexicon name {})
        (instantiate alphabet lexicon name ⟨arena, templates⟩)) ∧
    ∀ pattern,
      recordedCompile alphabet lexicon depth pattern ⟨⟨arena, templates⟩, names⟩ =
        withNames [] (compile alphabet lexicon pattern ⟨arena, templates⟩) ∧
      ((∃ b w, compile alphabet lexicon pattern ⟨arena, templates⟩ = .ok b w) ↔
        ∀ n, lexicon.Needs pattern n →
          (∃ p, lexicon.find? n = some p) ∧ ¬ Relation.TransGen lexicon.Refers n n) ∧
      Moved arena (compile alphabet lexicon pattern {})
        (compile alphabet lexicon pattern ⟨arena, templates⟩) := by
  obtain ⟨rfl, huse⟩ := hsession.inUse
  refine ⟨rfl, fun name => ⟨hdepth.tracks_instantiate name _, ?_⟩,
    fun pattern => ⟨hdepth.tracks_compile pattern _, ?_⟩⟩
  · rw [← resolves_iff]
    exact Tallies.moved (fun _ => tallies_instantiate name) huse.kept arena
  · rw [← Lexicon.resolves_references_iff]
    exact Tallies.moved (fun _ => tallies_compile pattern) huse.kept arena

/-- A call that fails at the fragment that needs itself has made the template of the other one. The
next calls do not notice: the one fails again, and the other is built as in an empty arena. -/
theorem calls_independent_loop :
    ∃ templates, Session (Alphabet.ofRanges letterAndLoop.intervals) letterAndLoop templates [] ∧
      templates.contains "letter" = true ∧
      (¬ ∃ b w, instantiate (Alphabet.ofRanges letterAndLoop.intervals) letterAndLoop "loop"
        ⟨strayArena, templates⟩ = .ok b w) ∧
      Moved strayArena
        (instantiate (Alphabet.ofRanges letterAndLoop.intervals) letterAndLoop "letter" {})
        (instantiate (Alphabet.ofRanges letterAndLoop.intervals) letterAndLoop "letter"
          ⟨strayArena, templates⟩) := by
  have hdeep : Deep letterAndLoop 3 := Nat.lt_succ_self 2
  have hcall : Session (Alphabet.ofRanges letterAndLoop.intervals) letterAndLoop _ _ :=
    .compile .opened hdeep (.concat [.reference "letter", .reference "loop"]) {} rfl
  obtain ⟨hnames, hinstantiate, -⟩ := calls_independent hcall hdeep strayArena
  rw [hnames] at hcall
  refine ⟨_, hcall, by decide +kernel, fun hok => ?_, (hinstantiate "letter").2.2⟩
  have hloop := ((hinstantiate "loop").2.1.1 hok "loop" .refl).2
  exact hloop (.single ⟨_, rfl, by simp [Pattern.references]⟩)

end Nfa.Build

end SyntaxTables
