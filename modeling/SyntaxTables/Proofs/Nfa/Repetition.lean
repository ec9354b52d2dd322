import SyntaxTables.Proofs.Nfa.Template

/-!
# The same building in two arenas

A building never looks at the states that were there before it. What it adds to an empty arena it
also adds to any other one, with all places moved up, and it fails for the same reason if it fails.
This is shown for two buildings side by side that may resolve their references in different ways,
with templates of their own, as long as each reference is resolved alike.
-/

namespace SyntaxTables

/-- The block of the same states behind `size` others. -/
def Block.raise (size : Nat) (b : Block) : Block := ⟨size + b.entry, size + b.exit⟩

theorem Block.raise_zero (b : Block) : b.raise 0 = b := by
  simp [Block.raise]

theorem NfaState.moveTargets_eq_self {place : Nat → Nat} (h : ∀ s, place s = s) (q : NfaState) :
    q.moveTargets place = q := by
  obtain rfl : place = id := funext h
  simp [moveTargets]

namespace Nfa

/-- The arena with states behind its own that had been added to an empty one. -/
def raise (base : Nfa) (added : Array NfaState) : Nfa :=
  { base with states := base.states ++ added.map (NfaState.moveTargets (base.size + ·)) }

variable {base : Nfa} {added : Array NfaState}

theorem raise_nil (base : Nfa) : base.raise #[] = base := by
  simp [raise]

theorem size_raise (base : Nfa) (added : Array NfaState) :
    (base.raise added).size = base.size + added.size := by
  simp [raise, size]

theorem raise_empty (added : Array NfaState) :
    raise {} added = { states := added } := by
  have hmap : added.map (NfaState.moveTargets (0 + ·)) = added := by
    rw [Array.map_congr_left fun q _ => NfaState.moveTargets_eq_self Nat.zero_add q, Array.map_id']
  simp only [raise, size, List.size_toArray, List.length_nil, hmap, Array.empty_append]

theorem states_modify_raise (base : Nfa) (added : Array NfaState) (s : Nat)
    (f g : NfaState → NfaState)
    (hfg : ∀ q, (f q).moveTargets (base.size + ·) = g (q.moveTargets (base.size + ·))) :
    (base.raise added).states.modify (base.size + s) g =
      (base.raise (added.modify s f)).states := by
  apply Array.ext_getElem?
  intro i
  simp only [raise, size, Array.getElem?_modify, Array.getElem?_append, Array.getElem?_map]
  by_cases hi : i < base.states.size
  · rw [if_pos hi, if_pos hi, if_neg (by omega)]
  · have hs : base.states.size + s = i ↔ s = i - base.states.size := by omega
    simp only [if_neg hi, hs]
    split_ifs
    · cases added[i - base.states.size]? with
      | none => rfl
      | some q => exact congrArg some (hfg q).symm
    · rfl

theorem addState_raise (base : Nfa) (added : Array NfaState) :
    (base.raise added).addState = base.raise (added.push {}) := by
  simp [raise, addState, NfaState.moveTargets]

theorem addSilent_raise (base : Nfa) (added : Array NfaState) (s t : Nat) :
    (base.raise added).addSilent (base.size + s) (base.size + t) =
      base.raise (({ states := added } : Nfa).addSilent s t).states := by
  have h := states_modify_raise base added s
    (fun q => { q with silent := q.silent ++ [t] })
    (fun q => { q with silent := q.silent ++ [base.size + t] })
    (fun q => by simp [NfaState.moveTargets])
  simp only [addSilent, h]
  rfl

theorem addEdge_raise (base : Nfa) (added : Array NfaState) (s x t : Nat) :
    (base.raise added).addEdge (base.size + s) x (base.size + t) =
      base.raise (({ states := added } : Nfa).addEdge s x t).states := by
  have h := states_modify_raise base added s
    (fun q => { q with edges := q.edges ++ [(x, t)] })
    (fun q => { q with edges := q.edges ++ [(x, base.size + t)] })
    (fun q => by simp [NfaState.moveTargets])
  simp only [addEdge, h]
  rfl

end Nfa

namespace Template

theorem place_add (t : Template) (k size s : Nat) : t.place (k + size) s = k + t.place size s :=
  Nat.add_assoc _ _ _

/-- What is copied into a longer arena is what would be copied into a shorter one, moved up. -/
theorem copied_add (t : Template) (k size : Nat) :
    t.copied (k + size) =
      ((t.copied size).1.map (NfaState.moveTargets (k + ·)), (t.copied size).2.raise k) := by
  have hlone : t.lone.map (NfaState.moveTargets (k + ·)) = t.lone := by
    unfold lone
    split_ifs <;> rfl
  have hmoved : ∀ s, (t.arena.state s).moveTargets (t.place (k + size)) =
      ((t.arena.state s).moveTargets (t.place size)).moveTargets (k + ·) := by
    intro s
    simp [NfaState.moveTargets, place_add, Function.comp_def]
  simp only [copied_eq, hmoved, place_add, List.map_toArray, List.map_append, List.map_map, hlone,
    Block.raise, Function.comp_def]

end Template

namespace Nfa.Build

variable {alphabet : Alphabet} {base : Nfa} {good : Std.TreeMap String Template → Prop}
variable {β γ : Type} {P Q : Prop}

/-- How two buildings end, the first one in an arena of its own and the second one behind the states
of `base`: either both end well, if that is possible, or both fail for the same reason. The
templates of the second one are still good. -/
inductive Repeats (base : Nfa) (good : Std.TreeMap String Template → Prop) (possible : Prop)
    (place : β → β) :
    EStateM.Result ReferenceError Workshop β → EStateM.Result ReferenceError Workshop β → Prop
  | ok {x : β} {added : Array NfaState} {ts ts' : Std.TreeMap String Template} :
    possible → good ts' → Repeats base good possible place
      (.ok x ⟨{ states := added }, ts⟩) (.ok (place x) ⟨base.raise added, ts'⟩)
  | error {e : ReferenceError} {added : Array NfaState} {ts ts' : Std.TreeMap String Template} :
    ¬ possible → good ts' → Repeats base good possible place
      (.error e ⟨{ states := added }, ts⟩) (.error e ⟨base.raise added, ts'⟩)

theorem Repeats.ends_ok_iff {place : β → β} {r r' : EStateM.Result ReferenceError Workshop β}
    (h : Repeats base good P place r r') :
    ((∃ x w, r = .ok x w) ↔ P) ∧ ((∃ x w, r' = .ok x w) ↔ P) := by
  cases h with
  | ok hp _ => exact ⟨iff_of_true ⟨_, _, rfl⟩ hp, iff_of_true ⟨_, _, rfl⟩ hp⟩
  | error hp _ => exact ⟨iff_of_false (by simp) hp, iff_of_false (by simp) hp⟩

/-- Two buildings that end alike behind the same added states. -/
def Tallies (base : Nfa) (good : Std.TreeMap String Template → Prop) (possible : Prop)
    (place : β → β) (x y : Build β) : Prop :=
  ∀ added ts ts', good ts' →
    Repeats base good possible place (x ⟨{ states := added }, ts⟩) (y ⟨base.raise added, ts'⟩)

theorem Tallies.congr {place : β → β} {x y : Build β} (h : Tallies base good P place x y)
    (hPQ : P ↔ Q) : Tallies base good Q place x y := by
  rwa [← propext hPQ]

theorem tallies_pure (place : β → β) (x : β) :
    Tallies base good True place (pure x) (pure (place x)) :=
  fun _ _ _ hgood => .ok trivial hgood

theorem Tallies.bind {place : β → β} {place' : γ → γ} {x y : Build β} {f g : β → Build γ}
    (h : Tallies base good P place x y)
    (hf : P → ∀ u, Tallies base good Q place' (f u) (g (place u))) (hQP : Q → P) :
    Tallies base good Q place' (x >>= f) (y >>= g) := by
  intro added ts ts' hgood
  change Repeats base good Q place' (EStateM.bind x f _) (EStateM.bind y g _)
  unfold EStateM.bind
  have hxy := h added ts ts' hgood
  generalize x ⟨{ states := added }, ts⟩ = r at hxy
  generalize y ⟨base.raise added, ts'⟩ = r' at hxy
  cases hxy with
  | ok hp hgood' => exact hf hp _ _ _ _ hgood'
  | error hp hgood' => exact .error (fun hq => hp (hQP hq)) hgood'

theorem Tallies.then {place : β → β} {place' : γ → γ} {x y : Build β} {f g : β → Build γ}
    (h : Tallies base good True place x y)
    (hf : ∀ u, Tallies base good Q place' (f u) (g (place u))) :
    Tallies base good Q place' (x >>= f) (y >>= g) :=
  h.bind (fun _ => hf) fun _ => trivial

/-! ### The single buildings -/

theorem tallies_newState : Tallies base good True (base.size + ·) newState newState := by
  intro added ts ts' hgood
  have h : newState ⟨base.raise added, ts'⟩ =
      .ok (base.size + added.size) ⟨base.raise (added.push {}), ts'⟩ := by
    rw [← addState_raise, ← size_raise]
    rfl
  rw [h]
  exact .ok trivial hgood

theorem tallies_addSilent (s t : Nat) :
    Tallies base good True id (Build.addSilent s t)
      (Build.addSilent (base.size + s) (base.size + t)) := by
  intro added ts ts' hgood
  rw [run_addSilent, run_addSilent, addSilent_raise]
  exact .ok trivial hgood

theorem tallies_addEdge (s x t : Nat) :
    Tallies base good True id (Build.addEdge s x t)
      (Build.addEdge (base.size + s) x (base.size + t)) := by
  intro added ts ts' hgood
  have h : Build.addEdge (base.size + s) x (base.size + t) ⟨base.raise added, ts'⟩ =
      .ok () ⟨(base.raise added).addEdge (base.size + s) x (base.size + t), ts'⟩ := rfl
  rw [h, addEdge_raise]
  exact .ok trivial hgood

theorem tallies_newBlock :
    Tallies base good True (Block.raise base.size) newBlock newBlock :=
  tallies_newState.then fun entry => tallies_newState.then fun exit =>
    tallies_pure (Block.raise base.size) ⟨entry, exit⟩

theorem tallies_addEdges (s t : Nat) (symbols : List Nat) :
    Tallies base good True id (Build.addEdges s t symbols)
      (Build.addEdges (base.size + s) (base.size + t) symbols) := by
  induction symbols with
  | nil => exact tallies_pure id ()
  | cons x symbols ih => exact (tallies_addEdge s x t).then fun _ => ih

theorem tallies_ofClass (ranges : List Interval) :
    Tallies base good True (Block.raise base.size) (ofClass alphabet ranges)
      (ofClass alphabet ranges) :=
  tallies_newBlock.then fun b => (tallies_addEdges b.entry b.exit _).then fun _ =>
    tallies_pure (Block.raise base.size) b

theorem tallies_chain (last : Nat) (text : List Char) :
    Tallies base good True (base.size + ·) (chain alphabet last text)
      (chain alphabet (base.size + last) text) := by
  induction text generalizing last with
  | nil => exact tallies_pure (base.size + ·) last
  | cons c text ih =>
    exact tallies_newState.then fun next => (tallies_addEdges last next _).then fun _ => ih next

theorem tallies_ofText (text : List Char) :
    Tallies base good True (Block.raise base.size) (ofText alphabet text)
      (ofText alphabet text) := by
  refine tallies_newState.then fun entry => ?_
  cases text with
  | nil =>
    exact tallies_newState.then fun exit => (tallies_addSilent entry exit).then fun _ =>
      tallies_pure (Block.raise base.size) ⟨entry, exit⟩
  | cons c text =>
    exact (tallies_chain entry (c :: text)).then fun exit =>
      tallies_pure (Block.raise base.size) ⟨entry, exit⟩

theorem tallies_copy (t : Template) :
    Tallies base good True (Block.raise base.size) (copy t) (copy t) := by
  intro added ts ts' hgood
  have hraise : (base.raise added).addCopy t =
      base.raise (({ states := added } : Nfa).addCopy t).states := by
    simp only [addCopy, size_raise, Template.copied_add]
    simp [raise, size]
  rw [run_copy, run_copy, hraise, size_raise, Template.copied_add]
  exact .ok trivial hgood

theorem tallies_throw (e : ReferenceError) (place : β → β) :
    Tallies base good False place (throw e) (throw e) :=
  fun _ _ _ hgood => .error id hgood

/-! ### Patterns -/

variable {resolve resolve' : String → Build Block} {able : String → Prop}

mutual

/-- A pattern is built alike in both arenas if each of its references is. -/
theorem tallies_ofPattern : (p : Pattern) →
    (∀ n ∈ p.references,
      Tallies base good (able n) (Block.raise base.size) (resolve n) (resolve' n)) →
    Tallies base good (∀ n ∈ p.references, able n) (Block.raise base.size)
      (ofPattern alphabet resolve p) (ofPattern alphabet resolve' p)
  | .oneOf ranges, _ => by
    simp only [ofPattern, Pattern.references]
    exact (tallies_ofClass ranges).congr (by simp)
  | .noneOf ranges, _ => by
    simp only [ofPattern, Pattern.references]
    exact (tallies_ofClass (complement ranges)).congr (by simp)
  | .literal text, _ => by
    simp only [ofPattern, Pattern.references]
    exact (tallies_ofText text).congr (by simp)
  | .concat parts, h => by
    simp only [ofPattern, Pattern.references] at h ⊢
    exact tallies_ofSequence none parts h
  | .union parts, h => by
    simp only [ofPattern, Pattern.references] at h ⊢
    refine tallies_newBlock.then fun b =>
      (tallies_ofAlternatives b parts h).bind (fun hable _ => ?_) id
    exact (tallies_pure (Block.raise base.size) b).congr (iff_of_true trivial hable)
  | .optional inner, h => by
    simp only [ofPattern, Pattern.references] at h ⊢
    refine (tallies_ofPattern inner h).bind (fun hable e => ?_) id
    exact ((tallies_newBlock.then fun b => (tallies_addSilent b.entry e.entry).then fun _ =>
      (tallies_addSilent b.entry b.exit).then fun _ =>
      (tallies_addSilent e.exit b.exit).then fun _ =>
      tallies_pure (Block.raise base.size) b)).congr (iff_of_true trivial hable)
  | .star inner, h => by
    simp only [ofPattern, Pattern.references] at h ⊢
    refine (tallies_ofPattern inner h).bind (fun hable e => ?_) id
    exact ((tallies_newBlock.then fun b => (tallies_addSilent b.entry e.entry).then fun _ =>
      (tallies_addSilent b.entry b.exit).then fun _ =>
      (tallies_addSilent e.exit e.entry).then fun _ =>
      (tallies_addSilent e.exit b.exit).then fun _ =>
      tallies_pure (Block.raise base.size) b)).congr (iff_of_true trivial hable)
  | .plus inner, h => by
    simp only [ofPattern, Pattern.references] at h ⊢
    refine (tallies_ofPattern inner h).bind (fun hable e => ?_) id
    exact ((tallies_newBlock.then fun b => (tallies_addSilent b.entry e.entry).then fun _ =>
      (tallies_addSilent e.exit e.entry).then fun _ =>
      (tallies_addSilent e.exit b.exit).then fun _ =>
      tallies_pure (Block.raise base.size) b)).congr (iff_of_true trivial hable)
  | .reference name, h => by
    simp only [ofPattern, Pattern.references] at h ⊢
    exact (h name (by simp)).congr (by simp)

theorem tallies_ofSequence : (b : Option Block) → (parts : List Pattern) →
    (∀ n ∈ Pattern.referencesOfParts parts,
      Tallies base good (able n) (Block.raise base.size) (resolve n) (resolve' n)) →
    Tallies base good (∀ n ∈ Pattern.referencesOfParts parts, able n) (Block.raise base.size)
      (ofSequence alphabet resolve b parts)
      (ofSequence alphabet resolve' (b.map (Block.raise base.size)) parts)
  | some b, [], _ => by
    simp only [ofSequence, Pattern.referencesOfParts, Option.map_some]
    exact (tallies_pure (Block.raise base.size) b).congr (by simp)
  | none, [], _ => by
    simp only [ofSequence, Pattern.referencesOfParts, Option.map_none]
    exact (tallies_newBlock.then fun b => (tallies_addSilent b.entry b.exit).then fun _ =>
      tallies_pure (Block.raise base.size) b).congr (by simp)
  | none, p :: ps, h => by
    simp only [ofSequence, Pattern.referencesOfParts, Option.map_none,
      List.forall_mem_append] at h ⊢
    refine (tallies_ofPattern p h.1).bind (fun hable b => ?_) And.left
    exact (tallies_ofSequence (some b) ps h.2).congr (and_iff_right hable).symm
  | some a, p :: ps, h => by
    simp only [ofSequence, Pattern.referencesOfParts, Option.map_some,
      List.forall_mem_append] at h ⊢
    refine (tallies_ofPattern p h.1).bind (fun hable b => ?_) And.left
    refine (tallies_addSilent a.exit b.entry).then fun _ => ?_
    exact (tallies_ofSequence (some ⟨a.entry, b.exit⟩) ps h.2).congr (and_iff_right hable).symm

theorem tallies_ofAlternatives (b : Block) : (parts : List Pattern) →
    (∀ n ∈ Pattern.referencesOfParts parts,
      Tallies base good (able n) (Block.raise base.size) (resolve n) (resolve' n)) →
    Tallies base good (∀ n ∈ Pattern.referencesOfParts parts, able n) id
      (ofAlternatives alphabet resolve b parts)
      (ofAlternatives alphabet resolve' (b.raise base.size) parts)
  | [], _ => by
    simp only [ofAlternatives, Pattern.referencesOfParts]
    exact (tallies_pure id ()).congr (by simp)
  | p :: ps, h => by
    simp only [ofAlternatives, Pattern.referencesOfParts, List.forall_mem_append] at h ⊢
    refine (tallies_ofPattern p h.1).bind (fun hable a => ?_) And.left
    refine (tallies_addSilent b.entry a.entry).then fun _ => ?_
    refine (tallies_addSilent a.exit b.exit).then fun _ => ?_
    exact (tallies_ofAlternatives b ps h.2).congr (and_iff_right hable).symm

end

end Nfa.Build

end SyntaxTables
