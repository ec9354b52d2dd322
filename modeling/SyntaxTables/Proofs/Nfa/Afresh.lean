import SyntaxTables.Proofs.Nfa.Repetition
import SyntaxTables.Proofs.Nfa.Workshop

/-!
# Templates made afresh

What a name is built from can be said without any templates kept: each reference makes the template
of its name again. Where there is a template for a name behind which all is defined and nothing
needs itself, it does not depend on the names under construction. So a kept template is the one that
would be made, and a building with kept templates differs in nothing from one without.
-/

namespace SyntaxTables.Nfa.Build

variable {alphabet : Alphabet} {lexicon : Lexicon} {name : String}
  {visiting visiting' : List String}
variable {depth depth' : Nat}

/-! ### References resolved alike -/

section Congr

variable {resolve resolve' : String → Build Block}

mutual

/-- A building only resolves the names that its pattern refers to. -/
theorem ofPattern_congr : (p : Pattern) → (∀ n ∈ p.references, resolve' n = resolve n) →
    ofPattern alphabet resolve' p = ofPattern alphabet resolve p
  | .oneOf _, _ => by rw [ofPattern, ofPattern]
  | .noneOf _, _ => by rw [ofPattern, ofPattern]
  | .literal _, _ => by rw [ofPattern, ofPattern]
  | .concat parts, h => by
    rw [Pattern.references] at h
    rw [ofPattern, ofPattern, ofSequence_congr none parts h]
  | .union parts, h => by
    rw [Pattern.references] at h
    simp only [ofPattern, ofAlternatives_congr _ parts h]
  | .optional inner, h => by
    rw [Pattern.references] at h
    rw [ofPattern, ofPattern, ofPattern_congr inner h]
  | .star inner, h => by
    rw [Pattern.references] at h
    rw [ofPattern, ofPattern, ofPattern_congr inner h]
  | .plus inner, h => by
    rw [Pattern.references] at h
    rw [ofPattern, ofPattern, ofPattern_congr inner h]
  | .reference name, h => by
    rw [ofPattern, ofPattern]
    exact h name (by simp [Pattern.references])

theorem ofSequence_congr : (b : Option Block) → (parts : List Pattern) →
    (∀ n ∈ Pattern.referencesOfParts parts, resolve' n = resolve n) →
    ofSequence alphabet resolve' b parts = ofSequence alphabet resolve b parts
  | some _, [], _ => by rw [ofSequence, ofSequence]
  | none, [], _ => by rw [ofSequence, ofSequence]
  | none, p :: ps, h => by
    rw [Pattern.referencesOfParts, List.forall_mem_append] at h
    simp only [ofSequence, ofPattern_congr p h.1, ofSequence_congr _ ps h.2]
  | some _, p :: ps, h => by
    rw [Pattern.referencesOfParts, List.forall_mem_append] at h
    simp only [ofSequence, ofPattern_congr p h.1, ofSequence_congr _ ps h.2]

theorem ofAlternatives_congr (b : Block) : (parts : List Pattern) →
    (∀ n ∈ Pattern.referencesOfParts parts, resolve' n = resolve n) →
    ofAlternatives alphabet resolve' b parts = ofAlternatives alphabet resolve b parts
  | [], _ => by rw [ofAlternatives, ofAlternatives]
  | p :: ps, h => by
    rw [Pattern.referencesOfParts, List.forall_mem_append] at h
    simp only [ofAlternatives, ofPattern_congr p h.1, ofAlternatives_congr b ps h.2]

end

end Congr

/-! ### Levels -/

/-- There is no more room for names under construction than there are definitions. -/
def Roomy (lexicon : Lexicon) (depth : Nat) (visiting : List String) : Prop :=
  lexicon.fragments.length + lexicon.tokens.length < depth + visiting.length

theorem Roomy.cons (h : Roomy lexicon (depth + 1) visiting) (name : String) :
    Roomy lexicon depth (name :: visiting) := by
  unfold Roomy at *
  rw [List.length_cons]
  omega

theorem Visiting.not_roomy_zero (h : Visiting lexicon visiting name) :
    ¬ Roomy lexicon 0 visiting := by
  have hle := h.length_le
  unfold Roomy
  omega

theorem visiting_nil (name : String) : Visiting lexicon [] name :=
  ⟨List.nodup_nil, by simp, by simp⟩

/-- More levels than there can be names under construction change nothing. -/
theorem templateWithin_eq (hvisiting : Visiting lexicon visiting name)
    (hroomy : Roomy lexicon depth visiting) (hroomy' : Roomy lexicon depth' visiting) :
    templateWithin alphabet lexicon depth' visiting name =
      templateWithin alphabet lexicon depth visiting name := by
  induction depth generalizing visiting depth' name with
  | zero => exact absurd hroomy hvisiting.not_roomy_zero
  | succ depth ih =>
    cases depth' with
    | zero => exact absurd hroomy' hvisiting.not_roomy_zero
    | succ depth' =>
      rw [templateWithin, templateWithin]
      cases hfind : lexicon.find? name with
      | none => rfl
      | some pattern =>
        by_cases hname : name ∈ visiting
        · simp only [hname, if_true]
        · have hrefs : ofPattern alphabet _ pattern = ofPattern alphabet _ pattern :=
            ofPattern_congr pattern fun n hn =>
              congrArg (· >>= copy) (ih (hvisiting.cons hfind hname hn) (hroomy.cons name)
                (hroomy'.cons name))
          simp only [hrefs]

/-! ### Making templates -/

/-- What was built in an empty arena as a template. -/
def templateOf : EStateM.Result ReferenceError Workshop Block → Except ReferenceError Template
  | .ok b w => .ok ⟨w.arena, b⟩
  | .error e _ => .error e

theorem exists_templateOf_eq_iff {r : EStateM.Result ReferenceError Workshop Block} :
    (∃ t, templateOf r = .ok t) ↔ ∃ b w, r = .ok b w := by
  cases r <;> simp [templateOf]

def copyOf : Except ReferenceError Template → Build Block
  | .ok t => copy t
  | .error e => throw e

/-- The template of a name, where those of the references of its definition are made again. -/
def makeAfresh (alphabet : Alphabet) (lexicon : Lexicon) :
    Nat → List String → String → Except ReferenceError Template
  | 0, _, name => .error (.recursive name)
  | depth + 1, visiting, name =>
    match lexicon.find? name with
    | none => .error (.undefined name)
    | some pattern =>
      if name ∈ visiting then .error (.recursive name)
      else
        let resolve := fun inner =>
          copyOf (makeAfresh alphabet lexicon depth (name :: visiting) inner)
        templateOf (ofPattern alphabet resolve pattern {})

/-- As many levels as the lexicon has definitions, and one for a name that is none of them. -/
def fullDepth (lexicon : Lexicon) : Nat := lexicon.fragments.length + lexicon.tokens.length + 1

theorem roomy_fullDepth : Roomy lexicon (fullDepth lexicon) [] := Nat.lt_succ_self _

/-- The template of a name as a first call makes it. -/
def firstTemplate (alphabet : Alphabet) (lexicon : Lexicon) (name : String) :
    Except ReferenceError Template :=
  makeAfresh alphabet lexicon (fullDepth lexicon) [] name

theorem tallies_copyOf {base : Nfa} {good : Std.TreeMap String Template → Prop} {P : Prop}
    {made : Except ReferenceError Template} (h : (∃ t, made = .ok t) ↔ P) :
    Tallies base good P (Block.raise base.size) (copyOf made) (copyOf made) := by
  cases made with
  | ok t => exact (tallies_copy t).congr (iff_of_true trivial (h.1 ⟨t, rfl⟩))
  | error e =>
    have hp : ¬ P := fun hp => by
      obtain ⟨t, ht⟩ := h.2 hp
      cases ht
    exact (tallies_throw e _).congr (iff_of_false id hp)

theorem exists_templateOf_iff {pattern : Pattern} {made : String → Except ReferenceError Template}
    {able : String → Prop} (h : ∀ n ∈ pattern.references, (∃ t, made n = .ok t) ↔ able n) :
    (∃ t, templateOf (ofPattern alphabet (fun n => copyOf (made n)) pattern {}) = .ok t) ↔
      ∀ n ∈ pattern.references, able n := by
  have htallies : Tallies {} (fun _ => True) (∀ n ∈ pattern.references, able n) (Block.raise 0)
      (ofPattern alphabet (fun n => copyOf (made n)) pattern)
      (ofPattern alphabet (fun n => copyOf (made n)) pattern) :=
    tallies_ofPattern pattern fun n hn => tallies_copyOf (h n hn)
  rw [← (htallies #[] ∅ ∅ trivial).ends_ok_iff.1]
  exact exists_templateOf_eq_iff

/-- There is a template exactly if the definitions behind the name form a finite tree. -/
theorem exists_makeAfresh_iff (hvisiting : Visiting lexicon visiting name)
    (hroomy : Roomy lexicon depth visiting) :
    (∃ t, makeAfresh alphabet lexicon depth visiting name = .ok t) ↔ lexicon.Resolves name := by
  induction depth generalizing visiting name with
  | zero => exact absurd hroomy hvisiting.not_roomy_zero
  | succ depth ih =>
    rw [makeAfresh]
    cases hfind : lexicon.find? name with
    | none =>
      refine iff_of_false (by simp) fun h => ?_
      obtain ⟨p, hp⟩ := h.defined
      simp [hfind] at hp
    | some pattern =>
      simp only
      split_ifs with hname
      · exact iff_of_false (by simp) fun h => h.acyclic (hvisiting.leads name hname)
      · have hable := fun n (hn : n ∈ pattern.references) =>
          ih (hvisiting.cons hfind hname hn) (hroomy.cons name)
        rw [exists_templateOf_iff hable]
        constructor
        · exact fun h => .mk hfind h
        · exact fun h n hn => h.of_refers ⟨pattern, hfind, hn⟩

/-- If a name has a template, it does not depend on the names under construction. -/
theorem makeAfresh_eq (h : lexicon.Resolves name) (hvisiting : Visiting lexicon visiting name)
    (hvisiting' : Visiting lexicon visiting' name) (hroomy : Roomy lexicon depth visiting)
    (hroomy' : Roomy lexicon depth' visiting') :
    makeAfresh alphabet lexicon depth' visiting' name =
      makeAfresh alphabet lexicon depth visiting name := by
  induction depth generalizing visiting visiting' depth' name with
  | zero => exact absurd hroomy hvisiting.not_roomy_zero
  | succ depth ih =>
    cases depth' with
    | zero => exact absurd hroomy' hvisiting'.not_roomy_zero
    | succ depth' =>
      have hname : name ∉ visiting := fun hn => h.acyclic (hvisiting.leads name hn)
      have hname' : name ∉ visiting' := fun hn => h.acyclic (hvisiting'.leads name hn)
      rw [makeAfresh, makeAfresh]
      cases hfind : lexicon.find? name with
      | none => rfl
      | some pattern =>
        have hrefs : ofPattern alphabet _ pattern = ofPattern alphabet _ pattern :=
          ofPattern_congr pattern fun n hn =>
            congrArg copyOf (ih (h.of_refers ⟨pattern, hfind, hn⟩)
              (hvisiting.cons hfind hname hn) (hvisiting'.cons hfind hname' hn)
              (hroomy.cons name) (hroomy'.cons name))
        simp only [if_neg hname, if_neg hname', hrefs]

/-! ### Kept templates -/

/-- Each template kept is the one that a first call makes. -/
def Kept (alphabet : Alphabet) (lexicon : Lexicon) (templates : Std.TreeMap String Template) :
    Prop :=
  ∀ n t, templates[n]? = some t → firstTemplate alphabet lexicon n = .ok t

theorem kept_empty : Kept alphabet lexicon ∅ := by
  intro n t ht
  simp at ht

theorem Kept.insert {templates : Std.TreeMap String Template} {t : Template}
    (h : Kept alphabet lexicon templates) (ht : firstTemplate alphabet lexicon name = .ok t) :
    Kept alphabet lexicon (templates.insert name t) := by
  intro n u hu
  rw [Std.TreeMap.getElem?_insert] at hu
  split_ifs at hu with hn
  · obtain rfl := Option.some.inj hu
    obtain rfl := Std.compare_eq_iff_eq.1 hn
    exact ht
  · exact h n u hu

theorem firstTemplate_of_makeAfresh {t : Template} (hvisiting : Visiting lexicon visiting name)
    (hroomy : Roomy lexicon depth visiting)
    (h : makeAfresh alphabet lexicon depth visiting name = .ok t) :
    firstTemplate alphabet lexicon name = .ok t := by
  rw [← h]
  exact makeAfresh_eq ((exists_makeAfresh_iff hvisiting hroomy).1 ⟨t, h⟩) hvisiting
    (visiting_nil name) hroomy roomy_fullDepth

theorem makeAfresh_of_firstTemplate {t : Template} (hvisiting : Visiting lexicon visiting name)
    (hroomy : Roomy lexicon depth visiting)
    (h : firstTemplate alphabet lexicon name = .ok t) :
    makeAfresh alphabet lexicon depth visiting name = .ok t := by
  rw [← h]
  exact makeAfresh_eq ((exists_makeAfresh_iff (visiting_nil name) roomy_fullDepth).1 ⟨t, h⟩)
    (visiting_nil name) hvisiting roomy_fullDepth hroomy

/-- The end of a building that changes no arena. -/
def withTemplates {β : Type} (arena : Nfa) (templates : Std.TreeMap String Template) :
    Except ReferenceError β → EStateM.Result ReferenceError Workshop β
  | .ok x => .ok x ⟨arena, templates⟩
  | .error e => .error e ⟨arena, templates⟩

/-- What is made with templates at hand is what is made afresh. -/
def Serving (alphabet : Alphabet) (lexicon : Lexicon) (made : Except ReferenceError Template)
    (make : Build Template) : Prop :=
  ∀ w, Kept alphabet lexicon w.templates → ∃ templates, Kept alphabet lexicon templates ∧
    make w = withTemplates w.arena templates made

/-- A reference with templates at hand does what it does without. -/
theorem Serving.tallies {base : Nfa} {made : Except ReferenceError Template}
    {make : Build Template} {P : Prop} (h : Serving alphabet lexicon made make)
    (hmade : (∃ t, made = .ok t) ↔ P) :
    Tallies base (Kept alphabet lexicon) P (Block.raise base.size) (copyOf made)
      (do copy (← make)) := by
  intro added ts ts' hgood
  obtain ⟨templates, hkept, hmake⟩ := h ⟨base.raise added, ts'⟩ hgood
  have hcopied : (make >>= copy) ⟨base.raise added, ts'⟩ =
      copyOf made ⟨base.raise added, templates⟩ := by
    change EStateM.bind make copy _ = _
    unfold EStateM.bind
    rw [hmake]
    cases made <;> rfl
  rw [hcopied]
  exact tallies_copyOf hmade added ts templates hkept

/-- A definition built aside, while the templates made for it are kept. -/
theorem serving_aside {pattern : Pattern} {made : String → Except ReferenceError Template}
    {make : String → Build Template}
    (hmake : ∀ n ∈ pattern.references, Serving alphabet lexicon (made n) (make n)) :
    Serving alphabet lexicon
      (templateOf (ofPattern alphabet (fun n => copyOf (made n)) pattern {}))
      (aside (ofPattern alphabet (fun n => do copy (← make n)) pattern)) := by
  intro w hw
  have htallies : Tallies {} (Kept alphabet lexicon)
      (∀ n ∈ pattern.references, ∃ t, made n = .ok t) (Block.raise 0)
      (ofPattern alphabet (fun n => copyOf (made n)) pattern)
      (ofPattern alphabet (fun n => do copy (← make n)) pattern) :=
    tallies_ofPattern pattern fun n hn => (hmake n hn).tallies Iff.rfl
  have hrepeats := htallies #[] ∅ w.templates hw
  rw [raise_nil] at hrepeats
  unfold aside
  generalize ofPattern alphabet (fun n => copyOf (made n)) pattern _ = r at hrepeats ⊢
  generalize ofPattern alphabet (fun n => do copy (← make n)) pattern _ = r' at hrepeats ⊢
  cases hrepeats with
  | @ok b added _ templates _ hkept =>
    rw [raise_empty, Block.raise_zero]
    exact ⟨templates, hkept, rfl⟩
  | @error e _ _ templates _ hkept => exact ⟨templates, hkept, rfl⟩

/-- With templates kept or without, a name has the same template. -/
theorem serving_templateWithin (hvisiting : Visiting lexicon visiting name)
    (hroomy : Roomy lexicon depth visiting) :
    Serving alphabet lexicon (makeAfresh alphabet lexicon depth visiting name)
      (templateWithin alphabet lexicon depth visiting name) := by
  induction depth generalizing visiting name with
  | zero => exact absurd hroomy hvisiting.not_roomy_zero
  | succ depth ih =>
    intro w hw
    cases ht : w.templates[name]? with
    | some t =>
      rw [makeAfresh_of_firstTemplate hvisiting hroomy (hw name t ht), templateWithin]
      cases hfind : lexicon.find? name with
      | none =>
        obtain ⟨p, hp⟩ := ((exists_makeAfresh_iff (visiting_nil name) roomy_fullDepth).1
          ⟨t, hw name t ht⟩).defined
        simp [hfind] at hp
      | some pattern =>
        simp only
        rw [bind_of_ok (show (get : Build Workshop) w = .ok w w from rfl), ht]
        exact ⟨w.templates, hw, rfl⟩
    | none =>
      have hfirst : ∀ t, makeAfresh alphabet _ _ _ name = .ok t →
          firstTemplate alphabet _ name = .ok t :=
        fun t => firstTemplate_of_makeAfresh hvisiting hroomy
      rw [makeAfresh] at hfirst ⊢
      rw [templateWithin]
      cases hfind : lexicon.find? name with
      | none => exact ⟨w.templates, hw, rfl⟩
      | some pattern =>
        simp only [hfind] at hfirst ⊢
        rw [bind_of_ok (show (get : Build Workshop) w = .ok w w from rfl), ht]
        simp only
        split_ifs at hfirst ⊢ with hname
        · exact ⟨w.templates, hw, rfl⟩
        · obtain ⟨templates, hkept, haside⟩ := serving_aside
            (fun n hn => ih (hvisiting.cons hfind hname hn) (hroomy.cons name)) w hw
          generalize templateOf _ = made at haside hfirst ⊢
          change ∃ _, _ ∧ EStateM.bind _ _ w = _
          unfold EStateM.bind
          rw [haside]
          cases made with
          | ok t => exact ⟨templates.insert name t, hkept.insert (hfirst t rfl), rfl⟩
          | error e => exact ⟨templates, hkept, rfl⟩

theorem tallies_instantiate {base : Nfa} (name : String) :
    Tallies base (Kept alphabet lexicon) (lexicon.Resolves name) (Block.raise base.size)
      (copyOf (firstTemplate alphabet lexicon name)) (instantiate alphabet lexicon name) :=
  (serving_templateWithin (visiting_nil name) roomy_fullDepth).tallies
    (exists_makeAfresh_iff (visiting_nil name) roomy_fullDepth)

theorem tallies_compile {base : Nfa} (pattern : Pattern) :
    Tallies base (Kept alphabet lexicon) (∀ n ∈ pattern.references, lexicon.Resolves n)
      (Block.raise base.size)
      (ofPattern alphabet (fun n => copyOf (firstTemplate alphabet lexicon n)) pattern)
      (compile alphabet lexicon pattern) :=
  tallies_ofPattern pattern fun n _ => tallies_instantiate n

end SyntaxTables.Nfa.Build
