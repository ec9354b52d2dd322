import SyntaxTables.Proofs.Nfa.Thompson

/-!
# Copies of templates

A copy has a state for each one that the entry of the template reaches, with the same edges among
them, so it spells the same. The names under construction are different definitions, of which there
are only so many; this is why the bound on their number is never what a reference fails at.
-/

namespace SyntaxTables

/-! ### The states of a copy -/

namespace Template

variable {t : Template}

def found (t : Template) : List Nat := t.arena.reachable t.block.entry

def place (t : Template) (size s : Nat) : Nat :=
  size + (Exploration.numbers t.found).getD s t.found.length

/-- The state for an exit that the entry does not reach. -/
def lone (t : Template) : List NfaState :=
  if (Exploration.numbers t.found).contains t.block.exit then [] else [default]

theorem copied_eq (t : Template) (size : Nat) :
    t.copied size =
      ((t.found.map (fun s => (t.arena.state s).moveTargets (t.place size)) ++ t.lone).toArray,
        ⟨t.place size t.block.entry, t.place size t.block.exit⟩) := rfl

theorem length_lone (h : t.block.exit ∉ t.found) : t.lone.length = 1 := by
  have hnone : ¬ (Exploration.numbers t.found).contains t.block.exit = true := by
    rwa [← Std.TreeMap.mem_iff_contains, Exploration.mem_numbers]
  rw [lone, if_neg hnone]
  rfl

theorem getD_lone (t : Template) (i : Nat) : t.lone[i]?.getD {} = {} := by
  unfold lone
  split_ifs
  · rfl
  · cases i <;> rfl

theorem getElem?_place {s : Nat} (hs : s ∈ t.found) (size : Nat) :
    t.found[t.place size s - size]? = some s := by
  rw [place, Nat.add_sub_cancel_left]
  exact Exploration.getElem?_numbers hs _

theorem place_lt {s : Nat} (hs : s ∈ t.found) (size : Nat) :
    t.place size s < size + t.found.length := by
  have hlt := (List.getElem?_eq_some_iff.1 (getElem?_place hs size)).1
  omega

theorem place_of_not_mem {s : Nat} (hs : s ∉ t.found) (size : Nat) :
    t.place size s = size + t.found.length := by
  rw [place, Exploration.getD_numbers_of_not_mem hs]

theorem size_le_place (size s : Nat) : size ≤ t.place size s := Nat.le_add_right _ _

theorem place_inj {size r s : Nat} (hr : r ∈ t.found) (h : t.place size r = t.place size s) :
    r = s := by
  by_cases hs : s ∈ t.found
  · have hnumber := getElem?_place hr size
    rw [h, getElem?_place hs size] at hnumber
    exact (Option.some.inj hnumber).symm
  · have hlt := place_lt hr size
    rw [h, place_of_not_mem hs] at hlt
    exact absurd hlt (Nat.lt_irrefl _)

end Template

theorem stocked_empty {alphabet : Alphabet} {lexicon : Lexicon} : Stocked alphabet lexicon ∅ := by
  intro name t ht
  simp at ht

theorem Stocked.insert {alphabet : Alphabet} {lexicon : Lexicon} {name : String} {t : Template}
    {templates : Std.TreeMap String Template}
    (h : Stocked alphabet lexicon templates) (ht : Template.Faithful alphabet lexicon name t) :
    Stocked alphabet lexicon (templates.insert name t) := by
  intro n u hu
  rw [Std.TreeMap.getElem?_insert] at hu
  split_ifs at hu with hn
  · obtain rfl := Option.some.inj hu
    obtain rfl := Std.compare_eq_iff_eq.1 hn
    exact ht
  · exact h n u hu

namespace Nfa

variable {alphabet : Alphabet} {a : Nfa} {t : Template}

def addCopy (a : Nfa) (t : Template) : Nfa := { a with states := a.states ++ (t.copied a.size).1 }

theorem size_addCopy (a : Nfa) (t : Template) :
    (a.addCopy t).size = a.size + t.found.length + t.lone.length := by
  simp [size, addCopy, Template.copied_eq, Nat.add_assoc]

theorem state_addCopy_of_lt {s : Nat} (hs : s < a.size) : (a.addCopy t).state s = a.state s := by
  simp only [state, addCopy, Array.getD_eq_getD_getElem?]
  rw [Array.getElem?_append_left hs]

theorem state_addCopy (i : Nat) :
    (a.addCopy t).state (a.size + i) =
      ((t.found[i]?).map fun s => (t.arena.state s).moveTargets (t.place a.size)).getD {} := by
  have hget : (a.addCopy t).state (a.size + i) = ((t.copied a.size).1[i]?).getD {} := by
    rw [state, Array.getD_eq_getD_getElem?, addCopy, size,
      Array.getElem?_append_right (Nat.le_add_right _ _), Nat.add_sub_cancel_left]
  rw [hget, Template.copied_eq, List.getElem?_toArray, List.getElem?_append, List.length_map]
  split_ifs with hi
  · rw [List.getElem?_map]
  · rw [Template.getD_lone, List.getElem?_eq_none (Nat.not_lt.1 hi)]
    rfl

theorem state_addCopy_place {s : Nat} (hs : s ∈ t.found) :
    (a.addCopy t).state (t.place a.size s) =
      (t.arena.state s).moveTargets (t.place a.size) := by
  have hplace : t.place a.size s = a.size + (t.place a.size s - a.size) :=
    (Nat.add_sub_cancel' (t.size_le_place a.size s)).symm
  rw [hplace, state_addCopy, Template.getElem?_place hs]
  rfl

/-- A state of the copy is the copy of a state, or it has no edges. -/
theorem state_addCopy_cases {s : Nat} (hs : a.size ≤ s) :
    (∃ r ∈ t.found, (a.addCopy t).state s = (t.arena.state r).moveTargets (t.place a.size)) ∨
      (a.addCopy t).state s = {} := by
  obtain ⟨i, rfl⟩ := Nat.exists_eq_add_of_le hs
  rw [state_addCopy]
  cases hi : t.found[i]? with
  | none => exact Or.inr rfl
  | some r => exact Or.inl ⟨r, List.mem_of_getElem? hi, rfl⟩

variable {lexicon : Lexicon} {base : Nfa} {name : String}

section Copy

variable (ht : Template.Faithful alphabet lexicon name t)

include ht

theorem mem_found {s : Nat} :
    s ∈ t.found ↔ Exploration.Reaches t.arena.successors t.block.entry s := by
  have hinside : ∀ s, Exploration.Reaches t.arena.successors t.block.entry s →
      s ∈ List.range t.arena.size := by
    intro s hs
    rw [List.mem_range]
    induction hs with
    | refl => exact ht.spells.entry.2
    | tail _ hstep ih => exact (ht.grown.inside _ ⟨Nat.zero_le _, ih⟩ _ hstep).2
  exact (Exploration.latestFirst_spec hinside (by simp)).2 s

theorem closed_found : t.arena.Closed (· ∈ t.found) := by
  intro s hs r hr
  rw [mem_found ht] at hs ⊢
  exact hs.tail hr

theorem grown_addCopy : Grown alphabet a (a.addCopy t) where
  start := rfl
  size_le := by
    rw [size_addCopy, Nat.add_assoc]
    exact Nat.le_add_right _ _
  old := fun s hs => state_addCopy_of_lt hs
  inside := by
    rintro s ⟨hs, -⟩ u hu
    rcases state_addCopy_cases hs with ⟨r, hr, hstate⟩ | hstate
    · rw [successors, hstate] at hu
      have hmoved : u ∈ (t.arena.successors r).map (t.place a.size) := by
        simpa [successors, NfaState.moveTargets] using hu
      obtain ⟨v, hv, rfl⟩ := List.mem_map.1 hmoved
      have hlt := Template.place_lt (closed_found ht r hr v hv) a.size
      exact ⟨t.size_le_place a.size v, by rw [size_addCopy]; omega⟩
    · simp [successors, hstate] at hu
  symbols := by
    intro s hs e he
    rcases state_addCopy_cases hs with ⟨r, -, hstate⟩ | hstate
    · rw [hstate] at he
      obtain ⟨e', he', rfl⟩ := List.mem_map.1 he
      exact ht.grown.symbols r (Nat.zero_le _) e' he'
    · simp [hstate] at he
  unlabelled := by
    intro s hs
    rcases state_addCopy_cases hs with ⟨r, -, hstate⟩ | hstate
    · rw [hstate]
      exact ht.grown.unlabelled r (Nat.zero_le _)
    · rw [hstate]

theorem spells_addCopy :
    Spells alphabet (a.addCopy t) a.size (t.copied a.size).2
      (Pattern.Matches lexicon (.reference name)) := by
  have hentry : t.block.entry ∈ t.found := (mem_found ht).2 .refl
  have hplace : ∀ s, s ∈ t.found ∨ s = t.block.exit →
      (a.addCopy t).Since a.size (t.place a.size s) := by
    intro s hs
    refine ⟨t.size_le_place a.size s, ?_⟩
    rw [size_addCopy]
    by_cases hfound : s ∈ t.found
    · have hlt := Template.place_lt hfound a.size
      omega
    · obtain rfl := hs.resolve_left hfound
      rw [Template.place_of_not_mem hfound, Template.length_lone hfound]
      exact Nat.lt_succ_self _
  refine ⟨hplace _ (Or.inl hentry), hplace _ (Or.inr rfl), fun w => ?_⟩
  rw [← ht.spells.path]
  exact Closed.path_map_iff (closed_found ht) (fun s hs => state_addCopy_place hs)
    (fun r s hr h => Template.place_inj hr h) hentry

end Copy

/-! ### The templates of a lexicon -/

namespace Build

theorem run_copy (t : Template) (w : Workshop) :
    copy t w = .ok (t.copied w.arena.size).2 { w with arena := w.arena.addCopy t } := rfl

/-- A template is made as soon as the references of its definition can be built. -/
theorem ends_aside {pattern : Pattern} {resolve : String → Build Block} {w : Workshop}
    (halphabet : alphabet.Ordered) (hfind : lexicon.find? name = some pattern)
    (hrespects : ∀ r ∈ pattern.intervals, alphabet.Respects r)
    (hserves : ∀ n ∈ pattern.references, Serves alphabet lexicon resolve n)
    (hw : Stocked alphabet lexicon w.templates) :
    Ends alphabet lexicon w.arena (lexicon.Resolves name)
      (fun _ t => Template.Faithful alphabet lexicon name t)
      (aside (ofPattern alphabet resolve pattern) w) := by
  have hends := ends_ofPattern halphabet pattern hrespects hserves { w with arena := {} } hw
  unfold aside
  cases hr : ofPattern alphabet resolve pattern { w with arena := {} } with
  | ok b inner =>
    rw [hr] at hends
    obtain ⟨hstocked, hgrown, hrefs, hspells⟩ := hends
    have hresolves : lexicon.Resolves name := .mk hfind hrefs
    refine ⟨hstocked, .refl _, hresolves, hresolves, hgrown, ?_⟩
    exact hspells.congr fun v => (Pattern.matches_reference hfind).symm
  | error e inner =>
    rw [hr] at hends
    obtain ⟨hstocked, -, hrefs⟩ := hends
    refine ⟨hstocked, .refl _, fun hresolves => hrefs fun n hn => ?_⟩
    exact hresolves.of_refers ⟨pattern, hfind, hn⟩

/-- What is copied from a right template spells what the name stands for. -/
theorem ends_copy {make : Build Template} {w : Workshop}
    (hmake : Ends alphabet lexicon w.arena (lexicon.Resolves name)
      (fun _ t => Template.Faithful alphabet lexicon name t) (make w)) :
    Ends alphabet lexicon w.arena (lexicon.Resolves name)
      (fun a b => Spells alphabet a w.arena.size b (Pattern.Matches lexicon (.reference name)))
      ((do copy (← make)) w) := by
  apply ends_bind (.refl _) hmake id
  intro t w' hw' hgrown hresolves ht
  rw [run_copy]
  exact ⟨hw', hgrown.trans (grown_addCopy ht), hresolves,
    (spells_addCopy ht).lower hgrown.size_le⟩

/-- The names under construction are different definitions, each of which leads to the name to
build. -/
structure Visiting (lexicon : Lexicon) (visiting : List String) (name : String) : Prop where
  nodup : visiting.Nodup
  defined : ∀ v ∈ visiting, ∃ p, lexicon.find? v = some p
  leads : ∀ v ∈ visiting, Relation.TransGen lexicon.Refers v name

theorem Visiting.length_le {visiting : List String} (h : Visiting lexicon visiting name) :
    visiting.length ≤ lexicon.fragments.length + lexicon.tokens.length := by
  have hsubset : visiting ⊆ (lexicon.fragments ++ lexicon.tokens).map Definition.name := by
    intro v hv
    obtain ⟨p, hp⟩ := h.defined v hv
    exact Lexicon.mem_names_of_find? hp
  have hle := (List.subperm_of_subset h.nodup hsubset).length_le
  rwa [List.length_map, List.length_append] at hle

theorem Visiting.cons {visiting : List String} (h : Visiting lexicon visiting name)
    {pattern : Pattern} (hfind : lexicon.find? name = some pattern) (hname : name ∉ visiting)
    {inner : String} (hinner : inner ∈ pattern.references) :
    Visiting lexicon (name :: visiting) inner where
  nodup := List.nodup_cons.2 ⟨hname, h.nodup⟩
  defined := List.forall_mem_cons.2 ⟨⟨pattern, hfind⟩, h.defined⟩
  leads := by
    have hstep : lexicon.Refers name inner := ⟨pattern, hfind, hinner⟩
    exact List.forall_mem_cons.2 ⟨.single hstep, fun v hv => (h.leads v hv).tail hstep⟩

section Lexicon

variable (halphabet : alphabet.Ordered)
  (hrespects : ∀ n p, lexicon.find? n = some p → ∀ r ∈ p.intervals, alphabet.Respects r)

include halphabet hrespects

/-- The template of a name is made exactly if the definitions behind the name form a finite tree. -/
theorem ends_templateWithin (depth : Nat) (visiting : List String) (name : String) (w : Workshop)
    (hvisiting : Visiting lexicon visiting name)
    (hdepth : lexicon.fragments.length + lexicon.tokens.length < depth + visiting.length)
    (hw : Stocked alphabet lexicon w.templates) :
    Ends alphabet lexicon w.arena (lexicon.Resolves name)
      (fun _ t => Template.Faithful alphabet lexicon name t)
      (templateWithin alphabet lexicon depth visiting name w) := by
  induction depth generalizing visiting name w with
  | zero =>
    have hle := hvisiting.length_le
    omega
  | succ depth ih =>
    rw [templateWithin]
    cases hfind : lexicon.find? name with
    | none =>
      refine ⟨hw, .refl _, fun hresolves => ?_⟩
      obtain ⟨p, hp⟩ := hresolves.defined
      rw [hfind] at hp
      simp at hp
    | some pattern =>
      simp only
      rw [bind_of_ok (show (get : Build Workshop) w = .ok w w from rfl)]
      cases ht : w.templates[name]? with
      | some t =>
        have hfaithful := hw name t ht
        exact ⟨hw, .refl _, hfaithful.resolves, hfaithful⟩
      | none =>
        simp only
        split_ifs with hname
        · exact ⟨hw, .refl _, fun hresolves => hresolves.acyclic (hvisiting.leads name hname)⟩
        · refine ends_bind (.refl _)
            (ends_aside halphabet hfind (hrespects name pattern hfind) ?_ hw) id ?_
          · intro inner hinner w' hw'
            have hinside := ih (name :: visiting) inner w' (hvisiting.cons hfind hname hinner)
              (by rw [List.length_cons]; omega) hw'
            exact ends_copy hinside
          · intro t w' hw' hgrown hresolves ht
            exact ⟨hw'.insert ht, hgrown, hresolves, ht⟩

theorem serves_instantiate (name : String) :
    Serves alphabet lexicon (instantiate alphabet lexicon) name := by
  intro w hw
  have hnone : Visiting lexicon [] name := ⟨List.nodup_nil, by simp, by simp⟩
  exact ends_copy
    (ends_templateWithin halphabet hrespects _ [] name w hnone (Nat.lt_succ_self _) hw)

/-- A pattern can be built exactly if each name that it refers to stands at the top of a finite tree
of definitions. -/
theorem ends_compile {pattern : Pattern} (hpattern : ∀ r ∈ pattern.intervals, alphabet.Respects r)
    {w : Workshop} (hw : Stocked alphabet lexicon w.templates) :
    Ends alphabet lexicon w.arena (∀ n ∈ pattern.references, lexicon.Resolves n)
      (fun a b => Spells alphabet a w.arena.size b (pattern.Matches lexicon))
      (compile alphabet lexicon pattern w) :=
  ends_ofPattern halphabet pattern hpattern
    (fun n _ => serves_instantiate halphabet hrespects n) w hw

end Lexicon

end Build

end Nfa

end SyntaxTables
