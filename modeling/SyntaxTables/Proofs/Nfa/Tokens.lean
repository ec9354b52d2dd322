import SyntaxTables.Nfa.Tokens
import SyntaxTables.Proofs.Nfa.Template

/-!
# What the automaton of a lexicon accepts

No edge leads back to the start of the automaton, and each token that is added gets a part of the
states behind it for itself. So what is accepted for a token is what its pattern stands for, and the
remains of a token that is left out do not matter.
-/

namespace SyntaxTables

namespace Nfa

variable {alphabet : Alphabet} {a b : Nfa} {w : List Nat}

/-- Some state with this label is reached along the string. -/
def Accepts (alphabet : Alphabet) (a : Nfa) (w : List Nat) (label : Label) : Prop :=
  ∃ s, a.Path alphabet.Reads a.start w s ∧ (a.state s).label = some label

/-- State 0 is the start, from which only silent edges lead to the other states. -/
structure Rooted (alphabet : Alphabet) (a : Nfa) : Prop where
  start : a.start = 0
  size_pos : 0 < a.size
  edges : (a.state 0).edges = []
  targets : ∀ t ∈ (a.state 0).silent, a.Since 1 t
  inside : a.Closed (a.Since 1)
  symbols : ∀ s, ∀ e ∈ (a.state s).edges, e.1 < alphabet.size

theorem Rooted.start_lt (h : Rooted alphabet a) : a.start < a.size := by
  rw [h.start]
  exact h.size_pos

theorem Rooted.closed (h : Rooted alphabet a) : a.Closed (· < a.size) := by
  intro s hs t ht
  rcases Nat.eq_zero_or_pos s with rfl | hpos
  · rw [successors, h.edges] at ht
    exact (h.targets t (by simpa using ht)).2
  · exact (h.inside s ⟨hpos, hs⟩ t ht).2

theorem Rooted.not_mem_successors (h : Rooted alphabet a) (s : Nat) : 0 ∉ a.successors s := by
  intro hmem
  rcases Nat.lt_or_ge s a.size with hs | hs
  · rcases Nat.eq_zero_or_pos s with rfl | hpos
    · rw [successors, h.edges] at hmem
      exact absurd (h.targets 0 (by simpa using hmem)).1 (by simp)
    · exact absurd (h.inside s ⟨hpos, hs⟩ 0 hmem).1 (by simp)
  · rw [successors, state_of_size_le hs] at hmem
    simp at hmem

section Grown

variable (h : Rooted alphabet a) (hgrown : Grown alphabet a b)

include h hgrown

theorem Rooted.grown : Rooted alphabet b where
  start := hgrown.start.trans h.start
  size_pos := Nat.lt_of_lt_of_le h.size_pos hgrown.size_le
  edges := by
    rw [hgrown.old 0 h.size_pos]
    exact h.edges
  targets := by
    intro t ht
    rw [hgrown.old 0 h.size_pos] at ht
    exact (h.targets t ht).mono hgrown.size_le
  inside := by
    rintro s ⟨hpos, hlt⟩ t ht
    rcases Nat.lt_or_ge s a.size with hs | hs
    · rw [successors, hgrown.old s hs] at ht
      exact (h.inside s ⟨hpos, hs⟩ t ht).mono hgrown.size_le
    · obtain ⟨hle, htlt⟩ := hgrown.inside s ⟨hs, hlt⟩ t ht
      exact ⟨Nat.le_trans h.size_pos hle, htlt⟩
  symbols := by
    intro s
    rcases Nat.lt_or_ge s a.size with hs | hs
    · rw [hgrown.old s hs]
      exact h.symbols s
    · exact hgrown.symbols s hs

theorem Rooted.path_grown {s : Nat} :
    b.Path alphabet.Reads 0 w s ↔ a.Path alphabet.Reads 0 w s :=
  h.closed.path_iff hgrown.old h.size_pos

theorem Rooted.accepts_grown {label : Label} :
    Accepts alphabet b w label ↔ Accepts alphabet a w label := by
  unfold Accepts
  rw [hgrown.start, h.start]
  apply exists_congr
  intro s
  rw [h.path_grown hgrown]
  apply and_congr_right
  intro hp
  rw [hgrown.old s (h.closed.of_path hp h.size_pos)]

end Grown

/-! ### A further entry -/

theorem path_setLabel {u s t : Nat} {label : Label} (hu : u < a.size) :
    (a.setLabel u label).Path alphabet.Reads s w t ↔ a.Path alphabet.Reads s w t := by
  have hedges : ∀ r, ((a.setLabel u label).state r).edges = (a.state r).edges := by
    intro r
    rw [state_setLabel hu]
    split_ifs with hr
    · rw [hr]
    · rfl
  have hsilent : ∀ r, ((a.setLabel u label).state r).silent = (a.state r).silent := by
    intro r
    rw [state_setLabel hu]
    split_ifs with hr
    · rw [hr]
    · rfl
  constructor
  · exact fun hp => hp.of_edges_eq (fun r => (hedges r).symm) fun r => (hsilent r).symm
  · exact fun hp => hp.of_edges_eq hedges hsilent

/-- The arena with a silent edge from the start into a block, the exit of which is labelled. -/
def addEntry (a : Nfa) (x : Block) (label : Label) : Nfa :=
  (a.addSilent a.start x.entry).setLabel x.exit label

section Entry

variable {x : Block} {L : List Nat → Prop} (h : Rooted alphabet a) (hgrown : Grown alphabet a b)
  (hx : Spells alphabet b a.size x L) (label : Label)

include h hgrown hx

theorem state_addEntry (s : Nat) :
    (b.addEntry x label).state s =
      if s = x.exit then { b.state s with label := some label }
      else if s = 0 then { b.state s with silent := (b.state s).silent ++ [x.entry] }
      else b.state s := by
  have hb := h.grown hgrown
  have hexit : x.exit ≠ 0 := Nat.ne_of_gt (Nat.lt_of_lt_of_le h.size_pos hx.exit.1)
  rw [addEntry, state_setLabel (by simpa using hx.exit.2), hb.start, state_addSilent hb.size_pos,
    state_addSilent hb.size_pos, if_neg hexit]
  split_ifs with hs hs'
  · rw [hs]
  · rw [hs']
  · rfl

theorem Rooted.addEntry : Rooted alphabet (b.addEntry x label) := by
  have hb := h.grown hgrown
  have hstate := state_addEntry h hgrown hx label
  have hsize : (b.addEntry x label).size = b.size := by simp [Nfa.addEntry]
  have hexit : x.exit ≠ 0 := Nat.ne_of_gt (Nat.lt_of_lt_of_le h.size_pos hx.exit.1)
  have hedges : ∀ s, ((b.addEntry x label).state s).edges = (b.state s).edges := by
    intro s
    rw [hstate]
    split_ifs <;> rfl
  have hentry : b.Since 1 x.entry := ⟨Nat.le_trans h.size_pos hx.entry.1, hx.entry.2⟩
  constructor
  · exact hb.start
  · rw [hsize]
    exact hb.size_pos
  · rw [hedges]
    exact hb.edges
  · intro t ht
    rw [Since, hsize]
    rw [hstate, if_neg hexit.symm, if_pos rfl] at ht
    rcases List.mem_append.1 ht with ht | ht
    · exact hb.targets t ht
    · rw [List.mem_singleton.1 ht]
      exact hentry
  · intro s hs t ht
    rw [Since, hsize] at hs ⊢
    have hsilent : ((b.addEntry x label).state s).silent = (b.state s).silent := by
      rw [hstate, if_neg (Nat.ne_of_gt hs.1)]
      split_ifs <;> rfl
    rw [successors, hedges, hsilent] at ht
    exact hb.inside s hs t ht
  · intro s
    rw [hedges]
    exact hb.symbols s

/-- From the start one can go on as before or through the block. -/
theorem path_addEntry {s : Nat} :
    (b.addEntry x label).Path alphabet.Reads 0 w s ↔
      a.Path alphabet.Reads 0 w s ∨ b.Path alphabet.Reads x.entry w s := by
  have hb := h.grown hgrown
  have hstate := state_addSilent hb.size_pos x.entry
  have hopened : Opened b (b.addSilent 0 x.entry) (· < b.size) 0 [x.entry] := by
    refine ⟨hb.closed, ?_, ?_, ?_⟩
    · intro s _ hs
      rw [hstate, if_neg hs]
    · rw [hstate, if_pos rfl]
    · rw [hstate, if_pos rfl]
  have hblock : ∀ {v}, (b.addSilent 0 x.entry).Path alphabet.Reads x.entry v s ↔
      b.Path alphabet.Reads x.entry v s := by
    intro v
    refine hgrown.inside.path_iff (fun r hr => ?_) hx.entry
    rw [hstate, if_neg (Nat.ne_of_gt (Nat.lt_of_lt_of_le h.size_pos hr.1))]
  rw [← h.path_grown hgrown, addEntry, hb.start, path_setLabel (by simpa using hx.exit.2)]
  constructor
  · intro hp
    rcases hopened.exists_first hp hb.size_pos with hp | ⟨u, v, rfl, hu, t, ht, hv⟩
    · exact Or.inl hp
    · right
      obtain ⟨rfl, -⟩ := hb.closed.eq_of_no_predecessor hu
        (fun r _ => hb.not_mem_successors r) hb.size_pos
      rw [List.mem_singleton.1 ht] at hv
      exact hblock.1 hv
  · rintro (hp | hp)
    · exact hopened.path hp hb.size_pos
    · exact .silent ((hopened.mem_silent hb.size_pos).2 (Or.inr ⟨rfl, List.mem_cons_self⟩))
        (hblock.2 hp)

theorem accepts_addEntry {label' : Label} :
    Accepts alphabet (b.addEntry x label) w label' ↔
      Accepts alphabet a w label' ∨ label' = label ∧ L w := by
  have hstate := state_addEntry h hgrown hx label
  have hlabel : ∀ s, ((b.addEntry x label).state s).label =
      if s = x.exit then some label else (b.state s).label := by
    intro s
    rw [hstate]
    split_ifs <;> rfl
  unfold Accepts
  rw [(h.addEntry hgrown hx label).start, h.start]
  simp only [path_addEntry h hgrown hx label, hlabel]
  constructor
  · rintro ⟨s, hp | hp, hs⟩
    · have hlt := h.closed.of_path hp h.size_pos
      rw [if_neg (Nat.ne_of_lt (Nat.lt_of_lt_of_le hlt hx.exit.1)), hgrown.old s hlt] at hs
      exact Or.inl ⟨s, hp, hs⟩
    · right
      have hle := (hgrown.inside.of_path hp hx.entry).1
      split_ifs at hs with he
      · subst he
        exact ⟨(Option.some.inj hs).symm, (hx.path w).1 hp⟩
      · rw [hgrown.unlabelled s hle] at hs
        simp at hs
  · rintro (⟨s, hp, hs⟩ | ⟨rfl, hw⟩)
    · have hlt := h.closed.of_path hp h.size_pos
      refine ⟨s, Or.inl hp, ?_⟩
      rw [if_neg (Nat.ne_of_lt (Nat.lt_of_lt_of_le hlt hx.exit.1)), hgrown.old s hlt]
      exact hs
    · exact ⟨x.exit, Or.inr ((hx.path w).2 hw), if_pos rfl⟩

end Entry

end Nfa

/-! ### All tokens -/

namespace TokenNfa

variable {alphabet : Alphabet} {lexicon : Lexicon} {t u : TokenNfa} {k : Nat}

/-- The automaton accepts the live ones of the first `k` tokens. -/
structure Joins (alphabet : Alphabet) (lexicon : Lexicon) (k : Nat) (t : TokenNfa) : Prop where
  stocked : Stocked alphabet lexicon t.workshop.templates
  rooted : t.automaton.Rooted alphabet
  accepts : ∀ w label, t.automaton.Accepts alphabet w label ↔
    ∃ i < k, label = ⟨i, i⟩ ∧ ∃ d, lexicon.Live i d ∧ d.pattern.Matches lexicon w
  accepted : t.accepted = 0 ↔ ∀ i < k, ∀ d, ¬ lexicon.Live i d

theorem joins_empty (reports : List Diagnostic) : Joins alphabet lexicon 0 (empty reports) := by
  have hstate : ∀ s, (empty reports).automaton.state s = {} := by
    intro s
    refine (Nfa.state_addState {} s).trans (Nfa.state_of_size_le (Nat.zero_le _))
  have hnone : ∀ s r, r ∉ (empty reports).automaton.successors s := by
    intro s r hr
    simp [Nfa.successors, hstate] at hr
  refine ⟨stocked_empty, ⟨rfl, Nat.zero_lt_one, by rw [hstate], ?_, ?_, ?_⟩, ?_, ?_⟩
  · intro r hr
    simp [hstate] at hr
  · intro s _ r hr
    exact absurd hr (hnone s r)
  · intro s e he
    simp [hstate] at he
  · intro w label
    constructor
    · rintro ⟨s, -, hs⟩
      rw [hstate] at hs
      simp at hs
    · rintro ⟨i, hi, -⟩
      exact absurd hi (Nat.not_lt_zero i)
  · simp [empty]

/-- A token that is not live may leave states behind. -/
theorem Joins.skip (h : Joins alphabet lexicon k t)
    (hstocked : Stocked alphabet lexicon u.workshop.templates)
    (hgrown : Nfa.Grown alphabet t.automaton u.automaton) (haccepted : u.accepted = t.accepted)
    (hlive : ∀ d, ¬ lexicon.Live k d) : Joins alphabet lexicon (k + 1) u := by
  refine ⟨hstocked, h.rooted.grown hgrown, fun w label => ?_, ?_⟩
  · rw [h.rooted.accepts_grown hgrown, h.accepts]
    constructor
    · rintro ⟨i, hi, hrest⟩
      exact ⟨i, Nat.lt_succ_of_lt hi, hrest⟩
    · rintro ⟨i, hi, hlabel, d, hd, hw⟩
      rcases Nat.lt_succ_iff_lt_or_eq.1 hi with hi | rfl
      · exact ⟨i, hi, hlabel, d, hd, hw⟩
      · exact absurd hd (hlive d)
  · rw [haccepted, h.accepted]
    constructor
    · intro hnone i hi
      rcases Nat.lt_succ_iff_lt_or_eq.1 hi with hi | rfl
      · exact hnone i hi
      · exact hlive
    · intro hnone i hi
      exact hnone i (Nat.lt_succ_of_lt hi)

/-- A live token is accepted by its entry. -/
theorem Joins.enter (h : Joins alphabet lexicon k t)
    (hstocked : Stocked alphabet lexicon u.workshop.templates) {d : Definition} {a : Nfa}
    {x : Block} (hlive : lexicon.Live k d) (hgrown : Nfa.Grown alphabet t.automaton a)
    (hx : Nfa.Spells alphabet a t.automaton.size x (d.pattern.Matches lexicon))
    (hautomaton : u.automaton = a.addEntry x ⟨k, k⟩) (haccepted : u.accepted = t.accepted + 1) :
    Joins alphabet lexicon (k + 1) u := by
  refine ⟨hstocked, ?_, fun v label => ?_, ?_⟩
  · rw [hautomaton]
    exact h.rooted.addEntry hgrown hx ⟨k, k⟩
  · rw [hautomaton, Nfa.accepts_addEntry h.rooted hgrown hx ⟨k, k⟩, h.accepts]
    constructor
    · rintro (⟨i, hi, hrest⟩ | ⟨hlabel, hv⟩)
      · exact ⟨i, Nat.lt_succ_of_lt hi, hrest⟩
      · exact ⟨k, Nat.lt_succ_self k, hlabel, d, hlive, hv⟩
    · rintro ⟨i, hi, hlabel, e, he, hv⟩
      rcases Nat.lt_succ_iff_lt_or_eq.1 hi with hi | rfl
      · exact Or.inl ⟨i, hi, hlabel, e, he, hv⟩
      · obtain rfl := hlive.unique he
        exact Or.inr ⟨hlabel, hv⟩
  · rw [haccepted]
    simp only [Nat.succ_ne_zero, false_iff]
    exact fun hnone => hnone k (Nat.lt_succ_self k) d hlive

/-- What becomes of token `k`, whose name is not taken. A live one gets an entry; of another one
states are left that nothing leads to, and a report. -/
inductive Adds (alphabet : Alphabet) (lexicon : Lexicon) (k : Nat) (t u : TokenNfa) : Prop
  | entered {d : Definition} {a : Nfa} {x : Block} (live : lexicon.Live k d)
    (grown : Nfa.Grown alphabet t.automaton a)
    (spells : Nfa.Spells alphabet a t.automaton.size x (d.pattern.Matches lexicon))
    (automaton : u.automaton = a.addEntry x ⟨k, k⟩) (accepted : u.accepted = t.accepted + 1)
    (reports : u.reports = t.reports)
  | rejected (dead : ∀ d, ¬ lexicon.Live k d)
    (grown : Nfa.Grown alphabet t.automaton u.automaton) (accepted : u.accepted = t.accepted)
    {defect : LexiconDefect} {location : Option Location}
    (reports : u.reports = t.reports ++ [.error defect.message location])

theorem addTokens_induction (holds : Nat → TokenNfa → Prop)
    (skip : ∀ {k t}, lexicon.isDuplicateToken k = true → holds k t → holds (k + 1) t)
    (add : ∀ {k t d}, lexicon.tokens[k]? = some d → lexicon.isDuplicateToken k = false →
      holds k t → holds (k + 1) (t.addToken alphabet lexicon k d))
    (ds : List Definition) (h : holds k t) (hk : k ≤ lexicon.tokens.length)
    (hds : lexicon.tokens.drop k = ds) :
    holds lexicon.tokens.length (t.addTokens alphabet lexicon k ds) := by
  induction ds generalizing k t with
  | nil =>
    obtain rfl : k = lexicon.tokens.length := Nat.le_antisymm hk (List.drop_eq_nil_iff.1 hds)
    exact h
  | cons d ds ih =>
    rw [TokenNfa.addTokens]
    have hd : lexicon.tokens[k]? = some d := by
      rw [← List.head?_drop, hds]
      rfl
    refine ih ?_ (List.getElem?_eq_some_iff.1 hd).1 (by rw [← List.tail_drop, hds, List.tail_cons])
    split_ifs with hduplicate
    · exact skip hduplicate h
    · exact add hd (by simpa using hduplicate) h

section Respectful

variable (halphabet : alphabet.Ordered)
  (hfind : ∀ n p, lexicon.find? n = some p → ∀ r ∈ p.intervals, alphabet.Respects r)

include halphabet hfind

theorem adds_addToken (hstocked : Stocked alphabet lexicon t.workshop.templates) {d : Definition}
    (hd : lexicon.tokens[k]? = some d) (hduplicate : lexicon.isDuplicateToken k = false)
    (hpattern : ∀ r ∈ d.pattern.intervals, alphabet.Respects r) :
    Stocked alphabet lexicon (t.addToken alphabet lexicon k d).workshop.templates ∧
      Adds alphabet lexicon k t (t.addToken alphabet lexicon k d) := by
  have hlive : ∀ e, lexicon.Live k e ↔ e = d ∧
      (∀ n ∈ d.pattern.references, lexicon.Resolves n) ∧ ¬ d.pattern.Matches lexicon [] := by
    intro e
    constructor
    · intro he
      obtain rfl := Option.some.inj (hd.symm.trans he.token)
      exact ⟨rfl, ((Lexicon.live_iff hd).1 he).2⟩
    · rintro ⟨rfl, hrest⟩
      exact (Lexicon.live_iff hd).2 ⟨hduplicate, hrest⟩
  have hends := Nfa.Build.ends_compile halphabet hfind hpattern hstocked
  unfold TokenNfa.addToken
  rw [EStateM.run]
  cases hr : Nfa.Build.compile alphabet lexicon d.pattern t.workshop with
  | error cause w =>
    rw [hr] at hends
    obtain ⟨hstocked', hgrown, hrefs⟩ := hends
    exact ⟨hstocked', .rejected (fun e he => hrefs ((hlive e).1 he).2.1) hgrown rfl rfl⟩
  | ok x w =>
    rw [hr] at hends
    obtain ⟨hstocked', hgrown, hrefs, hx⟩ := hends
    have hempty : w.arena.silentlyReaches x.entry x.exit = true ↔ d.pattern.Matches lexicon [] :=
      Nfa.silentlyReaches_iff.trans (hx.path [])
    simp only
    split_ifs with hreaches
    · have hdead : ∀ e, ¬ lexicon.Live k e := fun e he => ((hlive e).1 he).2.2 (hempty.1 hreaches)
      exact ⟨hstocked', .rejected hdead hgrown rfl rfl⟩
    · have hd' : lexicon.Live k d := (hlive d).2 ⟨rfl, hrefs, mt hempty.2 hreaches⟩
      exact ⟨hstocked', .entered hd' hgrown hx rfl rfl rfl⟩

theorem Joins.addToken (h : Joins alphabet lexicon k t) {d : Definition}
    (hd : lexicon.tokens[k]? = some d) (hduplicate : lexicon.isDuplicateToken k = false)
    (hpattern : ∀ r ∈ d.pattern.intervals, alphabet.Respects r) :
    Joins alphabet lexicon (k + 1) (t.addToken alphabet lexicon k d) := by
  obtain ⟨hstocked, hadds⟩ := adds_addToken halphabet hfind h.stocked hd hduplicate hpattern
  cases hadds with
  | entered hlive hgrown hx hautomaton haccepted =>
    exact h.enter hstocked hlive hgrown hx hautomaton haccepted
  | rejected hdead hgrown haccepted => exact h.skip hstocked hgrown haccepted hdead

/-- The automaton of a lexicon accepts what its live tokens stand for. -/
theorem joins_tokenNfa
    (htokens : ∀ d ∈ lexicon.tokens, ∀ r ∈ d.pattern.intervals, alphabet.Respects r) :
    Joins alphabet lexicon lexicon.tokens.length (lexicon.tokenNfa alphabet) := by
  apply addTokens_induction (Joins alphabet lexicon) _ _ _ (joins_empty _) (Nat.zero_le _) rfl
  · intro k t hduplicate h
    apply h.skip h.stocked (.refl _) rfl
    intro e he
    simp [he.isDuplicateToken_eq_false] at hduplicate
  · intro k t d hd hduplicate h
    exact h.addToken halphabet hfind hd hduplicate (htokens d (List.mem_of_getElem? hd))

end Respectful

end TokenNfa

end SyntaxTables
