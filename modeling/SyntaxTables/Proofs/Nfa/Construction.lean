import SyntaxTables.Proofs.Nfa.Block

/-!
# Putting blocks together

Each construction takes blocks of an arena and adds some states and edges. What the new block spells
follows from what the given ones spell, because the given ones stay as they are but for one silent
edge or two that leave their exits.
-/

namespace SyntaxTables.Nfa

variable {alphabet : Alphabet} {base a b c : Nfa} {L M : List Nat → Prop}

theorem Since.mono {low s : Nat} (h : a.Since low s) (hle : a.size ≤ b.size) : b.Since low s :=
  ⟨h.1, Nat.lt_of_lt_of_le h.2 hle⟩

def addBlock (a : Nfa) : Nfa := a.addState.addState

@[simp] theorem size_addBlock (a : Nfa) : a.addBlock.size = a.size + 2 := by simp [addBlock]

theorem state_addBlock (a : Nfa) (s : Nat) : a.addBlock.state s = a.state s := by
  rw [addBlock, state_addState, state_addState]

theorem Grown.addBlock (h : Grown alphabet a b) : Grown alphabet a b.addBlock := h.addState.addState

/-! ### A block around a block -/

/-- The silent edges of a new entry and exit around a block, which may be passed by or gone through
again. -/
def wrapEdges (a : Nfa) (e : Block) (skip again : Bool) : List (Nat × Nat) :=
  (a.size, e.entry) :: (if skip then [(a.size, a.size + 1)] else []) ++
    (if again then [(e.exit, e.entry)] else []) ++ [(e.exit, a.size + 1)]

def wrap (a : Nfa) (e : Block) (skip again : Bool) : Nfa :=
  a.addBlock.addSilents (a.wrapEdges e skip again)

/-- Something is passed by, if this is allowed, or gone through once and then, if this is allowed,
any number of times. -/
def Rounds (skip again : Bool) (L : List Nat → Prop) (w : List Nat) : Prop :=
  skip = true ∧ w = [] ∨ ∃ (u : List Nat) (rounds : List (List Nat)),
    w = u ++ rounds.flatten ∧ L u ∧ ∀ x ∈ rounds, again = true ∧ L x

section Wrap

variable {e : Block} (hgrown : Grown alphabet base a) (he : Spells alphabet a base.size e L)
  (skip again : Bool)

include hgrown he

theorem since_wrapEdges : ∀ x ∈ a.wrapEdges e skip again,
    a.addBlock.Since base.size x.1 ∧ a.addBlock.Since base.size x.2 := by
  have hle := hgrown.size_le
  obtain ⟨hentry, hentry'⟩ := he.entry
  obtain ⟨hexit, hexit'⟩ := he.exit
  intro x hx
  unfold Since
  rw [size_addBlock]
  cases skip <;> cases again <;> simp [wrapEdges] at hx <;> grind

theorem grown_wrap : Grown alphabet base (a.wrap e skip again) :=
  hgrown.addBlock.addSilents (since_wrapEdges hgrown he skip again)

theorem state_wrap (s : Nat) :
    (a.wrap e skip again).state s =
      { a.state s with
        silent := (a.state s).silent ++
          ((a.wrapEdges e skip again).filter fun x => x.1 = s).map Prod.snd } := by
  rw [wrap, state_addSilents fun x hx => (since_wrapEdges hgrown he skip again x hx).1.2,
    state_addBlock]

theorem opened_wrap :
    Opened a (a.wrap e skip again) (a.Since base.size) e.exit
      ((if again then [e.entry] else []) ++ [a.size + 1]) := by
  have hexit := he.exit.2
  have hstate := state_wrap hgrown he skip again
  constructor
  · exact hgrown.inside
  · rintro s ⟨-, hs⟩ hne
    have hsize : a.size ≠ s := Nat.ne_of_gt hs
    rw [hstate s]
    cases skip <;> cases again <;> simp [wrapEdges, hsize, Ne.symm hne]
  · rw [hstate]
  · have hsize : a.size ≠ e.exit := Nat.ne_of_gt hexit
    rw [hstate]
    cases skip <;> cases again <;> simp [wrapEdges, hsize]

theorem state_wrap_entry :
    (a.wrap e skip again).state a.size =
      { silent := e.entry :: if skip then [a.size + 1] else [] } := by
  have hexit : e.exit ≠ a.size := Nat.ne_of_lt he.exit.2
  rw [state_wrap hgrown he skip again, state_of_size_le (Nat.le_refl _)]
  cases skip <;> cases again <;> simp [wrapEdges, hexit]

theorem state_wrap_exit : (a.wrap e skip again).state (a.size + 1) = {} := by
  have hexit : e.exit ≠ a.size + 1 := Nat.ne_of_lt (Nat.lt_succ_of_lt he.exit.2)
  rw [state_wrap hgrown he skip again, state_of_size_le (Nat.le_succ _)]
  cases skip <;> cases again <;> simp [wrapEdges, hexit]

/-- The new block spells what is read in rounds through the old one. -/
theorem spells_wrap :
    Spells alphabet (a.wrap e skip again) base.size ⟨a.size, a.size + 1⟩
      (Rounds skip again L) := by
  have hsize : (a.wrap e skip again).size = a.size + 2 := by simp [wrap]
  have hopened := opened_wrap hgrown he skip again
  have hentry := state_wrap_entry hgrown he skip again
  have hexit := state_wrap_exit hgrown he skip again
  have hback : ∀ s ∈ (if again = true then [e.entry] else []), s = e.entry ∧ again = true := by
    cases again <;> simp
  have hend : ∀ {w : List Nat}, (a.wrap e skip again).Path alphabet.Reads (a.size + 1) w
      (a.size + 1) → w = [] :=
    fun hp => (hp.eq_of_no_successors (by simp [successors, hexit])).1
  have hle := hgrown.size_le
  refine ⟨⟨hle, hsize ▸ Nat.lt_succ_of_lt (Nat.lt_succ_self _)⟩,
    ⟨Nat.le_succ_of_le hle, hsize ▸ Nat.lt_succ_self _⟩, ?_⟩
  intro w
  constructor
  · intro hp
    rcases hp.first with ⟨-, hne⟩ | ⟨t, ht, hp⟩ | ⟨_, _, x, t, -, hx, -⟩
    · exact absurd hne (Nat.succ_ne_self _)
    · rw [hentry] at ht
      rcases List.mem_cons.1 ht with rfl | ht
      · right
        obtain ⟨u, rounds, v, rfl, hu, hrounds, hv⟩ :=
          hopened.exists_last (fun s hs => (hback s hs).1 ▸ he.entry) hp he.entry
            (fun hs => absurd hs.2 (Nat.not_lt.2 (Nat.le_succ _)))
        refine ⟨u, rounds, by rw [hend hv, List.append_nil], (he.path u).1 hu, ?_⟩
        intro x hx
        obtain ⟨s, hs, hpath⟩ := hrounds x hx
        obtain ⟨rfl, hagain⟩ := hback s hs
        exact ⟨hagain, (he.path x).1 hpath⟩
      · left
        cases hskip : skip with
        | false => simp [hskip] at ht
        | true =>
          simp only [hskip, if_true, List.mem_singleton] at ht
          subst ht
          exact ⟨rfl, hend hp⟩
    · simp [hentry] at hx
  · rintro (⟨rfl, rfl⟩ | ⟨u, rounds, rfl, hu, hrounds⟩)
    · refine .silent ?_ (.nil _)
      rw [hentry]
      simp
    · refine .silent (t := e.entry) (by rw [hentry]; exact List.mem_cons_self) ?_
      rw [← List.append_nil rounds.flatten]
      refine hopened.path_last he.exit (fun s hs => (hback s hs).1 ▸ he.entry) he.entry
        ((he.path u).2 hu) ?_ (.nil _)
      intro x hx
      obtain ⟨hagain, hx⟩ := hrounds x hx
      exact ⟨e.entry, by simp [hagain], (he.path x).2 hx⟩

end Wrap

/-! ### A block behind a block -/

section Append

variable {x y : Block} (hgrown : Grown alphabet base a) (hx : Spells alphabet a base.size x L)
  (hgrown' : Grown alphabet a b) (hy : Spells alphabet b a.size y M)

include hgrown hx hgrown' hy

theorem grown_append : Grown alphabet base (b.addSilent x.exit y.entry) :=
  (hgrown.trans hgrown').addSilent (hx.exit.mono hgrown'.size_le) (hy.lower hgrown.size_le).entry

/-- The first block is left for the second one, from which there is no way back. -/
theorem spells_append :
    Spells alphabet (b.addSilent x.exit y.entry) base.size ⟨x.entry, y.exit⟩ fun w =>
      ∃ u v, w = u ++ v ∧ L u ∧ M v := by
  have hexit : x.exit < b.size := Nat.lt_of_lt_of_le hx.exit.2 hgrown'.size_le
  have hfirst : b.Closed (a.Since base.size) :=
    hgrown.inside.of_same fun s hs => hgrown'.old s hs.2
  have hopened : Opened b (b.addSilent x.exit y.entry) (a.Since base.size) x.exit
      [y.entry] := by
    refine ⟨hfirst, ?_, ?_, ?_⟩
    · intro s _ hne
      rw [state_addSilent hexit, if_neg hne]
    · rw [state_addSilent hexit, if_pos rfl]
    · rw [state_addSilent hexit, if_pos rfl]
  have hsecond : ∀ s, b.Since a.size s → (b.addSilent x.exit y.entry).state s = b.state s := by
    intro s hs
    rw [state_addSilent hexit, if_neg (Nat.ne_of_gt (Nat.lt_of_lt_of_le hx.exit.2 hs.1))]
  have hpathx : ∀ u, b.Path alphabet.Reads x.entry u x.exit ↔ L u := by
    intro u
    rw [hgrown.inside.path_iff (fun s hs => hgrown'.old s hs.2) hx.entry, hx.path]
  have hpathy : ∀ v, (b.addSilent x.exit y.entry).Path alphabet.Reads y.entry v y.exit ↔ M v := by
    intro v
    rw [hgrown'.inside.path_iff hsecond hy.entry, hy.path]
  have hlower := hy.lower hgrown.size_le
  refine ⟨(hx.entry.mono hgrown'.size_le).mono (by simp), hlower.exit.mono (by simp), ?_⟩
  intro w
  rw [hopened.path_out_iff hx.exit hx.entry fun hs => absurd hs.2 (Nat.not_lt.2 hy.exit.1)]
  simp only [hpathx, hpathy]

end Append

/-! ### Blocks side by side -/

/-- A block to which alternatives can be added. Nothing leads to its entry or away from its exit. -/
structure Choice (alphabet : Alphabet) (a : Nfa) (low : Nat) (x : Block)
    (language : List Nat → Prop) : Prop extends Spells alphabet a low x language where
  ne : x.entry ≠ x.exit
  first : ∀ s, a.Since low s → x.entry ∉ a.successors s
  last : a.successors x.exit = []

theorem Choice.congr {low : Nat} {x : Block} (h : Choice alphabet a low x L)
    (hLM : ∀ w, L w ↔ M w) : Choice alphabet a low x M :=
  ⟨h.toSpells.congr hLM, h.ne, h.first, h.last⟩

theorem choice_addBlock (hgrown : Grown alphabet base a) :
    Choice alphabet a.addBlock base.size ⟨a.size, a.size + 1⟩ fun _ => False := by
  have hle := hgrown.size_le
  have hnone : ∀ s, a.size ≤ s → a.addBlock.successors s = [] := by
    intro s hs
    rw [successors, state_addBlock, state_of_size_le hs]
    rfl
  refine ⟨⟨⟨hle, ?_⟩, ⟨Nat.le_succ_of_le hle, ?_⟩, ?_⟩, ?_, ?_, ?_⟩
  · rw [size_addBlock]
    exact Nat.lt_succ_of_lt (Nat.lt_succ_self _)
  · rw [size_addBlock]
    exact Nat.lt_succ_self _
  · intro w
    refine ⟨fun hp => ?_, False.elim⟩
    exact absurd (hp.eq_of_no_successors (hnone _ (Nat.le_refl _))).2 (Nat.succ_ne_self _)
  · exact (Nat.succ_ne_self _).symm
  · intro s hs hmem
    by_cases hlt : s < a.size
    · rw [successors, state_addBlock] at hmem
      exact absurd (hgrown.inside s ⟨hs.1, hlt⟩ _ hmem).2 (Nat.lt_irrefl _)
    · rw [hnone s (Nat.not_lt.1 hlt)] at hmem
      simp at hmem
  · exact hnone _ (Nat.le_succ _)

section Alternative

variable {x y : Block} (hgrown : Grown alphabet base a) (hx : Choice alphabet a base.size x L)
  (hgrown' : Grown alphabet a b) (hy : Spells alphabet b a.size y M)

include hx in
theorem ne_of_since {s : Nat} (hs : b.Since a.size s) : s ≠ x.entry ∧ s ≠ x.exit :=
  ⟨Nat.ne_of_gt (Nat.lt_of_lt_of_le hx.entry.2 hs.1),
    Nat.ne_of_gt (Nat.lt_of_lt_of_le hx.exit.2 hs.1)⟩

def addAlternative (b : Nfa) (x y : Block) : Nfa :=
  b.addSilents [(x.entry, y.entry), (y.exit, x.exit)]

include hgrown hx hgrown' hy

theorem since_alternative : ∀ e ∈ [(x.entry, y.entry), (y.exit, x.exit)],
    b.Since base.size e.1 ∧ b.Since base.size e.2 := by
  have hlower := hy.lower hgrown.size_le
  have hxentry := hx.entry.mono hgrown'.size_le
  have hxexit := hx.exit.mono hgrown'.size_le
  simpa using ⟨⟨hxentry, hlower.entry⟩, hlower.exit, hxexit⟩

theorem grown_alternative : Grown alphabet base (b.addAlternative x y) :=
  (hgrown.trans hgrown').addSilents (since_alternative hgrown hx hgrown' hy)

theorem state_alternative (s : Nat) :
    (b.addAlternative x y).state s =
      { b.state s with
        silent := (b.state s).silent ++
          ([(x.entry, y.entry), (y.exit, x.exit)].filter fun e => e.1 = s).map Prod.snd } :=
  state_addSilents (fun e he => (since_alternative hgrown hx hgrown' hy e he).1.2) s

theorem opened_old :
    Opened b (b.addAlternative x y) (a.Since base.size) x.entry [y.entry] := by
  have hstate := state_alternative hgrown hx hgrown' hy
  have hout : ∀ {s}, s < a.size → y.exit ≠ s :=
    fun hs => Nat.ne_of_gt (Nat.lt_of_lt_of_le hs hy.exit.1)
  refine ⟨hgrown.inside.of_same fun s hs => hgrown'.old s hs.2, ?_, ?_, ?_⟩
  · intro s hs hne
    rw [hstate]
    simp [hout hs.2, Ne.symm hne]
  · rw [hstate]
  · rw [hstate]
    simp [hout hx.entry.2]

theorem opened_new :
    Opened b (b.addAlternative x y) (b.Since a.size) y.exit [x.exit] := by
  have hstate := state_alternative hgrown hx hgrown' hy
  have hout : ∀ {s}, a.size ≤ s → x.entry ≠ s :=
    fun hs => Nat.ne_of_lt (Nat.lt_of_lt_of_le hx.entry.2 hs)
  refine ⟨hgrown'.inside, ?_, ?_, ?_⟩
  · intro s hs hne
    rw [hstate]
    simp [hout hs.1, Ne.symm hne]
  · rw [hstate]
  · rw [hstate]
    simp [hout hy.exit.1]

theorem successors_alternative {s t : Nat} :
    t ∈ (b.addAlternative x y).successors s ↔
      t ∈ b.successors s ∨ s = x.entry ∧ t = y.entry ∨ s = y.exit ∧ t = x.exit := by
  rw [mem_successors, mem_successors, state_alternative hgrown hx hgrown' hy]
  simp only [List.mem_append, or_assoc]
  refine or_congr Iff.rfl (or_congr Iff.rfl ?_)
  by_cases hentry : x.entry = s <;> by_cases hexit : y.exit = s <;>
    simp [hentry, hexit, eq_comm]

theorem last_alternative : (b.addAlternative x y).successors x.exit = [] := by
  rw [List.eq_nil_iff_forall_not_mem]
  intro t ht
  rcases (successors_alternative hgrown hx hgrown' hy).1 ht with ht | ⟨he, -⟩ | ⟨he, -⟩
  · have hnil := hx.last
    rw [successors, ← hgrown'.old _ hx.exit.2] at hnil
    rw [successors, hnil] at ht
    simp at ht
  · exact hx.ne he.symm
  · exact (ne_of_since hx hy.exit).2 he.symm

theorem first_alternative (s : Nat) (hs : (b.addAlternative x y).Since base.size s) :
    x.entry ∉ (b.addAlternative x y).successors s := by
  obtain ⟨hlow, hlt⟩ := hs
  rw [addAlternative, size_addSilents] at hlt
  intro hmem
  rcases (successors_alternative hgrown hx hgrown' hy).1 hmem with hmem | ⟨-, he⟩ | ⟨-, he⟩
  · by_cases ha : s < a.size
    · rw [successors, hgrown'.old s ha] at hmem
      exact hx.first s ⟨hlow, ha⟩ hmem
    · exact (ne_of_since hx (hgrown'.inside s ⟨Nat.not_lt.1 ha, hlt⟩ _ hmem)).1 rfl
  · exact (ne_of_since hx hy.entry).1 he.symm
  · exact hx.ne he

theorem path_alternative_new {w : List Nat} :
    (b.addAlternative x y).Path alphabet.Reads y.entry w x.exit ↔ M w := by
  have hnew := opened_new hgrown hx hgrown' hy
  rw [hnew.path_out_iff hy.exit hy.entry fun hs => absurd hs.1 (Nat.not_le.2 hx.exit.2)]
  constructor
  · rintro ⟨u, v, rfl, hu, hv⟩
    obtain ⟨rfl, -⟩ := hv.eq_of_no_successors (last_alternative hgrown hx hgrown' hy)
    rw [List.append_nil]
    exact (hy.path u).1 hu
  · intro hw
    exact ⟨w, [], by simp, (hy.path w).2 hw, .nil _⟩

theorem path_alternative {w : List Nat} :
    (b.addAlternative x y).Path alphabet.Reads x.entry w x.exit ↔ L w ∨ M w := by
  have hold := opened_old hgrown hx hgrown' hy
  have hsame : ∀ {u t}, b.Path alphabet.Reads x.entry u t ↔ a.Path alphabet.Reads x.entry u t :=
    hgrown.inside.path_iff (fun s hs => hgrown'.old s hs.2) hx.entry
  constructor
  · intro hp
    rcases hold.exists_first hp hx.entry with hp | ⟨u, v, rfl, hu, t, ht, hv⟩
    · exact Or.inl ((hx.path w).1 (hsame.1 hp))
    · right
      obtain ⟨rfl, -⟩ := hgrown.inside.eq_of_no_predecessor (hsame.1 hu) hx.first hx.entry
      rw [List.mem_singleton] at ht
      subst ht
      exact (path_alternative_new hgrown hx hgrown' hy).1 hv
  · rintro (hw | hw)
    · exact hold.path (hsame.2 ((hx.path w).2 hw)) hx.entry
    · refine .silent ((hold.mem_silent hx.entry).2 (Or.inr ⟨rfl, List.mem_cons_self⟩)) ?_
      exact (path_alternative_new hgrown hx hgrown' hy).2 hw

/-- What the block spells now is what it spelled before or what is spelled on the new way. -/
theorem choice_alternative :
    Choice alphabet (b.addAlternative x y) base.size x fun w => L w ∨ M w where
  entry := (hx.entry.mono hgrown'.size_le).mono (by simp [addAlternative])
  exit := (hx.exit.mono hgrown'.size_le).mono (by simp [addAlternative])
  path := fun _ => path_alternative hgrown hx hgrown' hy
  ne := hx.ne
  first := first_alternative hgrown hx hgrown' hy
  last := last_alternative hgrown hx hgrown' hy

end Alternative

/-! ### Blocks of edges -/

theorem spells_addSilent (hgrown : Grown alphabet base a) :
    Grown alphabet base (a.addBlock.addSilent a.size (a.size + 1)) ∧
      Spells alphabet (a.addBlock.addSilent a.size (a.size + 1)) base.size ⟨a.size, a.size + 1⟩
        fun w => w = [] := by
  have hle := hgrown.size_le
  have hentry : a.addBlock.Since base.size a.size := ⟨hle, by rw [size_addBlock]; omega⟩
  have hexit : a.addBlock.Since base.size (a.size + 1) :=
    ⟨Nat.le_succ_of_le hle, by rw [size_addBlock]; omega⟩
  have hnone : ∀ s, a.size ≤ s → a.addBlock.state s = {} := by
    intro s hs
    rw [state_addBlock, state_of_size_le hs]
  have hfirst : (a.addBlock.addSilent a.size (a.size + 1)).state a.size =
      { silent := [a.size + 1] } := by
    rw [state_addSilent hentry.2, if_pos rfl, hnone _ (Nat.le_refl _)]
    rfl
  have hlast : (a.addBlock.addSilent a.size (a.size + 1)).state (a.size + 1) = {} := by
    rw [state_addSilent hentry.2, if_neg (Nat.succ_ne_self _), hnone _ (Nat.le_succ _)]
  refine ⟨hgrown.addBlock.addSilent hentry hexit, hentry.mono (by simp), hexit.mono (by simp),
    fun w => ?_⟩
  constructor
  · intro hp
    rcases hp.first with ⟨hw, -⟩ | ⟨t, ht, hp⟩ | ⟨_, _, x, t, -, hx, -⟩
    · exact hw
    · rw [hfirst, List.mem_singleton] at ht
      subst ht
      exact (hp.eq_of_no_successors (by simp [successors, hlast])).1
    · simp [hfirst] at hx
  · rintro rfl
    exact .silent (by rw [hfirst]; exact List.mem_cons_self) (.nil _)

def addEdges (a : Nfa) (u v : Nat) (xs : List Nat) : Nfa := xs.foldl (fun a x => a.addEdge u x v) a

@[simp] theorem size_addEdges (a : Nfa) (u v : Nat) (xs : List Nat) :
    (a.addEdges u v xs).size = a.size := by
  induction xs generalizing a with
  | nil => rfl
  | cons x xs ih =>
    rw [addEdges, List.foldl_cons]
    exact (ih _).trans (size_addEdge a u x v)

theorem state_addEdges {u : Nat} (hu : u < a.size) (v : Nat) (xs : List Nat) (s : Nat) :
    (a.addEdges u v xs).state s =
      if s = u then { a.state u with edges := (a.state u).edges ++ xs.map fun x => (x, v) }
      else a.state s := by
  induction xs generalizing a with
  | nil =>
    by_cases hs : s = u
    · subst hs
      simp [addEdges]
    · simp [addEdges, hs]
  | cons x xs ih =>
    rw [addEdges, List.foldl_cons]
    apply (ih (by simpa using hu)).trans
    rw [state_addEdge hu, state_addEdge hu]
    by_cases hs : s = u
    · subst hs
      simp
    · simp [hs]

theorem Grown.addEdges (h : Grown alphabet a b) {u v : Nat} (hu : b.Since a.size u)
    (hv : b.Since a.size v) {xs : List Nat} (hxs : ∀ x ∈ xs, x < alphabet.size) :
    Grown alphabet a (b.addEdges u v xs) := by
  induction xs generalizing b with
  | nil => exact h
  | cons x xs ih =>
    obtain ⟨hx, hxs⟩ := List.forall_mem_cons.1 hxs
    exact ih (h.addEdge hu hx hv) (hu.mono (by simp)) (hv.mono (by simp)) hxs

theorem path_fan_iff {xs : List Nat} {s t u : Nat} (hs : a.state s = { edges := xs.map (·, t) })
    (hne : u ≠ s) {w : List Nat} :
    a.Path alphabet.Reads s w u ↔
      ∃ c v, w = c :: v ∧ (∃ x ∈ xs, alphabet.Reads c x) ∧ a.Path alphabet.Reads t v u := by
  constructor
  · intro hp
    rcases hp.first with ⟨-, he⟩ | ⟨r, hr, -⟩ | ⟨c, v, x, r, rfl, hx, hc, hp⟩
    · exact absurd he hne
    · simp [hs] at hr
    · rw [hs] at hx
      obtain ⟨y, hy, he⟩ := List.mem_map.1 hx
      obtain ⟨rfl, rfl⟩ := Prod.mk.inj he
      exact ⟨c, v, rfl, ⟨y, hy, hc⟩, hp⟩
  · rintro ⟨c, v, rfl, ⟨x, hx, hc⟩, hp⟩
    refine .edge (x := x) (t := t) ?_ hc hp
    rw [hs]
    exact List.mem_map.2 ⟨x, hx, rfl⟩

theorem spells_addEdges (hgrown : Grown alphabet base a) {xs : List Nat}
    (hxs : ∀ x ∈ xs, x < alphabet.size) :
    Grown alphabet base (a.addBlock.addEdges a.size (a.size + 1) xs) ∧
      Spells alphabet (a.addBlock.addEdges a.size (a.size + 1) xs) base.size ⟨a.size, a.size + 1⟩
        fun w => ∃ c, w = [c] ∧ ∃ x ∈ xs, alphabet.Reads c x := by
  have hle := hgrown.size_le
  have hentry : a.addBlock.Since base.size a.size := ⟨hle, by rw [size_addBlock]; omega⟩
  have hexit : a.addBlock.Since base.size (a.size + 1) :=
    ⟨Nat.le_succ_of_le hle, by rw [size_addBlock]; omega⟩
  have hstate := state_addEdges (a := a.addBlock) hentry.2 (a.size + 1) xs
  have hnone : ∀ s, a.size ≤ s → a.addBlock.state s = {} := by
    intro s hs
    rw [state_addBlock, state_of_size_le hs]
  have hfirst : (a.addBlock.addEdges a.size (a.size + 1) xs).state a.size =
      { edges := xs.map fun x => (x, a.size + 1) } := by
    rw [hstate, if_pos rfl, hnone _ (Nat.le_refl _)]
    rfl
  have hlast : (a.addBlock.addEdges a.size (a.size + 1) xs).state (a.size + 1) = {} := by
    rw [hstate, if_neg (Nat.succ_ne_self _), hnone _ (Nat.le_succ _)]
  refine ⟨hgrown.addBlock.addEdges hentry hexit hxs,
    hentry.mono (by simp), hexit.mono (by simp), fun w => ?_⟩
  rw [path_fan_iff hfirst (Nat.succ_ne_self _)]
  constructor
  · rintro ⟨c, v, rfl, hc, hp⟩
    obtain ⟨rfl, -⟩ := hp.eq_of_no_successors (by simp [successors, hlast])
    exact ⟨c, rfl, hc⟩
  · rintro ⟨c, rfl, hc⟩
    exact ⟨c, [], rfl, hc, .nil _⟩

end SyntaxTables.Nfa
