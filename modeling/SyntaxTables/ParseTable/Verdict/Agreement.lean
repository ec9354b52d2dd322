import SyntaxTables.ParseTable.Verdict

/-!
# Verdicts agree with runs

A stride stands for a number of steps of the run. A frame records a way over any stack below it, and
so does a known descent; both are sound because a step looks at no more of the stack than it takes
away. The main statement is `run_of_parse?`: what is told about a parse is what some run gives.
-/

namespace SyntaxTables.ParseTable

variable {t : ParseTable} {input : List Nat}

def Configuration.stack (c : Configuration) : List Nat := c.top :: c.below

/-- The configuration after some steps, if the run does not end before. -/
def advance (t : ParseTable) : Nat → Configuration → Option Configuration
  | 0, c => some c
  | n + 1, c =>
    match t.step c with
    | .running c => t.advance n c
    | _ => none

theorem advance_succ_of_step {c c' : Configuration} (h : t.step c = .running c') (n : Nat) :
    t.advance (n + 1) c = t.advance n c' := by
  simp [advance, h]

theorem advance_add (m n : Nat) (c : Configuration) :
    t.advance (m + n) c = (t.advance m c).bind (t.advance n) := by
  induction m generalizing c with
  | zero => simp [advance]
  | succ m ih =>
    rw [show m + 1 + n = m + n + 1 by omega, advance, advance]
    split
    · exact ih _
    · rfl

theorem run_add_of_advance {n : Nat} {c c' : Configuration} (h : t.advance n c = some c')
    (k : Nat) :
    t.run (n + k) c = t.run k c' := by
  induction n generalizing c with
  | zero =>
    obtain rfl := Option.some.inj h
    rw [Nat.zero_add]
  | succ n ih =>
    rw [show n + 1 + k = n + k + 1 by omega, run]
    rw [advance] at h
    split at h
    next hs =>
      simp only [hs]
      exact ih h
    next => exact absurd h (by simp)

/-- A configuration that a run from `start` comes to after a distance. -/
structure Arrives (t : ParseTable) (start : Configuration) (d : Distance) (stack : List Nat)
    (input : List Nat) (c : Configuration) : Prop where
  advance : t.advance d.steps start = some c
  stack : c.stack = stack
  rest : c.rest = input
  position : c.position = start.position + d.shifts

/-- From any configuration with the first stack the run comes to the second after a distance. -/
def Leads (t : ParseTable) (input : List Nat) (d : Distance) (stack stack' : List Nat) : Prop :=
  ∀ c : Configuration, c.stack = stack → c.rest = input → ∃ c', Arrives t c d stack' input c'

theorem Arrives.trans {start c : Configuration} {d e : Distance} {stack stack' : List Nat}
    (h : Arrives t start d stack input c) (h' : Leads t input e stack stack') :
    ∃ c', Arrives t start (d + e) stack' input c' := by
  obtain ⟨c', hc'⟩ := h' c h.stack h.rest
  refine ⟨c', ?_, hc'.stack, hc'.rest, ?_⟩
  · change t.advance (d.steps + e.steps) start = some c'
    rw [advance_add, h.advance]
    exact hc'.advance
  · change c'.position = start.position + (d.shifts + e.shifts)
    rw [hc'.position, h.position, Nat.add_assoc]

theorem Leads.trans {d e : Distance} {stack stack' stack'' : List Nat}
    (h : Leads t input d stack stack') (h' : Leads t input e stack' stack'') :
    Leads t input (d + e) stack stack'' := by
  intro c hc hr
  obtain ⟨c', hc'⟩ := h c hc hr
  exact hc'.trans h'

theorem Leads.refl (stack : List Nat) : Leads t input {} stack stack :=
  fun c hc hr => ⟨c, rfl, hc, hr, rfl⟩

/-! ### Single steps -/

/-- The next terminal is one that may be looked at. -/
def Admits (t : ParseTable) (input : List Nat) : Prop :=
  (input.head?.any fun a => t.eof ≤ a) = false

theorem step_of_action? {c : Configuration} {a : Action} (ha : Admits t c.rest)
    (h : t.action? c.top (c.rest.headD t.eof) = some a) :
    t.step c =
      match (motive := Action → StepResult) a with
      | .accept => .accepted c.reduced.reverse
      | .shift s =>
        .running { c with
          top := s, below := c.top :: c.below, position := c.position + 1, rest := c.rest.tail }
      | .reduce p => t.reduceStep c p := by
  unfold step
  rw [Admits] at ha
  simp only [ha, Bool.false_eq_true, if_false, Configuration.lookahead, h]
  cases a <;> rfl

theorem step_of_no_action {c : Configuration} (ha : Admits t c.rest)
    (h : t.action? c.top (c.rest.headD t.eof) = none) :
    t.step c = .failed (c.fail t .unexpectedTerminal) := by
  unfold step
  rw [Admits] at ha
  simp only [ha, Bool.false_eq_true, if_false, Configuration.lookahead, h]

/-- What one step does, with all that it looks up. -/
inductive Steps (t : ParseTable) (c : Configuration) : StepResult → Prop
  | shift {s : Nat} (admits : Admits t c.rest)
    (act : t.action? c.top (c.lookahead t) = some (.shift s)) :
    Steps t c (.running { c with
      top := s, below := c.top :: c.below, position := c.position + 1, rest := c.rest.tail })
  | reduce {i s next : Nat} {below : List Nat} {p : ProductionInfo} (admits : Admits t c.rest)
    (act : t.action? c.top (c.lookahead t) = some (.reduce i))
    (production : t.productions[i]? = some p) (body : c.stack.drop p.length = s :: below)
    (goto : t.goto? s p.lhs = some next) :
    Steps t c (.running { c with
      top := next, below := s :: below, reduced := i :: c.reduced })
  | accept (admits : Admits t c.rest) (act : t.action? c.top (c.lookahead t) = some .accept) :
    Steps t c (.accepted c.reduced.reverse)
  /-- The terminal is no terminal of the table, or it has no action. -/
  | refuse (inactive : Admits t c.rest → t.action? c.top (c.lookahead t) = none) :
    Steps t c (.failed (c.fail t .unexpectedTerminal))
  /-- The table asks for a reduction that cannot be carried out. -/
  | lack {i : Nat} {cause : ParseErrorCause} (admits : Admits t c.rest)
    (act : t.action? c.top (c.lookahead t) = some (.reduce i)) :
    Steps t c (.failed (c.fail t cause))

theorem steps_reduceStep {c : Configuration} {i : Nat} (ha : Admits t c.rest)
    (h : t.action? c.top (c.lookahead t) = some (.reduce i)) : Steps t c (t.reduceStep c i) := by
  unfold reduceStep
  split
  · exact .lack ha h
  next p hp =>
    split
    · exact .lack ha h
    next s below hbody =>
      split
      · exact .lack ha h
      next target hgoto => exact .reduce ha h hp hbody hgoto

theorem steps_step (t : ParseTable) (c : Configuration) : Steps t c (t.step c) := by
  unfold step
  split
  next hrefused => exact .refuse fun ha => absurd hrefused (by rw [Admits] at ha; simp [ha])
  next hadmits =>
    have ha : Admits t c.rest := Bool.eq_false_iff.2 hadmits
    split
    next hnone => exact .refuse fun _ => hnone
    next hact => exact .accept ha hact
    next s hact => exact .shift ha hact
    next i hact => exact steps_reduceStep ha hact

theorem Steps.of_eq {c : Configuration} {r : StepResult} (h : t.step c = r) : Steps t c r :=
  h ▸ steps_step t c

/-- A production reduced over a stack that is high enough, where its non-terminal leads on. -/
theorem leads_reduce {top i next state : Nat} {below states : List Nat} {p : ProductionInfo}
    (ha : Admits t input) (h : t.action? top (input.headD t.eof) = some (.reduce i))
    (hp : t.productions[i]? = some p) (hd : (top :: below).drop p.length = state :: states)
    (hg : t.goto? state p.lhs = some next) :
    Leads t input ⟨1, 0⟩ (top :: below) (next :: state :: states) := by
  intro c hc hr
  obtain ⟨rfl, rfl⟩ := List.cons.inj hc
  subst hr
  refine ⟨{ c with
    top := next, below := state :: states, reduced := i :: c.reduced }, ?_, rfl, rfl, rfl⟩
  refine (advance_succ_of_step ?_ 0).trans rfl
  rw [step_of_action? ha h]
  simp only [reduceStep, hp, hd, hg]

/-- The run stops with an error after a distance. -/
def Stops (t : ParseTable) (start : Configuration) (input : List Nat) (cause : ParseErrorCause)
    (state : Nat) (d : Distance) : Prop :=
  ∃ c stack, Arrives t start d (state :: stack) input c ∧ t.step c = .failed (c.fail t cause)

theorem Stops.run {start : Configuration} {cause : ParseErrorCause} {state : Nat} {d : Distance}
    (h : Stops t start input cause state d) :
    t.run (d.steps + 1) start =
      some (.error ⟨cause, start.position + d.shifts, input.headD t.eof, state⟩) := by
  obtain ⟨c, stack, hc, hs⟩ := h
  rw [run_add_of_advance hc.advance, ParseTable.run, hs]
  obtain ⟨ht, _⟩ := List.cons.inj hc.stack
  simp only [Configuration.fail, Configuration.lookahead, hc.position, hc.rest, ht]

/-! ### Descents and frames -/

/-- A way in which a state leaves, over any stack below it. -/
def Descends (t : ParseTable) (input : List Nat) (state : Nat) (d : Descent) : Prop :=
  ∃ (above : List Nat) (i : Nat) (p : ProductionInfo),
    (∀ below, Leads t input d.distance (state :: below) (d.top :: above ++ below)) ∧
      t.action? d.top (input.headD t.eof) = some (.reduce i) ∧ t.productions[i]? = some p ∧
      p.lhs = d.lhs ∧ p.length = above.length + 1 + d.depth

/-- Each of some frames leads to the state entered above it. -/
def Chained (t : ParseTable) (input : List Nat) : Nat → List Frame → Prop
  | _, [] => True
  | state, f :: fs =>
    (∀ below, Leads t input f.distance (f.state :: below) (state :: f.state :: below)) ∧
      Chained t input f.state fs

def lowest (state : Nat) : List Frame → Nat
  | [] => state
  | f :: fs => lowest f.state fs

/-- All ways known are ways in which states leave. -/
def Sound (t : ParseTable) (input : List Nat) (known : Descents) : Prop :=
  ∀ state d, known[state]? = some d → Descends t input state d

theorem Sound.insert {known : Descents} {state : Nat} {d : Descent} (h : Sound t input known)
    (hd : Descends t input state d) : Sound t input (known.insert state d) := by
  intro s e he
  rw [Std.TreeMap.getElem?_insert] at he
  split at he
  next hs =>
    obtain rfl := Option.some.inj he
    obtain rfl := Std.LawfulEqOrd.eq_of_compare hs
    exact hd
  next => exact h s e he

/-- The state above a frame leaves together with the frame. -/
theorem Descends.through {state depth : Nat} {f : Frame} {d : Descent}
    (hd : Descends t input state d) (hdepth : d.depth = depth + 1)
    (hf : ∀ below, Leads t input f.distance (f.state :: below) (state :: f.state :: below)) :
    Descends t input f.state { d with distance := f.distance + d.distance, depth := depth } := by
  obtain ⟨above, i, p, hl, ha, hp, hlhs, hlen⟩ := hd
  refine ⟨above ++ [f.state], i, p, fun below => ?_, ha, hp, hlhs, ?_⟩
  · have := (hf below).trans (hl (f.state :: below))
    simpa using this
  · simp only [List.length_append, List.length_cons, List.length_nil]
    omega

theorem unwind_sound {d : Descent} {state : Nat} {frames : List Frame} {known : Descents}
    (hd : Descends t input state d) (hf : Chained t input state frames)
    (hk : Sound t input known) :
    Sound t input (unwind d state frames known).2.2 ∧
      ∃ last, Descends t input last (unwind d state frames known).2.1 ∧
        Chained t input last (unwind d state frames known).1 ∧
        lowest last (unwind d state frames known).1 = lowest state frames ∧
        ((unwind d state frames known).1 ≠ [] → (unwind d state frames known).2.1.depth = 0) := by
  induction frames generalizing d state known with
  | nil => exact ⟨hk.insert hd, state, hd, trivial, rfl, fun h => absurd rfl h⟩
  | cons f fs ih =>
    rw [unwind]
    split
    next hz => exact ⟨hk.insert hd, state, hd, hf, rfl, fun _ => hz⟩
    next hz => exact ih (hd.through hz hf.1) hf.2 (hk.insert hd)

theorem distanceOver_eq (start : Distance) (frames : List Frame) :
    distanceOver start frames = start + distanceOver {} frames := by
  induction frames with
  | nil => rfl
  | cons f fs ih =>
    rw [distanceOver, distanceOver, ih]
    change Distance.mk _ _ = Distance.mk _ _
    simp only [Distance.mk.injEq]
    exact ⟨Nat.add_assoc .., Nat.add_assoc ..⟩

theorem Chained.leads {state : Nat} {frames : List Frame} (h : Chained t input state frames)
    (below : List Nat) :
    Leads t input (distanceOver {} frames) (lowest state frames :: below)
      (state :: frames.map Frame.state ++ below) := by
  induction frames generalizing state with
  | nil => exact .refl _
  | cons f fs ih => exact (ih h.2).trans (h.1 _)

/-! ### Looks -/

namespace Look

/-- What holds of a look in a run from `start`. -/
structure Valid (t : ParseTable) (input : List Nat) (start : Configuration) (l : Look) : Prop where
  known : Sound t input l.known
  frames : Chained t input l.top l.frames
  lowest : ∃ c, Arrives t start l.distance (lowest l.top l.frames :: l.older) input c

variable {start : Configuration} {l : Look}

theorem Valid.arrives (h : l.Valid t input start) :
    ∃ c, Arrives t start l.reached l.stack input c := by
  obtain ⟨c, hc⟩ := h.lowest
  rw [reached, distanceOver_eq]
  exact hc.trans (h.frames.leads _)

theorem Valid.push (h : l.Valid t input start) {d : Distance} {state : Nat}
    (hd : ∀ below, Leads t input d (l.top :: below) (state :: l.top :: below)) :
    (l.push d state).Valid t input start :=
  ⟨h.known, ⟨hd, h.frames⟩, h.lowest⟩

theorem valid_enter {stack : Nat × List Nat} {d : Distance} {c : Configuration}
    (h : Arrives t start d (stack.1 :: stack.2) input c) :
    (enter stack d).Valid t input start :=
  ⟨fun _ _ h => by simp [enter] at h, trivial, c, h⟩

/-- What has to hold of a stride. -/
def Accounts (t : ParseTable) (input : List Nat) (start : Configuration) (l : Look) : Stride → Prop
  | .looking l' => l'.Valid t input start
  | .shifting state => t.action? l.top (input.headD t.eof) = some (.shift state)
  | .accepting => True
  | .failing cause state d => Stops t start input cause state d

theorem drop_leave {p : ProductionInfo} {top depth : Nat} {above below : List Nat}
    (h : p.length = above.length + 1 + depth) :
    (top :: above ++ below).drop p.length = below.drop depth := by
  rw [h, show top :: above ++ below = (top :: above) ++ below from rfl,
    ← List.drop_drop, show above.length + 1 = (top :: above).length from rfl, List.drop_left]

theorem stops_of_reduceStep {c : Configuration} {d : Distance} {top i : Nat} {below : List Nat}
    {cause : ParseErrorCause} (ha : Admits t input)
    (h : t.action? top (input.headD t.eof) = some (.reduce i))
    (hc : Arrives t start d (top :: below) input c)
    (hf : t.reduceStep c i = .failed (c.fail t cause)) :
    Stops t start input cause top d := by
  obtain ⟨ht, _⟩ := List.cons.inj hc.stack
  refine ⟨c, below, hc, ?_⟩
  rw [step_of_action? (a := .reduce i) (by rw [hc.rest]; exact ha) (by rw [hc.rest, ht]; exact h)]
  exact hf

theorem leave_accounts (ha : Admits t input) (h : l.Valid t input start) {d : Descent}
    (hd : Descends t input l.top d) : l.Accounts t input start (l.leave t d) := by
  obtain ⟨hk, last, hlast, hf, hlow, hdepth⟩ := unwind_sound hd h.frames h.known
  obtain ⟨base, hbase⟩ := h.lowest
  rw [← hlow] at hbase
  rw [leave]
  generalize unwind d l.top l.frames l.known = u at *
  obtain ⟨frames, d', known⟩ := u
  obtain ⟨above, i, p, hl, hact, hp, hlhs, hlen⟩ := hlast
  match frames with
  | f :: fs =>
    have hz : d'.depth = 0 := hdepth (by simp)
    have hdrop : ∀ below, (d'.top :: above ++ f.state :: below).drop p.length = f.state :: below :=
      fun below => by rw [drop_leave hlen, hz]; rfl
    simp only
    split
    next hg =>
      obtain ⟨c, hc⟩ := hbase.trans (hf.leads _)
      rw [← distanceOver_eq] at hc
      obtain ⟨c', hc'⟩ := hc.trans (hl _)
      refine stops_of_reduceStep ha hact hc' ?_
      have hrest : (c'.top :: c'.below).drop p.length =
          f.state :: (fs.map Frame.state ++ l.older) :=
        (congrArg (List.drop p.length) hc'.stack).trans (hdrop _)
      simp only [reduceStep, hp, hrest, hlhs, hg]
    next next hg =>
      refine ⟨hk, ⟨fun below => ?_, hf.2⟩, base, hbase⟩
      exact ((hf.1 below).trans (hl _)).trans
        (leads_reduce ha hact hp (hdrop below) (by rw [hlhs]; exact hg))
  | [] =>
    obtain ⟨c, hc⟩ := hbase.trans (hl _)
    have hdrop : (d'.top :: above ++ l.older).drop p.length = l.older.drop d'.depth :=
      drop_leave hlen
    simp only
    split
    next ho =>
      refine stops_of_reduceStep ha hact hc ?_
      have hrest : (c.top :: c.below).drop p.length = [] :=
        (congrArg (List.drop p.length) hc.stack).trans (hdrop.trans ho)
      simp only [reduceStep, hp, hrest]
    next state states ho =>
      split
      next hg =>
        refine stops_of_reduceStep ha hact hc ?_
        have hrest : (c.top :: c.below).drop p.length = state :: states :=
          (congrArg (List.drop p.length) hc.stack).trans (hdrop.trans ho)
        simp only [reduceStep, hp, hrest, hlhs, hg]
      next next hg =>
        exact ⟨hk, trivial, hc.trans
          (leads_reduce ha hact hp (hdrop.trans ho) (by rw [hlhs]; exact hg))⟩

theorem reduce_accounts (ha : Admits t input) (h : l.Valid t input start) {i : Nat}
    (hi : t.action? l.top (input.headD t.eof) = some (.reduce i)) :
    l.Accounts t input start (l.reduce t i) := by
  obtain ⟨c, hc⟩ := h.arrives
  rw [reduce]
  split
  next hp => exact stops_of_reduceStep ha hi hc (by simp only [reduceStep, hp])
  next p hp =>
    split
    next hz =>
      split
      next hg =>
        refine stops_of_reduceStep ha hi hc ?_
        obtain ⟨ht, _⟩ := List.cons.inj hc.stack
        simp only [reduceStep, hp, hz, List.drop_zero, ht, hg]
      next next hg =>
        exact h.push fun below => leads_reduce ha hi hp (by rw [hz]; rfl) hg
    next depth hz =>
      refine leave_accounts ha h ⟨[], i, p, fun below => .refl _, hi, hp, rfl, ?_⟩
      simp only [List.length_nil]
      omega

theorem stride_accounts (ha : Admits t input) (h : l.Valid t input start) :
    l.Accounts t input start (l.stride t (input.headD t.eof)) := by
  rw [stride]
  split
  next d hd => exact leave_accounts ha h (h.known _ _ hd)
  next =>
    split
    next hn =>
      obtain ⟨c, hc⟩ := h.arrives
      obtain ⟨ht, _⟩ := List.cons.inj hc.stack
      exact ⟨c, _, hc,
        step_of_no_action (by rw [hc.rest]; exact ha) (by rw [hc.rest, ht]; exact hn)⟩
    next => trivial
    next hs => exact hs
    next hi => exact reduce_accounts ha h hi

theorem Valid.shift (ha : Admits t input) (h : l.Valid t input start) {state : Nat}
    (hs : t.action? l.top (input.headD t.eof) = some (.shift state)) :
    ∃ c, Arrives t start (l.reached + ⟨1, 1⟩) (state :: l.stack) input.tail c := by
  obtain ⟨c, hc⟩ := h.arrives
  obtain ⟨ht, _⟩ := List.cons.inj hc.stack
  refine ⟨{ c with
    top := state, below := c.top :: c.below, position := c.position + 1, rest := c.rest.tail },
    ?_, ?_, ?_, ?_⟩
  · change t.advance (l.reached.steps + 1) start = _
    rw [advance_add, hc.advance]
    refine (advance_succ_of_step ?_ 0).trans rfl
    rw [step_of_action? (by rw [hc.rest]; exact ha) (by rw [hc.rest, ht]; exact hs)]
  · exact congrArg (state :: ·) hc.stack
  · exact congrArg List.tail hc.rest
  · change c.position + 1 = start.position + (l.reached.shifts + 1)
    rw [hc.position, Nat.add_assoc]

/-- Behind the input, shifting the end of input leads from a state to the next. -/
theorem leads_shift_eof {top state : Nat} (hs : t.action? top t.eof = some (.shift state))
    (below : List Nat) : Leads t [] ⟨1, 1⟩ (top :: below) (state :: top :: below) := by
  intro c hc hr
  obtain ⟨rfl, rfl⟩ := List.cons.inj hc
  refine ⟨{ c with
    top := state, below := c.top :: c.below, position := c.position + 1, rest := c.rest.tail },
    ?_, rfl, by rw [hr]; rfl, rfl⟩
  refine (advance_succ_of_step ?_ 0).trans rfl
  rw [step_of_action? (by rw [hr]; rfl) (by rw [hr]; exact hs)]

/-- An error in a verdict is one of the run. -/
def Tells (t : ParseTable) (start : Configuration) : Option Verdict → Prop
  | some (.fails e) => ∃ steps, t.run steps start = some (.error e)
  | _ => True

theorem tells_verdict? (hstart : start.position = 0) (ha : Admits t input)
    {shifted : Nat × List Nat → Distance → Option Verdict}
    (hshifted : ∀ stack d c, Arrives t start d (stack.1 :: stack.2) input.tail c →
      Tells t start (shifted stack d))
    (strides : Nat) (h : l.Valid t input start) :
    Tells t start (l.verdict? t input shifted strides) := by
  induction strides generalizing l with
  | zero => trivial
  | succ strides ih =>
    have hacc := stride_accounts ha h
    rw [verdict?]
    generalize l.stride t (input.headD t.eof) = s at *
    match s, hacc with
    | .looking l', hacc => exact ih hacc
    | .accepting, _ => trivial
    | .failing cause state d, hacc =>
      refine ⟨d.steps + 1, ?_⟩
      rw [hacc.run, hstart, Nat.zero_add]
    | .shifting state, hacc =>
      simp only
      split
      next he =>
        obtain rfl := List.isEmpty_iff.1 he
        exact ih (h.push (leads_shift_eof hacc))
      next =>
        obtain ⟨c, hc⟩ := h.shift ha hacc
        exact hshifted _ _ c hc

end Look

theorem tells_verdictFrom? {start : Configuration} (hstart : start.position = 0)
    {stack : Nat × List Nat} {d : Distance} {c : Configuration}
    (h : Arrives t start d (stack.1 :: stack.2) input c) :
    Look.Tells t start (t.verdictFrom? stack d input) := by
  induction input generalizing stack d c with
  | nil =>
    rw [verdictFrom?]
    have ha : Admits t [] := rfl
    refine Look.tells_verdict? hstart ha ?_ _ (Look.valid_enter h)
    intros
    trivial
  | cons a input ih =>
    rw [verdictFrom?]
    split
    next ha =>
      obtain ⟨ht, _⟩ := List.cons.inj h.stack
      have hs : Stops t start (a :: input) .unexpectedTerminal stack.1 d := by
        refine ⟨c, _, h, ?_⟩
        simp [step, h.rest, ha]
      refine ⟨d.steps + 1, ?_⟩
      rw [hs.run, hstart, Nat.zero_add]
      rfl
    next ha =>
      exact Look.tells_verdict? hstart (by simp [Admits]; omega) (fun _ _ _ hc => ih hc) _
        (Look.valid_enter h)

/-- What is told about a parse is the outcome of its run. -/
theorem run_of_parse? {input : List Nat} {r : Except ParseError (List Nat)}
    (h : t.parse? input = some r) : ∃ steps, t.run steps (.initial input) = some r := by
  have hs : Arrives t (.initial input) {} [0] input (.initial input) := ⟨rfl, rfl, rfl, rfl⟩
  have hv : Look.Tells t (.initial input) (t.verdictFrom? (0, []) {} input) :=
    tells_verdictFrom? rfl hs
  rw [parse?] at h
  split at h
  next => exact absurd h (by simp)
  next e he =>
    obtain rfl := Option.some.inj h
    rw [verdict?] at he
    rw [he] at hv
    exact hv
  next => exact ⟨_, h⟩

end SyntaxTables.ParseTable
