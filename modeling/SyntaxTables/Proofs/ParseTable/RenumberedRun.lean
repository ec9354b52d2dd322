import SyntaxTables.ParseTable.Verdict
import SyntaxTables.Proofs.ParseTable.OrderedRenumbering

/-!
# Parses with productions under other numbers

A parser looks at numbers of productions only to find their lengths and left-hand sides, and lists
them. So it takes the same steps with tables that differ in these numbers, ends in the same way and
lists the same productions by their other numbers. Verdicts do not tell productions at all.
-/

namespace SyntaxTables.ParseTable

variable {ρ : Nat → Nat} {t t' : ParseTable}

def Configuration.renumber (ρ : Nat → Nat) (c : Configuration) : Configuration :=
  { c with reduced := c.reduced.map ρ }

def StepResult.renumber (ρ : Nat → Nat) : StepResult → StepResult
  | .running c => .running (c.renumber ρ)
  | .accepted reductions => .accepted (reductions.map ρ)
  | .failed e => .failed e

namespace RenumberedBy

variable (h : t.RenumberedBy ρ t')

include h

theorem action?_eq (s x : Nat) : t.action? s x = (t'.action? s x).map (.renumber ρ) := by
  rw [action?, action?, h.action, List.getElem?_map]
  cases t'.action[s]? with
  | none => rfl
  | some row =>
    simp only [Option.map_some, Option.bind_some, List.getElem?_map]
    cases row[x]? <;> rfl

theorem goto?_eq (s n : Nat) : t.goto? s n = t'.goto? s n := by
  rw [goto?, goto?, h.goto]

theorem stateCount_eq : t.stateCount = t'.stateCount := by
  rw [stateCount, stateCount, h.action, List.length_map]

/-! ### Runs -/

theorem fail_eq (c : Configuration) (cause : ParseErrorCause) :
    (c.renumber ρ).fail t cause = c.fail t' cause := by
  rw [Configuration.fail, Configuration.fail, Configuration.lookahead, Configuration.lookahead,
    h.eof]
  rfl

theorem reduceStep_eq (c : Configuration) (j : Nat) :
    t.reduceStep (c.renumber ρ) (ρ j) = (t'.reduceStep c j).renumber ρ := by
  unfold reduceStep
  simp only [h.productions, h.goto?_eq, h.fail_eq]
  cases t'.productions[j]? with
  | none => rfl
  | some p =>
    simp only [Configuration.renumber]
    cases (c.top :: c.below).drop p.length with
    | nil => rfl
    | cons top below =>
      simp only
      cases t'.goto? top p.lhs <;> rfl

theorem step_eq (c : Configuration) : t.step (c.renumber ρ) = (t'.step c).renumber ρ := by
  unfold step
  have hlookahead : (c.renumber ρ).lookahead t = c.lookahead t' := by
    rw [Configuration.lookahead, Configuration.lookahead, h.eof]
    rfl
  have hrest : (c.renumber ρ).rest = c.rest := rfl
  have htop : (c.renumber ρ).top = c.top := rfl
  rw [hrest, htop, hlookahead, h.eof, h.action?_eq, h.fail_eq]
  split_ifs
  · rfl
  · cases t'.action? c.top (c.lookahead t') with
    | none => rfl
    | some act =>
      cases act with
      | shift s => rfl
      | accept => simp [Action.renumber, StepResult.renumber, Configuration.renumber]
      | reduce j => exact h.reduceStep_eq c j

theorem run_eq (n : Nat) (c : Configuration) :
    t.run n (c.renumber ρ) = (t'.run n c).map (Except.map (List.map ρ)) := by
  induction n generalizing c with
  | zero => rfl
  | succ n ih =>
    rw [run, run, h.step_eq]
    cases t'.step c with
    | running c' => exact ih c'
    | accepted reductions => rfl
    | failed e => rfl

/-! ### Verdicts -/

theorem leave_eq (l : Look) (d : Descent) : l.leave t d = l.leave t' d := by
  simp only [Look.leave, h.goto?_eq]

theorem stride_eq (x : Nat) (l : Look) : l.stride t x = l.stride t' x := by
  unfold Look.stride
  cases l.known[l.top]? with
  | some d => exact h.leave_eq l d
  | none =>
    simp only [h.action?_eq]
    cases t'.action? l.top x with
    | none => rfl
    | some act =>
      cases act with
      | shift s => rfl
      | accept => rfl
      | reduce j =>
        simp only [Option.map_some, Action.renumber, Look.reduce, h.productions, h.goto?_eq,
          h.leave_eq]

theorem look_verdict?_eq {shifted shifted' : Nat × List Nat → Distance → Option Verdict}
    (hshifted : ∀ stack distance, shifted stack distance = shifted' stack distance)
    (input : List Nat) (strides : Nat) (l : Look) :
    l.verdict? t input shifted strides = l.verdict? t' input shifted' strides := by
  induction strides generalizing l with
  | zero => rfl
  | succ strides ih =>
    rw [Look.verdict?, Look.verdict?, h.eof, h.stride_eq]
    cases l.stride t' (input.headD t'.eof) with
    | looking l' => exact ih l'
    | accepting => rfl
    | failing cause state distance => rfl
    | shifting state =>
      simp only [ih, hshifted]

theorem verdictFrom?_eq (input : List Nat) (stack : Nat × List Nat) (distance : Distance) :
    t.verdictFrom? stack distance input = t'.verdictFrom? stack distance input := by
  induction input generalizing stack distance with
  | nil =>
    simp only [verdictFrom?, Look.strideLimit, h.stateCount_eq]
    exact h.look_verdict?_eq (fun _ _ => rfl) _ _ _
  | cons x input ih =>
    simp only [verdictFrom?, Look.strideLimit, h.stateCount_eq, h.eof]
    split_ifs
    · rfl
    · exact h.look_verdict?_eq ih _ _ _

/-- Parses end alike, and list the same productions by their other numbers. -/
theorem parse?_eq (input : List Nat) :
    t.parse? input = (t'.parse? input).map (Except.map (List.map ρ)) := by
  rw [parse?, parse?, verdict?, verdict?, h.verdictFrom?_eq]
  cases t'.verdictFrom? (0, []) {} input with
  | none => rfl
  | some v =>
    cases v with
    | accepts steps => exact h.run_eq (steps + 1) (.initial input)
    | fails e => rfl

end RenumberedBy

end SyntaxTables.ParseTable
