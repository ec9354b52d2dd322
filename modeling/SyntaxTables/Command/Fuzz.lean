import SyntaxTables.Command.Plan
import SyntaxTables.Demo
import SyntaxTables.Environment
import SyntaxTables.Lexer
import SyntaxTables.LexerTable
import SyntaxTables.Sampling

/-!
# Comparing the two demo lexers

Random texts are scanned with the demo language's automaton before and after minimizing; both must
find the same tokens, or fail in the same way.
-/

namespace SyntaxTables.Command

def demoTable (minimize : Bool) : Except BuildError LexerTable × List Diagnostic :=
  let (dfa, reports) := Demo.lexicon.buildLexer ⟨minimize⟩
  (dfa.map fun d => .ofDfa d Demo.lexicon.tokenNames, reports)

/-- Scans the cases from number `i` on, counting the rejected texts; fails at the first
difference. -/
def compareCases {σ : Type} (draw : Sampling.Draw σ) (full least : LexerTable) (maxLength : Nat) :
    Nat → Nat → σ → Nat → Except Nat Nat
  | 0, _, _, rejected => .ok rejected
  | cases + 1, i, s, rejected =>
    let (length, s) := draw maxLength s
    let (text, s) := Sampling.text draw Demo.characters (length + 1) s
    match full.automaton.tokens text, least.automaton.tokens text with
    | .ok a, .ok b =>
      if a = b then compareCases draw full least maxLength cases (i + 1) s rejected
      else .error i
    | .error a, .error b =>
      if a = b then compareCases draw full least maxLength cases (i + 1) s (rejected + 1)
      else .error i
    | _, _ => .error i

/-- The program takes no arguments: the environment gives the seed, the number of cases and their
length. Without a seed it takes the time. -/
def fuzz {σ : Type} (draw : Sampling.Draw σ) (start : Nat → σ) (env : Environment) (time : Nat) :
    Plan :=
  let seed := env.number "FUZZ_SEED" time
  let cases := env.number "FUZZ_ITERS" 2000
  let maxLength := max (env.number "FUZZ_LEN" 64) 1
  let first := s!"[fuzz_lex] seed={seed} iters={cases} max_len={maxLength}"
  match demoTable false, demoTable true with
  | (.ok full, fullReports), (.ok least, leastReports) =>
    if hadError (fullReports ++ leastReports) then
      { opening := [first], ending := .error "demo language produced errors" }
    else
      { opening := [first, s!"[fuzz_lex] states: {full.stateCount} unminimized, " ++
          s!"{least.stateCount} minimized"]
        ending :=
          match compareCases draw full least maxLength cases 0 (start seed) 0 with
          | .ok rejected => .ok [s!"[fuzz_lex] ok: {cases} cases ({rejected} rejected by both)"]
          | .error i => .error s!"minimized lexer disagrees (seed={seed}, case={i})" }
  | (.error e, _), _ => { opening := [first], ending := .error e.message }
  | _, (.error e, _) => { opening := [first], ending := .error e.message }

end SyntaxTables.Command
