import SyntaxTables.Environment

/-!
# Settings

Both constructions have one switch. A variable of the environment can turn a switch off, whatever
the settings file says.
-/

namespace SyntaxTables

structure LexerSettings where
  /-- Minimize the automaton. -/
  minimize : Bool := true
deriving DecidableEq, Repr

structure ParserSettings where
  /-- Merge states that differ in their lookaheads only; otherwise the table is canonical. -/
  lalr : Bool := true
deriving DecidableEq, Repr

structure Settings where
  lexer : LexerSettings := {}
  parser : ParserSettings := {}
deriving DecidableEq, Repr

def Settings.override (settings : Settings) (env : Environment) : Settings where
  lexer.minimize := settings.lexer.minimize && !env.flag "TABLEGEN_NO_MINIMIZE"
  parser.lalr := settings.parser.lalr && !env.flag "TABLEGEN_CANONICAL_LR1"

end SyntaxTables
