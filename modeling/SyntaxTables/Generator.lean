import SyntaxTables.LexerTable
import SyntaxTables.Lexer
import SyntaxTables.ParseTable.Fill

/-!
# Both constructions together

The lexer and the parser are always both built, so that one run shows all reports. Before any result
is written the reports have to be looked at for errors.
-/

namespace SyntaxTables

structure GeneratedTables where
  lexer : LexerTable
  parser : ParseTable

/-- Builds both tables. If neither can be built, the lexer's failure is the one that counts. -/
def generate (lexicon : Lexicon) (g : Grammar) (settings : Settings) :
    Except BuildError GeneratedTables × List Diagnostic :=
  let (dfa, lexerReports) := lexicon.buildLexer settings.lexer
  let (table, parserReports) := g.buildParser settings.parser
  (do
    let dfa ← dfa
    let table ← table
    return ⟨.ofDfa dfa lexicon.tokenNames, table⟩,
    lexerReports ++ parserReports)

end SyntaxTables
