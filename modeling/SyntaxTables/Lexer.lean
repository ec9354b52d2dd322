import SyntaxTables.Diagnostic
import SyntaxTables.Dfa.Minimal
import SyntaxTables.Dfa.Subset
import SyntaxTables.Nfa.Tokens
import SyntaxTables.Settings

/-!
# From a lexicon to its automaton

The alphabet is cut along all intervals of the lexicon, the tokens that can be used are joined in
one automaton, and that is made deterministic and, if wanted, minimal. Tokens that cannot be used
are reported; construction only fails when no token is left.
-/

namespace SyntaxTables

namespace Lexicon

def alphabet (lexicon : Lexicon) : Alphabet := .ofRanges lexicon.intervals

/-- The automaton of a lexicon, with the reports on tokens that were left out. -/
def buildLexer (lexicon : Lexicon) (settings : LexerSettings) :
    Except BuildError Dfa × List Diagnostic :=
  if lexicon.tokens.isEmpty then (.error .noTokens, [])
  else
    let t := lexicon.tokenNfa lexicon.alphabet
    if t.accepted = 0 then (.error (.allTokensRejected lexicon.tokens.length), t.reports)
    else
      let dfa := t.automaton.toDfa lexicon.alphabet
      (.ok (if settings.minimize then dfa.minimize else dfa), t.reports)

end Lexicon

end SyntaxTables
