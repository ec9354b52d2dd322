import SyntaxTables.Json.Codec
import SyntaxTables.Settings

/-!
# Settings as JSON

Every field may be left out and then has its default.
-/

namespace SyntaxTables

open Json (Codec Library)

variable (L : Library)

def LexerSettings.codec : Codec LexerSettings :=
  (L.record (.withDefault "minimize" L.bool true .nil)).via (fun (minimize, _) => ⟨minimize⟩)
    fun s => (s.minimize, ())

def ParserSettings.codec : Codec ParserSettings :=
  (L.record (.withDefault "lalr" L.bool true .nil)).via (fun (lalr, _) => ⟨lalr⟩)
    fun s => (s.lalr, ())

def Settings.codec : Codec Settings :=
  (L.record <|
    .withDefault "lexer" (LexerSettings.codec L) {} <|
    .withDefault "parser" (ParserSettings.codec L) {} .nil).via
    (fun (lexer, parser, _) => ⟨lexer, parser⟩) fun s => (s.lexer, s.parser, ())

end SyntaxTables
