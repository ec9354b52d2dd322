import SyntaxTables.Pattern

/-!
# The demo language

A small language with keywords that are also identifiers, fragments that refer to fragments, classes
of all but a few characters, and comments with an inner loop.
-/

namespace SyntaxTables.Demo

def text (s : String) : Pattern := .literal s.toList

def oneOf (s : String) : Pattern := .oneOf (s.toList.map Interval.ofChar)

def noneOf (s : String) : Pattern := .noneOf (s.toList.map Interval.ofChar)

def digit : Pattern := .oneOf [.ofChars '0' '9']

def alpha : Pattern := .oneOf [.ofChars 'a' 'z', .ofChars 'A' 'Z', .ofChars '_' '_']

def fragments : List Definition :=
  [{ name := "digit", pattern := digit },
    { name := "alpha", pattern := alpha },
    { name := "alnum", pattern := .union [.reference "alpha", .reference "digit"] }]

def identifier : Pattern := .concat [.reference "alpha", .star (.reference "alnum")]

def float : Pattern :=
  .concat [.plus (.reference "digit"), text ".", .star (.reference "digit")]

def quotedString : Pattern :=
  .concat [text "\"", .star (.union [noneOf "\"\\\n", .concat [text "\\", noneOf "\n"]]), text "\""]

def lineComment : Pattern := .concat [text "//", .star (noneOf "\n")]

def blockComment : Pattern :=
  .concat [text "/*", .star (.union [noneOf "*", .concat [.plus (text "*"), noneOf "*/"]]),
    .plus (text "*"), text "/"]

def tokens : List Definition :=
  [{ name := "IF", pattern := text "if" },
    { name := "ELSE", pattern := text "else" },
    { name := "WHILE", pattern := text "while" },
    { name := "IDENT", pattern := identifier },
    { name := "FLOAT", pattern := float },
    { name := "INT", pattern := .plus (.reference "digit") },
    { name := "STRING", pattern := quotedString },
    { name := "WHITE", pattern := .plus (oneOf " \t\n") },
    { name := "LINE_COMMENT", pattern := lineComment },
    { name := "BLOCK_COMMENT", pattern := blockComment },
    { name := "EQEQ", pattern := text "==" },
    { name := "ASSIGN", pattern := text "=" },
    { name := "LE", pattern := text "<=" },
    { name := "LT", pattern := text "<" },
    { name := "PLUS", pattern := text "+" },
    { name := "MINUS", pattern := text "-" },
    { name := "STAR", pattern := text "*" },
    { name := "SLASH", pattern := text "/" },
    { name := "LPAREN", pattern := text "(" },
    { name := "RPAREN", pattern := text ")" },
    { name := "LBRACE", pattern := text "\x7b" },
    { name := "RBRACE", pattern := text "\x7d" },
    { name := "SEMI", pattern := text ";" }]

def lexicon : Lexicon := ⟨fragments, tokens⟩

/-- The characters that matter to the language, and some that it refuses. -/
def characters : Array Char := "ifelswhxZ_079.\"\\ \n/*=<+-()\x7b\x7d;#é".toList.toArray

end SyntaxTables.Demo
