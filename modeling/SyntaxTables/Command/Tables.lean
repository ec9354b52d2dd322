import SyntaxTables.Command.Directory
import SyntaxTables.Demo
import SyntaxTables.Format.LexerTable
import SyntaxTables.Format.ParseTable
import SyntaxTables.Format.Settings
import SyntaxTables.Grammar.Rules
import SyntaxTables.Lexer
import SyntaxTables.LexerTable.Binary
import SyntaxTables.ParseTable.Fill

/-!
# The two generators as programs

One turns a lexicon in JSON into lexer tables in both forms, the other rules in Backus-Naur form
into a parse table. Reports go to the error output. No table is written if there is an error among
them.
-/

namespace SyntaxTables.Command

open Json (Library)

/-- Where a program gets the bytes of a file from. -/
abbrev ReadFile := String → Option (List UInt8)

/-- The text of a file; none if its bytes are not Unicode. -/
def ReadFile.text? (read : ReadFile) (path : String) : Option String := do
  String.fromUTF8? (← read path).toByteArray

/-- The settings of the file that is named, or the defaults, after the environment's changes. -/
def settings (env : Environment) (read : ReadFile) (path : Option String) :
    Except String Settings :=
  match path with
  | none => .ok (Settings.override {} env)
  | some path =>
    match (read path).bind (Library.strict.ofText (Settings.codec .strict)) with
    | some s => .ok (s.override env)
    | none => .error s!"reading config {path}"

def reportLines (program : String) (reports : List Diagnostic) : List String :=
  reports.map fun d => s!"[{program}] {d.text}"

def errorCount (reports : List Diagnostic) : Nat := (reports.filter Diagnostic.isError).length

/-! ### Lexer tables -/

/-- The lexicon that is named, or that of the demo language. -/
def lexicon (read : ReadFile) (path : Option String) : Except String Lexicon :=
  match path with
  | none => .ok Demo.lexicon
  | some path =>
    match read path with
    | none => .error s!"reading {path}"
    | some text =>
      match Library.strict.ofText (Lexicon.codec .strict Pattern.strict) text with
      | none => .error s!"parsing {path}"
      | some lexicon => .ok lexicon

def lexTablesLine (t : LexerTable) (minimize : Bool) (json binary : String) : String :=
  s!"[gen_lex_tables] {t.tokenNames.length} tokens, {t.symbolCount} symbols, " ++
    s!"{t.stateCount} states (minimize={minimize}) -> {json}, {binary}"

def writeLexerTable (plan : Plan) (folder : String) (minimize : Bool) (t : LexerTable) : Plan :=
  let json := inFolder folder "lexer_tables.json"
  let binary := inFolder folder "lexer_tables.bin"
  let steps : List Step :=
    [⟨.createFolder folder, s!"creating {folder}"⟩,
      ⟨.writeFile json (t.toText .strict), systemFailure⟩]
  match t.toBytes with
  | .error e => { plan with steps := steps, ending := .error e.message }
  | .ok bytes =>
    { plan with
      steps := steps ++ [⟨.writeFile binary bytes, systemFailure⟩]
      ending := .ok [lexTablesLine t minimize json binary] }

/-- Arguments: the lexicon, the folder to write to, and the settings. -/
def lexTables (env : Environment) (read : ReadFile) (args : List String) : Plan :=
  let source := args[0]?.filter fun a => a ≠ "-"
  match settings env read args[2]? with
  | .error message => .fail message
  | .ok settings =>
    let opening :=
      if source.isSome then [] else ["[gen_lex_tables] no spec given, using the demo language"]
    match lexicon read source with
    | .error message => { opening := opening, ending := .error message }
    | .ok lexicon =>
      let (dfa, reports) := lexicon.buildLexer settings.lexer
      let plan := fun ending : Except String (List String) =>
        { opening := opening, notes := reportLines "gen_lex_tables" reports, ending : Plan }
      match dfa with
      | .error e => plan (.error e.message)
      | .ok dfa =>
        if hadError reports then
          plan (.error s!"{errorCount reports} error(s); no tables written")
        else
          writeLexerTable (plan (.ok [])) (args.getD 1 "tables") settings.lexer.minimize
            (.ofDfa dfa lexicon.tokenNames)

/-! ### Parse tables -/

def conflictLine (t : ParseTable) : List String :=
  let count := fun kind => s!"{(t.conflictsOf kind).length} {kind.label}"
  if t.conflicts.isEmpty then []
  else
    [s!"[gen_parse_tables] conflicts: {count .shiftReduce}, {count .reduceReduce}, " ++
      count .reduceAccept]

def parseTablesLine (t : ParseTable) (lalr : Bool) (target : String) : String :=
  let method := if lalr then "LALR(1)" else "LR(1)"
  s!"[gen_parse_tables] {t.stateCount} states, {t.terminalNames.length} terminals, " ++
    s!"{t.productions.length} productions ({method}) -> {target}"

def tableOfRules (text : String) (settings : ParserSettings) :
    Except BuildError ParseTable × List Diagnostic :=
  match Grammar.ofBnf Bnf.read? text.toList with
  | (.error e, reports) => (.error e, reports)
  | (.ok g, reports) =>
    let (table, more) := g.buildParser settings
    (table, reports ++ more)

/-- Arguments: the rules, the file to write, and the settings. -/
def parseTables (env : Environment) (read : ReadFile) : List String → Plan
  | [] => .fail "usage: gen_parse_tables <grammar.bnf> [out.json] [config.json]"
  | source :: args =>
    match settings env read args[1]? with
    | .error message => .fail message
    | .ok settings =>
      match read.text? source with
      | none => .fail s!"reading {source}"
      | some text =>
        let (table, reports) := tableOfRules text settings.parser
        let plan := fun ending : Except String (List String) =>
          { notes := reportLines "gen_parse_tables" reports, ending : Plan }
        match table with
        | .error e => plan (.error e.message)
        | .ok t =>
          if hadError reports then
            plan (.error s!"{errorCount reports} error(s); no table written")
          else
            let target := args.getD 0 "tables/parse_tables.json"
            { plan (.ok (parseTablesLine t settings.parser.lalr target :: conflictLine t)) with
              steps :=
                [⟨.createFolder (parentPath target), systemFailure⟩,
                  ⟨.writeFile target (t.toText .strict), systemFailure⟩] }

end SyntaxTables.Command
