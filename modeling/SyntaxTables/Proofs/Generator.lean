import SyntaxTables.Generator
import SyntaxTables.Proofs.Grammar.Defects
import SyntaxTables.Proofs.Lexer.Reports

/-!
# Nothing is lost without an error

The callers of both constructions look for errors among the reports before they write any table. So
whatever is left out of a table has to be among the reports as an error, and it is: tables without
an error have all tokens and all productions in them.
-/

namespace SyntaxTables

variable {lexicon : Lexicon} {g : Grammar} {settings : Settings} {tables : GeneratedTables}
  {reports reports' : List Diagnostic}

theorem exists_of_generate (h : generate lexicon g settings = (.ok tables, reports)) :
    ∃ dfa table lexerReports parserReports,
      lexicon.buildLexer settings.lexer = (.ok dfa, lexerReports) ∧
      g.buildParser settings.parser = (.ok table, parserReports) ∧
      tables = ⟨.ofDfa dfa lexicon.tokenNames, table⟩ ∧
      reports = lexerReports ++ parserReports := by
  unfold generate at h
  rcases hlexer : lexicon.buildLexer settings.lexer with ⟨_ | dfa, lexerReports⟩
  · rw [hlexer] at h
    simp [bind, Except.bind] at h
  · rcases hparser : g.buildParser settings.parser with ⟨_ | table, parserReports⟩
    · rw [hlexer, hparser] at h
      simp [bind, Except.bind] at h
    · rw [hlexer, hparser] at h
      obtain ⟨htables, hreports⟩ := Prod.mk.inj h
      exact ⟨dfa, table, lexerReports, parserReports, rfl, rfl, (Except.ok.inj htables).symm,
        hreports.symm⟩

theorem exists_tables_of_isSome (lexicon : Lexicon) (g : Grammar) (settings : Settings)
    (h : (generate lexicon g settings).1.toOption.isSome = true) :
    ∃ tables, generate lexicon g settings = (.ok tables, (generate lexicon g settings).2) := by
  cases htables : (generate lexicon g settings).1 with
  | error e => simp [htables, Except.toOption] at h
  | ok tables => exact ⟨tables, Prod.ext htables rfl⟩

/-- Every token and every production has come into the tables. The lexer table reads all tokens, and
in the parse table each production has its entry and, wherever it is complete, its cell or the
record of the conflict that it lost. -/
structure Whole (lexicon : Lexicon) (g : Grammar) (settings : Settings)
    (tables : GeneratedTables) : Prop where
  accepted : (lexicon.tokenNfa lexicon.alphabet).accepted = lexicon.tokens.length
  joined : ∀ {i d}, lexicon.tokens[i]? = some d → ∀ {w}, d.pattern.Matches lexicon w →
    (lexicon.tokenNfa lexicon.alphabet).automaton.Accepts lexicon.alphabet w ⟨i, i⟩
  read : ∃ dfa, (lexicon.buildLexer settings.lexer).1 = .ok dfa ∧
    tables.lexer = .ofDfa dfa lexicon.tokenNames ∧
    ∀ {i d}, lexicon.tokens[i]? = some d → ∀ {text : List Char},
      d.pattern.Matches lexicon (text.map Char.toNat) →
        ∃ j ≤ i, dfa.automaton.wholeMatch text = .ok (some j)
  parser : tables.parser = g.parseTable (g.lrAutomaton settings.parser)
  productions : ∀ {i p}, g.productions[i]? = some p →
    g.TakesPart (g.lrAutomaton settings.parser) i p
  length : tables.parser.productions.length = g.productions.length
  entry : ∀ {i : Nat} {p}, g.productions[i]? = some p →
    tables.parser.productions[i]? = some ⟨p.lhs, p.rhs.length, p.kind, p.name⟩
  reduced : ∀ {i : Nat} {p}, g.productions[i]? = some p → ∀ {s x},
    (g.lrAutomaton settings.parser).Holds s ⟨i, p.rhs.length, x⟩ →
      tables.parser.action? s x = some (.reduce i) ∨
        ∃ c ∈ tables.parser.conflicts, c.state = s ∧ c.terminal = x ∧ c.dropped = .reduce i
  accepting : ∀ {s}, (g.lrAutomaton settings.parser).Holds s ⟨g.augmented, 1, g.eof⟩ →
    tables.parser.action? s g.eof = some .accept

theorem whole_of_sound {dfa : Dfa} {table : ParseTable} (hsound : lexicon.Sound)
    (hshaped : ∀ p ∈ g.productions, g.WellShaped p)
    (hlexer : lexicon.buildLexer settings.lexer = (.ok dfa, reports))
    (hparser : g.buildParser settings.parser = (.ok table, reports')) :
    Whole lexicon g settings ⟨.ofDfa dfa lexicon.tokenNames, table⟩ := by
  have hdfa : (lexicon.buildLexer settings.lexer).1 = .ok dfa := congrArg Prod.fst hlexer
  obtain ⟨hstart, rfl⟩ := Grammar.eq_of_buildParser hparser
  have hfaithful := Grammar.faithful_lrAutomaton hstart settings.parser
  have husable : ∀ {i p}, g.productions[i]? = some p → g.Usable i p :=
    fun hp => ⟨hp, (hshaped _ (List.mem_of_getElem? hp)).wellFormed⟩
  exact {
    accepted := hsound.accepted_eq
    joined := by
      intro i d hd w hw
      have hlive := hsound.tokens i d hd
      exact ((Lexicon.joins_tokenNfa_alphabet lexicon).accepts w ⟨i, i⟩).2
        ⟨i, hlive.lt_length, rfl, d, hlive, hw⟩
    read := by
      refine ⟨dfa, hdfa, rfl, fun hd _ hmatches => ?_⟩
      exact (Lexicon.readBy_of_buildLexer hdfa).exists_le (hsound.tokens _ _ hd) hmatches
    parser := rfl
    productions := fun hp => (husable hp).takesPart hfaithful
    length := by simp [Grammar.parseTable]
    entry := by
      intro i p hp
      simp [Grammar.parseTable, Grammar.productionInfo, hp]
    reduced := by
      intro i p hp s x hit
      have hi : i < g.augmented := (List.getElem?_eq_some_iff.1 hp).1
      rw [← Grammar.body_of_usable (husable hp)] at hit
      exact Grammar.action?_or_conflict_of_complete hfaithful (Nat.ne_of_lt hi) hit
    accepting := Grammar.action?_of_start hfaithful }

/-- Without an error among the reports nothing is wrong with what was declared, and the other way
round; and then nothing was left out. -/
theorem generate_hadError (h : generate lexicon g settings = (.ok tables, reports)) :
    (hadError reports = false ↔
      lexicon.Sound ∧ ∀ p ∈ g.productions, g.WellShaped p) ∧
    (hadError reports = false → Whole lexicon g settings tables) := by
  obtain ⟨dfa, table, lexerReports, parserReports, hlexer, hparser, rfl, rfl⟩ :=
    exists_of_generate h
  have herror : hadError (lexerReports ++ parserReports) = false ↔
      lexicon.Sound ∧ ∀ p ∈ g.productions, g.WellShaped p := by
    rw [hadError_append, Bool.or_eq_false_iff, Lexicon.hadError_buildLexer hlexer,
      Grammar.hadError_buildParser hparser]
  refine ⟨herror, fun hnone => ?_⟩
  obtain ⟨hsound, hshaped⟩ := herror.1 hnone
  exact whole_of_sound hsound hshaped hlexer hparser

/-- A keyword and the names that it is one of. -/
def bindingTokens : Lexicon where
  fragments := [⟨"letter", .oneOf [⟨97, 122⟩], none⟩]
  tokens := [⟨"let", .literal ['l', 'e', 't'], none⟩, ⟨"name", .plus (.reference "letter"), none⟩]

/-- The same with a token that can match the empty string. -/
def emptyTokens : Lexicon :=
  { bindingTokens with
    tokens := bindingTokens.tokens ++ [⟨"names", .star (.reference "letter"), none⟩] }

/-- Lists of bindings, each with an annotation that is never there. -/
def bindings : Grammar where
  terminals := ["let", "name"]
  nonterminals := ["L", "B", "A"]
  start := 0
  productions := [⟨.flatten, 0, [.nonterminal 0, .nonterminal 1], none⟩, ⟨.normal, 0, [], none⟩,
    ⟨.normal, 1, [.terminal 0, .terminal 1, .nonterminal 2], none⟩, ⟨.removed, 2, [], none⟩]

theorem generate_hadError_bindings :
    (∃ tables reports, generate bindingTokens bindings {} = (.ok tables, reports) ∧
      hadError reports = false ∧ bindingTokens.Sound ∧ Whole bindingTokens bindings {} tables) ∧
    ∃ tables reports, generate emptyTokens bindings {} = (.ok tables, reports) ∧
      hadError reports = true ∧ ¬ emptyTokens.Sound := by
  have hnone : hadError (generate bindingTokens bindings {}).2 = false := by decide +kernel
  have herror : hadError (generate emptyTokens bindings {}).2 = true := by decide +kernel
  obtain ⟨tables, h⟩ := exists_tables_of_isSome bindingTokens bindings {} (by decide +kernel)
  obtain ⟨tables', h'⟩ := exists_tables_of_isSome emptyTokens bindings {} (by decide +kernel)
  obtain ⟨hsound, hshaped⟩ := (generate_hadError h).1.1 hnone
  refine ⟨⟨tables, _, h, hnone, hsound, (generate_hadError h).2 hnone⟩, tables', _, h', herror, ?_⟩
  intro hempty
  have hfalse := (generate_hadError h').1.2 ⟨hempty, hshaped⟩
  rw [herror] at hfalse
  simp at hfalse

end SyntaxTables
