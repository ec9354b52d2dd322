import SyntaxTables.Command
import SyntaxTables.Format.Lexicon
import SyntaxTables.Generator
import SyntaxTables.Grammar.Draft
import SyntaxTables.Grammar.Sentences
import SyntaxTables.Main
import SyntaxTables.ParseTable.Verdict.Agreement
import SyntaxTables.Proofs.Ascending
import SyntaxTables.Proofs.Exploration
import SyntaxTables.Proofs.Exploration.Queue
import SyntaxTables.Proofs.Dfa.Partition
import SyntaxTables.Proofs.Dfa.Refinement
import SyntaxTables.Proofs.Dfa.Minimal
import SyntaxTables.Proofs.Dfa.Coarsest
import SyntaxTables.Proofs.Dfa.Canonical
import SyntaxTables.Proofs.Alphabet
import SyntaxTables.Proofs.Dfa.Subset
import SyntaxTables.Proofs.Grammar.Derivation
import SyntaxTables.Proofs.Grammar.First.Exact
import SyntaxTables.Proofs.Lexer
import SyntaxTables.Proofs.Lr.Automaton
import SyntaxTables.Proofs.Lr.Canonical
import SyntaxTables.Proofs.Lr.Merge
import SyntaxTables.Proofs.ParseTable.Completeness
import SyntaxTables.Proofs.ParseTable.Soundness
import SyntaxTables.Proofs.Grammar.Productive
import SyntaxTables.Proofs.Lr.Justified
import SyntaxTables.Proofs.ParseTable.Reduction
import SyntaxTables.Proofs.ParseTable.Continuation
import SyntaxTables.Proofs.ParseTable.Termination
import SyntaxTables.Proofs.ParseTable.Failure
import SyntaxTables.Proofs.ParseTable.ErrorPosition
import SyntaxTables.Proofs.ParseTable.Merging
import SyntaxTables.Proofs.ParseTable.Placement
import SyntaxTables.Proofs.ParseTable.Conflicts
import SyntaxTables.Proofs.ParseTable.MergedConflicts
import SyntaxTables.Proofs.Lexer.Munch
import SyntaxTables.Proofs.Lr.Valid
import SyntaxTables.Proofs.Lr.Quotient
import SyntaxTables.Proofs.Lr.Collection
import SyntaxTables.Proofs.ParseTable.Safety
import SyntaxTables.Proofs.Lexer.Reports
import SyntaxTables.Proofs.LexerTable.Binary
import SyntaxTables.Proofs.Lexer.Stored
import SyntaxTables.Proofs.Grammar.Defects
import SyntaxTables.Proofs.Generator
import SyntaxTables.Proofs.Dfa.Subset.Runs
import SyntaxTables.Proofs.Nfa.Workshop
import SyntaxTables.Proofs.Alphabet.Sweep
import SyntaxTables.Proofs.Exploration.Exhaust
import SyntaxTables.Proofs.Grammar.Yields
import SyntaxTables.Proofs.Grammar.Yields.Shortest
import SyntaxTables.Proofs.Grammar.Sentences
import SyntaxTables.Proofs.Nfa.Repetition
import SyntaxTables.Proofs.Nfa.Afresh
import SyntaxTables.Proofs.Nfa.Independence
import SyntaxTables.Proofs.Grammar.Renumbering
import SyntaxTables.Proofs.Lr.Renumbering
import SyntaxTables.Proofs.ParseTable.Renumbering
import SyntaxTables.Proofs.ParseTable.Reordering
import SyntaxTables.Proofs.Grammar.Pruning
import SyntaxTables.Proofs.ParseTable.OrderedRenumbering
import SyntaxTables.Proofs.ParseTable.RenumberedRun
import SyntaxTables.Proofs.ParseTable.IllFormed
import SyntaxTables.Proofs.LexerTable.Layout
import SyntaxTables.Proofs.LexerTable
import SyntaxTables.Proofs.Interval
import SyntaxTables.Proofs.Scan.Faults
import SyntaxTables.Proofs.LexerTable.Loaded
import SyntaxTables.Proofs.Json.Reader
import SyntaxTables.Proofs.Json.Strict
import SyntaxTables.Proofs.Format.ParseTable
import SyntaxTables.Proofs.Format.LexerTable
import SyntaxTables.Proofs.Grammar.Draft
import SyntaxTables.Proofs.Grammar.Rules
import SyntaxTables.Proofs.Json.Stable
