/-!
# Diagnostics

What can be repaired or tolerated is reported and construction goes on; a diagnostic is one such
report. Reports are collected in a list in the order in which they arise. Only a fault that leaves
nothing to build a table from makes a construction fail.
-/

namespace SyntaxTables

/-- A place in a source text; both numbers count from one. -/
structure Location where
  line : Nat
  column : Nat
deriving DecidableEq, Repr

def Location.text (l : Location) : String := s!"{l.line}:{l.column}"

inductive Severity
  | error
  | warning
deriving DecidableEq, Repr

def Severity.tag : Severity → String
  | error => "error"
  | warning => "warning"

structure Diagnostic where
  severity : Severity
  message : String
  location : Option Location
deriving DecidableEq, Repr

namespace Diagnostic

def error (message : String) (location : Option Location) : Diagnostic :=
  ⟨.error, message, location⟩

def warning (message : String) (location : Option Location) : Diagnostic :=
  ⟨.warning, message, location⟩

def isError (d : Diagnostic) : Bool := d.severity = .error

def isWarning (d : Diagnostic) : Bool := d.severity = .warning

/-- One line: the severity, the place if it is known, and the message. -/
def text (d : Diagnostic) : String :=
  match d.location with
  | some l => s!"{d.severity.tag} at {l.text}: {d.message}"
  | none => s!"{d.severity.tag}: {d.message}"

end Diagnostic

/-- An error among the reports forbids to write any table. -/
def hadError (reports : List Diagnostic) : Bool := reports.any Diagnostic.isError

@[simp] theorem hadError_append (reports more : List Diagnostic) :
    hadError (reports ++ more) = (hadError reports || hadError more) :=
  List.any_append

theorem hadError_eq_false_iff {reports : List Diagnostic}
    (h : ∀ d ∈ reports, d.isError = true) : hadError reports = false ↔ reports = [] := by
  rw [hadError, List.any_eq_false, List.eq_nil_iff_forall_not_mem]
  constructor
  · exact fun hnone d hd => hnone d hd (h d hd)
  · exact fun hnone d hd => absurd hd (hnone d)

/-- Why a construction yields nothing. -/
inductive BuildError
  | emptyGrammar
  | missingStart (id : Nat)
  | startWithoutProductions (name : String)
  | noTokens
  | allTokensRejected (count : Nat)
  | malformedBnf
deriving DecidableEq, Repr

def BuildError.message : BuildError → String
  | emptyGrammar => "grammar has no productions"
  | missingStart id => s!"start non-terminal {id} is not declared"
  | startWithoutProductions name => s!"start non-terminal `{name}` has no productions"
  | noTokens => "no token definitions given"
  | allTokensRejected count => s!"no token definition survived construction ({count} rejected)"
  | malformedBnf => "invalid BNF input"

end SyntaxTables
