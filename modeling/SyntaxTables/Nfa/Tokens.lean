import SyntaxTables.Nfa.Thompson

/-!
# The automaton of a lexicon

The automaton of all tokens starts in one state with a silent edge into every accepted token, whose
exit is labelled with the token. A token is left out, and the reason reported, when its name is
taken, when a reference in it cannot be built, or when it matches the empty text: such a token would
never let the scanner advance.
-/

namespace SyntaxTables

/-- Why a definition of a lexicon is not used as it stands. -/
inductive LexiconDefect
  | duplicateFragment (name : String)
  | duplicateDefinition (name : String)
  | unresolved (token : String) (cause : ReferenceError)
  | matchesEmpty (token : String)
deriving DecidableEq, Repr

def LexiconDefect.message : LexiconDefect → String
  | duplicateFragment name => s!"duplicate fragment `{name}`"
  | duplicateDefinition name => s!"duplicate definition `{name}`"
  | unresolved token cause => s!"token `{token}`: {cause.message}"
  | matchesEmpty token => s!"token `{token}` can match the empty string"

namespace Lexicon

/-- The definitions whose name an earlier one in the list has taken. -/
def repeated (taken : List String) : List Definition → List Definition
  | [] => []
  | d :: ds =>
    if d.name ∈ taken then d :: repeated taken ds else repeated (d.name :: taken) ds

/-- Is the name of token `i` taken by a fragment or an earlier token? -/
def isDuplicateToken (lexicon : Lexicon) (i : Nat) : Bool :=
  match lexicon.tokens[i]? with
  | some t => (lexicon.fragments ++ lexicon.tokens.take i).any fun d => d.name = t.name
  | none => false

/-- One report for each definition that is ignored because its name is taken. -/
def duplicateReports (lexicon : Lexicon) : List Diagnostic :=
  (repeated [] lexicon.fragments).map
      (fun d => .error (LexiconDefect.duplicateFragment d.name).message d.location) ++
    (repeated (lexicon.fragments.map Definition.name) lexicon.tokens).map
      fun d => .error (LexiconDefect.duplicateDefinition d.name).message d.location

end Lexicon

/-- An automaton under construction, with the number of its tokens and the reports so far. -/
structure TokenNfa where
  workshop : Workshop
  accepted : Nat := 0
  reports : List Diagnostic := []

namespace TokenNfa

def report (t : TokenNfa) (defect : LexiconDefect) (location : Option Location) : TokenNfa :=
  { t with reports := t.reports ++ [.error defect.message location] }

/-- Adds token number `id`, or reports why it is left out. -/
def addToken (alphabet : Alphabet) (lexicon : Lexicon) (t : TokenNfa) (id : Nat) (d : Definition) :
    TokenNfa :=
  match (Nfa.Build.compile alphabet lexicon d.pattern).run t.workshop with
  | .error cause w => { t with workshop := w }.report (.unresolved d.name cause) d.location
  | .ok b w =>
    if w.arena.silentlyReaches b.entry b.exit then
      { t with workshop := w }.report (.matchesEmpty d.name) d.location
    else
      { t with
        workshop := { w with
          arena := (w.arena.addSilent w.arena.start b.entry).setLabel b.exit ⟨id, id⟩ }
        accepted := t.accepted + 1 }

/-- Adds the tokens numbered from `id` on, except those whose name is taken. -/
def addTokens (alphabet : Alphabet) (lexicon : Lexicon) (t : TokenNfa) :
    Nat → List Definition → TokenNfa
  | _, [] => t
  | id, d :: ds =>
    let t := if lexicon.isDuplicateToken id then t else t.addToken alphabet lexicon id d
    t.addTokens alphabet lexicon (id + 1) ds

def empty (reports : List Diagnostic) : TokenNfa := ⟨{ arena := Nfa.addState {} }, 0, reports⟩

def automaton (t : TokenNfa) : Nfa := t.workshop.arena

end TokenNfa

/-- The automaton of all tokens of a lexicon, over a given alphabet. -/
def Lexicon.tokenNfa (lexicon : Lexicon) (alphabet : Alphabet) : TokenNfa :=
  (TokenNfa.empty lexicon.duplicateReports).addTokens alphabet lexicon 0 lexicon.tokens

end SyntaxTables
