/-!
# Rules in Backus-Naur form

A rule gives a name in angle brackets, the sign of definition, and alternatives separated by bars;
an alternative is a sequence of quoted terminals and bracketed names. A rule ends at a semicolon, at
the head of the next rule, or at the end of the text. There are no escapes: a quoted text ends at
the next quote of its kind, a name at the next closing bracket.

The reader looks ahead only at names: one that the sign of definition follows is the head of the
next rule and not a term. A bar without an alternative behind it spoils the whole rule.
-/

namespace SyntaxTables.Bnf

/-- The characters with the property White_Space, as ascending and disjoint ranges. -/
def blankRanges : List (Nat × Nat) :=
  [(0x09, 0x0D), (0x20, 0x20), (0x85, 0x85), (0xA0, 0xA0), (0x1680, 0x1680), (0x2000, 0x200A),
    (0x2028, 0x2029), (0x202F, 0x202F), (0x205F, 0x205F), (0x3000, 0x3000)]

def isBlank (c : Char) : Bool := blankRanges.any fun (lo, hi) => lo ≤ c.toNat && c.toNat ≤ hi

def trimBlank (text : List Char) : List Char :=
  ((text.dropWhile isBlank).reverse.dropWhile isBlank).reverse

inductive Term
  | terminal (text : String)
  | nonterminal (name : String)
deriving DecidableEq, Repr

structure Rule where
  head : String
  alternatives : List (List Term)
deriving DecidableEq, Repr

/-- Finds the rules of a text. -/
abbrev Reader := List Char → Option (List Rule)

def isSpace (c : Char) : Bool := c = ' ' || c = '\t' || c = '\r' || c = '\n'

def skipSpace (cs : List Char) : List Char := cs.dropWhile isSpace

/-- The text up to a closing character, and what follows that. -/
def enclosed? (close : Char) (cs : List Char) : Option (String × List Char) :=
  match cs.dropWhile fun c => c ≠ close with
  | _ :: rest => some (String.ofList (cs.takeWhile fun c => c ≠ close), rest)
  | [] => none

def definedAs? : List Char → Option (List Char)
  | ':' :: ':' :: '=' :: rest => some rest
  | _ => none

def head? : List Char → Option (String × List Char)
  | '<' :: cs => do
    let (name, rest) ← enclosed? '>' cs
    let rest ← definedAs? (skipSpace rest)
    return (name, skipSpace rest)
  | _ => none

def term? : List Char → Option (Term × List Char)
  | '"' :: cs => do
    let (text, rest) ← enclosed? '"' cs
    return (.terminal text, skipSpace rest)
  | '\'' :: cs => do
    let (text, rest) ← enclosed? '\'' cs
    return (.terminal text, skipSpace rest)
  | '<' :: cs => do
    let (name, rest) ← enclosed? '>' cs
    let rest := skipSpace rest
    if (definedAs? rest).isSome then none else return (.nonterminal name, rest)
  | _ => none

/-- Reads items one after another until one cannot be read, at most `limit` of them. -/
def many {α : Type} (item? : List Char → Option (α × List Char)) :
    Nat → List Char → List α × List Char
  | 0, cs => ([], cs)
  | limit + 1, cs =>
    match item? cs with
    | none => ([], cs)
    | some (x, rest) =>
      let (xs, rest) := many item? limit rest
      (x :: xs, rest)

/-- What follows a rule, if a rule may end here. -/
def afterRule? : List Char → Option (List Char)
  | [] => some []
  | ';' :: rest => some (skipSpace rest)
  | cs => if (head? cs).isSome then some cs else none

/-- The alternatives of a rule and what follows the rule. An item takes at least one character, so
the length of the text bounds the alternatives as well as the terms of each. -/
def alternatives? : Nat → List Char → Option (List (List Term) × List Char)
  | 0, _ => none
  | limit + 1, cs =>
    match many term? limit cs with
    | ([], _) => none
    | (terms, rest) =>
      match skipSpace rest with
      | '|' :: more => do
        let (others, rest) ← alternatives? limit (skipSpace more)
        return (terms :: others, rest)
      | rest => do return ([terms], ← afterRule? rest)

def rule? (cs : List Char) : Option (Rule × List Char) := do
  let (head, rest) ← head? (skipSpace cs)
  let (alternatives, rest) ← alternatives? (rest.length + 1) rest
  return (⟨head, alternatives⟩, rest)

/-- The rules of a text, of which there must be one at least; blanks around the text are ignored. -/
def read? : Reader := fun text =>
  let text := trimBlank text
  match many rule? text.length text with
  | ([], _) => none
  | (rules, []) => some rules
  | (_, _ :: _) => none

end SyntaxTables.Bnf
