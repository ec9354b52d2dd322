import SyntaxTables.Diagnostic
import SyntaxTables.Interval

/-!
# Token patterns and lexicons

A lexicon defines tokens, and fragments that only serve as building blocks, by patterns. A pattern
may refer to any definition by name. The place of a token among the tokens is both its number and
its priority: of two tokens that match the same text the earlier one wins.
-/

namespace SyntaxTables

inductive Pattern
  /-- One code point out of a class. -/
  | oneOf (ranges : List Interval)
  /-- One code point outside a class. -/
  | noneOf (ranges : List Interval)
  /-- Exactly this text. -/
  | literal (text : List Char)
  /-- One after another. -/
  | concat (parts : List Pattern)
  /-- Any one of these. -/
  | union (parts : List Pattern)
  | optional (inner : Pattern)
  | star (inner : Pattern)
  | plus (inner : Pattern)
  /-- Whatever the named definition stands for. -/
  | reference (name : String)

mutual

/-- The intervals that a pattern names itself, without those behind its references. The parts of a
pattern are listed from the last to the first. -/
def Pattern.intervals : Pattern → List Interval
  | .oneOf ranges => ranges
  | .noneOf ranges => complement ranges
  | .literal text => text.map Interval.ofChar
  | .concat parts => Pattern.intervalsOfParts parts
  | .union parts => Pattern.intervalsOfParts parts
  | .optional inner => inner.intervals
  | .star inner => inner.intervals
  | .plus inner => inner.intervals
  | .reference _ => []

def Pattern.intervalsOfParts : List Pattern → List Interval
  | [] => []
  | p :: ps => Pattern.intervalsOfParts ps ++ p.intervals

end

structure Definition where
  name : String
  pattern : Pattern
  location : Option Location := none

structure Lexicon where
  fragments : List Definition := []
  tokens : List Definition

namespace Lexicon

def tokenNames (lexicon : Lexicon) : List String := lexicon.tokens.map Definition.name

/-- The intervals of all definitions; the alphabet is cut along them. -/
def intervals (lexicon : Lexicon) : List Interval :=
  (lexicon.fragments ++ lexicon.tokens).flatMap fun d => d.pattern.intervals

end Lexicon

end SyntaxTables
