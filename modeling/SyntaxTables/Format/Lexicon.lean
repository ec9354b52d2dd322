import SyntaxTables.Json.Strict
import SyntaxTables.Pattern

/-!
# Lexicons as JSON

A pattern is an object with one member, named for the kind of pattern. The location of a definition
and the fragments of a lexicon may be left out.

Patterns consist of patterns, so their codec takes itself for the parts. Which codec does is known
only for a library whose readers are known; here it is found for the strict one.
-/

namespace SyntaxTables

open Json (Cases Codec Decoder Library)

def Interval.codec (L : Library) : Codec Interval :=
  (L.record (.required "min" L.word (.required "max" L.word .nil))).via
    (fun (min, max, _) => ⟨min, max⟩) fun r => (r.min, r.max, ())

def Location.codec (L : Library) : Codec Location :=
  (L.record (.required "line" L.word (.required "column" L.word .nil))).via
    (fun (line, column, _) => ⟨line, column⟩) fun l => (l.line, l.column, ())

namespace Pattern

/-- What the kinds of patterns hold. -/
abbrev Content :=
  List Interval ⊕ List Interval ⊕ String ⊕ List Pattern ⊕ List Pattern ⊕ Pattern ⊕ Pattern ⊕
    Pattern ⊕ String ⊕ Empty

def ofContent : Content → Pattern
  | .inl ranges => oneOf ranges
  | .inr (.inl ranges) => noneOf ranges
  | .inr (.inr (.inl text)) => literal text.toList
  | .inr (.inr (.inr (.inl parts))) => concat parts
  | .inr (.inr (.inr (.inr (.inl parts)))) => union parts
  | .inr (.inr (.inr (.inr (.inr (.inl inner))))) => optional inner
  | .inr (.inr (.inr (.inr (.inr (.inr (.inl inner)))))) => star inner
  | .inr (.inr (.inr (.inr (.inr (.inr (.inr (.inl inner))))))) => plus inner
  | .inr (.inr (.inr (.inr (.inr (.inr (.inr (.inr (.inl name)))))))) => reference name

def content : Pattern → Content
  | oneOf ranges => .inl ranges
  | noneOf ranges => .inr (.inl ranges)
  | literal text => .inr (.inr (.inl (String.ofList text)))
  | concat parts => .inr (.inr (.inr (.inl parts)))
  | union parts => .inr (.inr (.inr (.inr (.inl parts))))
  | optional inner => .inr (.inr (.inr (.inr (.inr (.inl inner)))))
  | star inner => .inr (.inr (.inr (.inr (.inr (.inr (.inl inner))))))
  | plus inner => .inr (.inr (.inr (.inr (.inr (.inr (.inr (.inl inner)))))))
  | reference name => .inr (.inr (.inr (.inr (.inr (.inr (.inr (.inr (.inl name))))))))

variable (L : Library)

def cases (parts : Codec Pattern) : Cases Content :=
  .holding "Ranges" (L.list (Interval.codec L)) <|
  .holding "Negated" (L.list (Interval.codec L)) <|
  .holding "Str" L.string <|
  .holding "Concat" (L.list parts) <|
  .holding "Union" (L.list parts) <|
  .holding "Optional" parts <|
  .holding "Star" parts <|
  .holding "Plus" parts <|
  .holding "Ref" L.string .nil

/-- The codec of patterns, given one for their parts. -/
def layer (parts : Codec Pattern) : Codec Pattern :=
  (L.choice (cases L parts)).via ofContent content

mutual

def toJson : Pattern → Json
  | .oneOf ranges => .tagged "Ranges" (.ofList (Interval.codec .strict).write ranges)
  | .noneOf ranges => .tagged "Negated" (.ofList (Interval.codec .strict).write ranges)
  | .literal text => .tagged "Str" (.ofString (String.ofList text))
  | .concat parts => .tagged "Concat" (.array (partsToJson parts))
  | .union parts => .tagged "Union" (.array (partsToJson parts))
  | .optional inner => .tagged "Optional" inner.toJson
  | .star inner => .tagged "Star" inner.toJson
  | .plus inner => .tagged "Plus" inner.toJson
  | .reference name => .tagged "Ref" (.ofString name)

def partsToJson : List Pattern → List Json
  | [] => []
  | p :: ps => p.toJson :: partsToJson ps

end

/-- Reads a pattern. A part of a pattern stands at least one level deeper. -/
def decode : Decoder Pattern
  | levels + 1, .object [(some tag, content)] =>
    match tag with
    | "Ranges" => (Decoder.list (Interval.codec .strict).read levels content).map .oneOf
    | "Negated" => (Decoder.list (Interval.codec .strict).read levels content).map .noneOf
    | "Str" => (Decoder.string levels content).map fun s => .literal s.toList
    | "Concat" =>
      match levels, content with
      | levels + 1, .array parts => (parts.mapM (decode levels)).map .concat
      | _, _ => none
    | "Union" =>
      match levels, content with
      | levels + 1, .array parts => (parts.mapM (decode levels)).map .union
      | _, _ => none
    | "Optional" => (decode levels content).map .optional
    | "Star" => (decode levels content).map .star
    | "Plus" => (decode levels content).map .plus
    | "Ref" => (Decoder.string levels content).map .reference
    | _ => none
  | _, _ => none

def strict : Codec Pattern := ⟨toJson, decode⟩

end Pattern

variable (L : Library) (patterns : Codec Pattern)

def Definition.codec : Codec Definition :=
  (L.record <|
    .required "name" L.string <|
    .required "expr" patterns <|
    .withDefault "location" (L.nullable (Location.codec L)) none .nil).via
    (fun (name, pattern, location, _) => ⟨name, pattern, location⟩)
    fun d => (d.name, d.pattern, d.location, ())

def Lexicon.codec : Codec Lexicon :=
  (L.record <|
    .withDefault "fragments" (L.list (Definition.codec L patterns)) [] <|
    .required "tokens" (L.list (Definition.codec L patterns)) .nil).via
    (fun (fragments, tokens, _) => ⟨fragments, tokens⟩)
    fun lexicon => (lexicon.fragments, lexicon.tokens, ())

end SyntaxTables
