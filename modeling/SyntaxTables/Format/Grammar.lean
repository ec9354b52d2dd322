import SyntaxTables.Grammar
import SyntaxTables.Json.Codec

/-!
# Grammars as JSON

The kind of a production is written by its name, and a symbol as an object with one member, named
for the kind of symbol. The name of a production may be left out.
-/

namespace SyntaxTables

open Json (Codec Library)

namespace Symbol

def ofContent : Nat ⊕ Nat ⊕ Empty → Symbol
  | .inl id => terminal id
  | .inr (.inl id) => nonterminal id

def content : Symbol → Nat ⊕ Nat ⊕ Empty
  | terminal id => .inl id
  | nonterminal id => .inr (.inl id)

def codec (L : Library) : Codec Symbol :=
  (L.choice (.holding "Terminal" L.word (.holding "NonTerminal" L.word .nil))).via ofContent content

end Symbol

namespace ProductionKind

def ofContent : Unit ⊕ Unit ⊕ Unit ⊕ Unit ⊕ Empty → ProductionKind
  | .inl _ => normal
  | .inr (.inl _) => auxiliary
  | .inr (.inr (.inl _)) => flatten
  | .inr (.inr (.inr _)) => removed

def content : ProductionKind → Unit ⊕ Unit ⊕ Unit ⊕ Unit ⊕ Empty
  | normal => .inl ()
  | auxiliary => .inr (.inl ())
  | flatten => .inr (.inr (.inl ()))
  | removed => .inr (.inr (.inr (.inl ())))

def codec (L : Library) : Codec ProductionKind :=
  (L.choice (.bare "Normal" (.bare "Auxiliary" (.bare "Flatten" (.bare "Removed" .nil))))).via
    ofContent content

end ProductionKind

def Production.codec (L : Library) : Codec Production :=
  (L.record <|
    .required "kind" (ProductionKind.codec L) <|
    .required "lhs" L.word <|
    .required "rhs" (L.list (Symbol.codec L)) <|
    .withDefault "name" (L.nullable L.string) none .nil).via
    (fun (kind, lhs, rhs, name, _) => ⟨kind, lhs, rhs, name⟩)
    fun p => (p.kind, p.lhs, p.rhs, p.name, ())

def Grammar.codec (L : Library) : Codec Grammar :=
  (L.record <|
    .required "terminals" (L.list L.string) <|
    .required "nonterminals" (L.list L.string) <|
    .required "start" L.word <|
    .required "productions" (L.list (Production.codec L)) .nil).via
    (fun (terminals, nonterminals, start, productions, _) =>
      ⟨terminals, nonterminals, start, productions⟩)
    fun g => (g.terminals, g.nonterminals, g.start, g.productions, ())

end SyntaxTables
