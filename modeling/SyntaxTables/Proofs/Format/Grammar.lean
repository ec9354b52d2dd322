import SyntaxTables.Format.Grammar
import SyntaxTables.Proofs.Format.Lexicon
import SyntaxTables.Proofs.Json.Strict

/-!
# Grammars in files

What is read of a grammar is restored from its written form, as what is read of a lexicon is. Both
therefore have one text among all their texts that reading and writing leave as it is, and whoever
can read any of the others can read this one.
-/

namespace SyntaxTables

open Json

section Settles

variable {L : Library} (hL : L.Lawful) {depth levels : Nat}

include hL

theorem Symbol.settles : (codec L).Settles levels := by
  refine (hL.settles_choice (by simp [Cases.tags]) fun inner _ => ?_).via ?_
  · exact ⟨hL.settles_word, hL.settles_word, trivial⟩
  · rintro (_ | _ | ⟨⟨⟩⟩) <;> rfl

theorem ProductionKind.restores (k : ProductionKind) : (codec L).Restores depth k := by
  refine .via (hL.restores_choice (by simp [Cases.tags]) ?_) ?_
  · cases k <;> trivial
  · cases k <;> rfl

theorem ProductionKind.settles : (codec L).Settles levels := ⟨fun _ => restores hL _⟩

theorem Production.settles : (codec L).Settles levels := by
  refine .via (hL.settles_record (by simp [Fields.names]) fun inner _ => ?_) fun _ => rfl
  have hrhs : (L.list (Symbol.codec L)).Settles inner :=
    hL.settles_list fun _ _ => Symbol.settles hL
  have hname : (L.nullable L.string).Settles inner :=
    hL.settles_nullable hL.settles_string hL.write_string_ne_null
  exact ⟨.required (ProductionKind.settles hL), .required hL.settles_word, .required hrhs,
    .withDefault hname hL.restores_none, trivial⟩

theorem Grammar.settles : (codec L).Settles levels := by
  refine .via (hL.settles_record (by simp [Fields.names]) fun inner _ => ?_) fun _ => rfl
  have hnames : (L.list L.string).Settles inner := hL.settles_list fun _ _ => hL.settles_string
  have hproductions : (L.list (Production.codec L)).Settles inner :=
    hL.settles_list fun _ _ => Production.settles hL
  exact ⟨.required hnames, .required hnames, .required hL.settles_word, .required hproductions,
    trivial⟩

end Settles

/-! ### Texts -/

/-- A lexicon or a grammar that is read from a text, in whatever form, is read again from its
written form, and what is read then is written in the same way. -/
theorem ofText_compact_settled (L : Library) (hL : L.Lawful) (patterns : Codec Pattern)
    (hpatterns : patterns = Pattern.layer L patterns) :
    (∀ (text : List UInt8) (lexicon : Lexicon),
      L.ofText (Lexicon.codec L patterns) text = some lexicon →
        ∃ again, L.ofText (Lexicon.codec L patterns)
            (L.toText (Lexicon.codec L patterns) lexicon) = some again ∧ again = lexicon ∧
          L.toText (Lexicon.codec L patterns) again = L.toText (Lexicon.codec L patterns) lexicon) ∧
    ∀ (text : List UInt8) (g : Grammar), L.ofText (Grammar.codec L) text = some g →
      ∃ again, L.ofText (Grammar.codec L) (L.toText (Grammar.codec L) g) = some again ∧
        again = g ∧ L.toText (Grammar.codec L) again = L.toText (Grammar.codec L) g := by
  have hlexicon : (Lexicon.codec L patterns).Settles depthLimit :=
    Lexicon.settles hL hpatterns (by decide)
  exact ⟨fun _ lexicon h => ⟨lexicon, hL.ofText_toText_of_ofText hlexicon h, rfl, rfl⟩,
    fun _ g h => ⟨g, hL.ofText_toText_of_ofText (Grammar.settles hL) h, rfl, rfl⟩⟩

/-- So many options inside each other, around a letter. -/
def optionals : Nat → Pattern
  | 0 => .literal ['x']
  | n + 1 => .optional (optionals n)

theorem decode_optionals (levels n : Nat) : Pattern.decode levels (optionals n).toJson =
    if n < levels then some (optionals n) else none := by
  induction n generalizing levels with
  | zero => cases levels <;> rfl
  | succ n ih =>
    cases levels with
    | zero => rfl
    | succ levels =>
      have hstep : Pattern.decode (levels + 1) (optionals (n + 1)).toJson =
          (Pattern.decode levels (optionals n).toJson).map .optional := by
        rw [optionals, Pattern.toJson]
        rfl
      rw [hstep, ih]
      by_cases hlt : n < levels <;> simp [hlt, optionals]

/-- The only definition is an array and has no location, there are no fragments, and a member that
is no field comes first. -/
def looseLexicon (p : Pattern) : Json :=
  .record [("comment", .null), ("tokens", .array [.array [.ofString "x", p.toJson]])]

theorem plain_looseLexicon {depth n : Nat} (h : n < depth) :
    (looseLexicon (optionals n)).Plain (depth + 3) := by
  have hread : Pattern.strict.read depth (optionals n).toJson = some (optionals n) :=
    (decode_optionals depth n).trans (if_pos h)
  have hpattern : (optionals n).toJson.Plain depth :=
    ((Pattern.settles lawful_strict Pattern.strict_eq_layer).restores hread).plain
  have htoken : (Json.array [.ofString "x", (optionals n).toJson]).Plain (depth + 1) :=
    .array (by simp [Plain.ofString, hpattern])
  exact .record (by simp [Plain.null, Plain.array, htoken])

def singleLexicon (p : Pattern) : Lexicon where
  tokens := [⟨"x", p, none⟩]

theorem read_looseLexicon (p : Pattern) :
    (Lexicon.codec .strict Pattern.strict).read depthLimit (looseLexicon p) =
      (Pattern.decode 124 p.toJson).map singleLexicon := by
  cases hp : Pattern.decode 124 p.toJson <;>
    simp [looseLexicon, Lexicon.codec, Definition.codec, Codec.via, Library.strict, Pattern.strict,
      depthLimit, record, ofString, Fields.decode, Fields.ofMembers?, Fields.ofMember?,
      Fields.ofItems?, Decoder.list, Decoder.string, hp, singleLexicon]

/-- A lexicon is read if its pattern uses up all levels that are left for it, and no deeper one
is. -/
theorem ofText_looseLexicon (n : Nat) :
    Library.strict.ofText (Lexicon.codec .strict Pattern.strict)
        (looseLexicon (optionals n)).toBytes =
      if n < 124 then some (singleLexicon (optionals n)) else none := by
  have hparse : read? (looseLexicon (optionals n)).toBytes = some (looseLexicon (optionals n)) :=
    read?_toBytes (plain_looseLexicon (Nat.lt_succ_self n))
  rw [Library.ofText, show Library.strict.parse = read? from rfl, hparse, Option.bind_some,
    read_looseLexicon, decode_optionals]
  split <;> rfl

/-- An array of fields. The production has its fields in another order and no name, and its kind is
an object. -/
def looseGrammar : List UInt8 :=
  "[[\"x\"], [\"S\"], 0, [\x7b\"rhs\": [\x7b\"Terminal\": 0\x7d], \"lhs\": 0, ".toList.map
    Char.toUInt8 ++ "\"kind\": \x7b\"Normal\": null\x7d\x7d]]".toList.map Char.toUInt8

def letterGrammar : Grammar where
  terminals := ["x"]
  nonterminals := ["S"]
  start := 0
  productions := [{ kind := .normal, lhs := 0, rhs := [.terminal 0] }]

theorem ofText_compact_settled_loose :
    Library.strict.Lawful ∧ Pattern.strict = Pattern.layer .strict Pattern.strict ∧
      Library.strict.ofText (Lexicon.codec .strict Pattern.strict)
          (looseLexicon (optionals 123)).toBytes = some (singleLexicon (optionals 123)) ∧
      Library.strict.ofText (Lexicon.codec .strict Pattern.strict)
          (Library.strict.toText (Lexicon.codec .strict Pattern.strict)
            (singleLexicon (optionals 123))) = some (singleLexicon (optionals 123)) ∧
      Library.strict.ofText (Lexicon.codec .strict Pattern.strict)
          (looseLexicon (optionals 124)).toBytes = none ∧
      Library.strict.ofText (Grammar.codec .strict) looseGrammar = some letterGrammar ∧
      Library.strict.ofText (Grammar.codec .strict)
          (Library.strict.toText (Grammar.codec .strict) letterGrammar) = some letterGrammar := by
  have hlexicon := ofText_looseLexicon 123
  have hdeeper := ofText_looseLexicon 124
  have hgrammar : Library.strict.ofText (Grammar.codec .strict) looseGrammar =
      some letterGrammar := by decide +kernel
  have hsettled := ofText_compact_settled .strict lawful_strict Pattern.strict
    Pattern.strict_eq_layer
  obtain ⟨lexicon, hreadLexicon, rfl, -⟩ := hsettled.1 _ _ hlexicon
  obtain ⟨g, hreadGrammar, rfl, -⟩ := hsettled.2 _ _ hgrammar
  exact ⟨lawful_strict, Pattern.strict_eq_layer, hlexicon, hreadLexicon, hdeeper, hgrammar,
    hreadGrammar⟩

end SyntaxTables
