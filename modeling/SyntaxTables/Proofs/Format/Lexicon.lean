import SyntaxTables.Format.Lexicon
import SyntaxTables.Proofs.Json.Stable

/-!
# Lexicons in files

What is read of a lexicon is restored from its written form. A pattern is nested as deeply as its
text, because each of its parts is written one or two levels inside it, where it also stood in the
text; so this is an induction on the levels.
-/

namespace SyntaxTables

open Json (Cases Codec Fields Library Missing)

variable {L : Library} (hL : L.Lawful) {depth levels : Nat}

include hL

theorem Interval.restores {r : Interval} (hmin : r.min < wordLimit) (hmax : r.max < wordLimit) :
    (codec L).Restores (depth + 1) r := by
  refine .via (hL.restores_record (by simp [Fields.names]) ?_) rfl
  exact ⟨hL.restores_word hmin, hL.restores_word hmax, trivial⟩

theorem Interval.settles : (codec L).Settles levels := by
  refine .via (hL.settles_record (by simp [Fields.names]) fun inner _ => ?_) fun _ => rfl
  exact ⟨.required hL.settles_word, .required hL.settles_word, trivial⟩

theorem Location.settles : (codec L).Settles levels := by
  refine .via (hL.settles_record (by simp [Fields.names]) fun inner _ => ?_) fun _ => rfl
  exact ⟨.required hL.settles_word, .required hL.settles_word, trivial⟩

theorem Location.write_ne_null (l : Location) : (codec L).write l ≠ .null := by
  rw [codec, Codec.via, hL.write_record]
  rintro ⟨⟩

/-! ### Patterns -/

namespace Pattern

omit hL in
theorem content_ofContent (x : Content) : (ofContent x).content = x := by
  rcases x with _ | _ | _ | _ | _ | _ | _ | _ | _ | ⟨⟨⟩⟩ <;> simp [ofContent, content]

/-- The parts of a pattern stand at least one level inside it. -/
theorem settles_layer {parts : Codec Pattern} (h : ∀ inner < levels, parts.Settles inner) :
    (layer L parts).Settles levels := by
  refine (hL.settles_choice (by simp [cases, Cases.tags]) fun inner hinner => ?_).via
    content_ofContent
  have hpart : parts.Settles inner := h inner (by omega)
  have hparts : (L.list parts).Settles inner := hL.settles_list fun m hm => h m (by omega)
  have hranges : (L.list (Interval.codec L)).Settles inner :=
    hL.settles_list fun _ _ => Interval.settles hL
  exact ⟨hranges, hranges, hL.settles_string, hparts, hparts, hpart, hpart, hpart,
    hL.settles_string, trivial⟩

theorem settles {patterns : Codec Pattern} (hpatterns : patterns = layer L patterns) :
    patterns.Settles levels := by
  induction levels using Nat.strongRecOn with
  | ind levels ih =>
    have hlayer := settles_layer hL ih
    rwa [← hpatterns] at hlayer

end Pattern

/-! ### Lexicons -/

variable {patterns : Codec Pattern} (hpatterns : patterns = Pattern.layer L patterns)

include hpatterns

theorem Definition.settles : (codec L patterns).Settles levels := by
  refine .via (hL.settles_record (by simp [Fields.names]) fun inner _ => ?_) fun _ => rfl
  have hlocation : (L.nullable (Location.codec L)).Settles inner :=
    hL.settles_nullable (Location.settles hL) (Location.write_ne_null hL)
  exact ⟨.required hL.settles_string, .required (Pattern.settles hL hpatterns),
    .withDefault hlocation hL.restores_none, trivial⟩

/-- A list of fragments is written even where none was given, so two levels must be left for it. -/
theorem Lexicon.settles (hlevels : 2 ≤ levels) : (codec L patterns).Settles levels := by
  refine .via (hL.settles_record (by simp [Fields.names]) fun inner hinner => ?_) fun _ => rfl
  have hdefinitions : (L.list (Definition.codec L patterns)).Settles inner :=
    hL.settles_list fun _ _ => Definition.settles hL hpatterns
  obtain ⟨m, rfl⟩ := Nat.exists_eq_add_one.2 (by omega : 0 < inner)
  exact ⟨.withDefault hdefinitions (hL.restores_list (by simp)), .required hdefinitions, trivial⟩

end SyntaxTables
