import Mathlib
import PeerScript.Proofs.Messages.Texts
import PeerScript.Proofs.Spelling

/-!
# Texts made of tokens

Every token has a spelling, and where no floating point number is among them, the spellings of any
tokens with one space between each two are a text that is cut into these tokens: `tokenize_spelled`.
No two spellings merge, because a space goes on with no token that is begun and is none itself.
-/

set_option autoImplicit false

namespace PeerScript

namespace Script

/-- The spellings of tokens with a space between each two. -/
def spelled (ts : List Token) : String := String.ofList ([' '].intercalate (ts.map Token.spelling))

open Encoder (CutsInto Apart cutsInto_spaced)

/-! ## Cutting what is spelled -/

theorem lexes_spelled {ts : List Token} (each : ∀ t ∈ ts, t.IsSpelled) :
    Lexes (spelled ts).toList (ts ++ [.finish]) := by
  have cuts : ∀ t ∈ ts, CutsInto Apart t.spelling [t] := fun t mem => (each t mem).cutsInto
  have whole := cutsInto_spaced cuts .nil Lexes.nil
  rw [List.append_nil, ← List.flatMap_def, List.flatMap_singleton'] at whole
  rwa [spelled, String.toList_ofList]

/-- Tokens that are spelled with a space between each two are read back, and of two texts with a
line feed between them each is read as it is alone. -/
theorem tokenize_spelled :
    (∀ ts : List Token, (∀ t ∈ ts, t.IsSpelled) →
      ∃ placed, tokenize (spelled ts) = .ok placed ∧ placed.map Placed.token = ts ++ [.finish]) ∧
    ∀ (first second : String) (one two : List Placed), tokenize first = .ok one →
    tokenize second = .ok two →
      ∃ before both, one.map Placed.token = before ++ [.finish] ∧ .finish ∉ before ∧
        tokenize (first ++ "\n" ++ second) = .ok both ∧
        both.map Placed.token = before ++ .newline :: two.map Placed.token :=
  ⟨fun _ each => lexes_spelled each .start, fun _ _ _ _ read read' => tokenize_lines read read'⟩

/-- Two slashes that make no comment, two signs that make no other one, and a string that holds all
of it. -/
def unmerged : List Token :=
  [.symbol .slash, .symbol .slash, .str "// \"\n", .newline, .symbol .assign, .symbol .eq, .int 0,
    .int 9223372036854775807, .symbol .dot, .name "é_1"]

theorem unmerged_isSpelled : ∀ t ∈ unmerged, t.IsSpelled := by
  decide +kernel

theorem tokenize_spelled_unmerged :
    ((∀ t ∈ unmerged, t.IsSpelled) ∧
      ∃ placed, tokenize (spelled unmerged) = .ok placed ∧
      placed.map Placed.token = unmerged ++ [.finish]) ∧
    ∃ one two before both, tokenize "f // (" = .ok one ∧ tokenize "\"\n\"" = .ok two ∧
      one.map Placed.token = before ++ [.finish] ∧ .finish ∉ before ∧
      tokenize ("f // (" ++ "\n" ++ "\"\n\"") = .ok both ∧
      both.map Placed.token = before ++ .newline :: two.map Placed.token := by
  have first : tokenize "f // (" = .ok [⟨.name "f", ⟨1, 1⟩⟩, ⟨.finish, ⟨1, 7⟩⟩] := by cbv
  have second : tokenize "\"\n\"" = .ok [⟨.str "\n", ⟨1, 1⟩⟩, ⟨.finish, ⟨2, 2⟩⟩] := by cbv
  obtain ⟨before, both, shown, unfinished, read, joined⟩ := tokenize_spelled.2 _ _ _ _ first second
  exact ⟨⟨unmerged_isSpelled, tokenize_spelled.1 unmerged unmerged_isSpelled⟩, _, _, before,
    both, first, second, shown, unfinished, read, joined⟩

end Script

end PeerScript
