import Mathlib.Data.List.Induction
import AstXml.Json.Tree
import AstXml.Proofs.Json.Numerals

/-!
The texts that spell a JSON value. Blanks may stand around any token, numbers may be written in
any form, and the characters of a text may be written as escapes.
-/
namespace AstXml.Json

/-- The number that hexadecimal digits stand for. -/
def hexCode? (digits : List Char) : Option Nat :=
  digits.foldlM (fun code c => (hexValue? c).map (16 * code + ·)) 0

/-- What may be written for a character, or for half of a pair, between quotes. -/
inductive Piece.Spelled : Piece → List Char → Prop
  | plain {c : Char} (quote : c ≠ '"') (backslash : c ≠ '\\') (printed : 32 ≤ c.toNat) :
    Spelled (.char c) [c]
  | escape {mark c : Char} (known : unescape? mark = some c) : Spelled (.char c) ['\\', mark]
  | unit {digits : List Char} {code : Nat} (four : digits.length = 4)
    (valued : hexCode? digits = some code) : Spelled (.ofUnit code) ('\\' :: 'u' :: digits)

inductive Text.Spelled : Text → List Char → Prop
  | nil : Spelled [] []
  | concat {t : Text} {cs part : List Char} {piece : Piece} (before : Spelled t cs)
    (spelled : piece.Spelled part) : Spelled (t ++ [piece]) (cs ++ part)

inductive Token.Spelled : Token → List Char → Prop
  | mark {c : Char} {token : Token} (known : Token.ofMark? c = some token) : Spelled token [c]
  | word {letters : List Char} {token : Token} (known : Token.ofWord? letters = some token) :
    Spelled token letters
  | number {chars : List Char} {n : Numeral} (known : Numeral.ofChars? chars = some n) :
    Spelled (.number n) chars
  | text {t : Text} {cs : List Char} (spelled : t.Spelled cs) :
    Spelled (.text t) ('"' :: (cs ++ ['"']))

/-- The characters are those of the tokens, with blanks between them. -/
inductive TokenText : List Token → List Char → Prop
  | nil : TokenText [] []
  | blank {tokens : List Token} {cs : List Char} {c : Char} (before : TokenText tokens cs)
    (blank : isBlank c = true) : TokenText tokens (cs ++ [c])
  | token {tokens : List Token} {cs part : List Char} {token : Token} (before : TokenText tokens cs)
    (spelled : token.Spelled part) : TokenText (tokens ++ [token]) (cs ++ part)

namespace TokenText

variable {tokens tokens' : List Token} {cs cs' : List Char}

theorem append (first : TokenText tokens cs) (second : TokenText tokens' cs') :
    TokenText (tokens ++ tokens') (cs ++ cs') := by
  induction second with
  | nil => simpa using first
  | blank _ blank ih => simpa using ih.blank blank
  | token _ spelled ih => simpa using ih.token spelled

theorem blanks {blanks : List Char} (blank : ∀ c ∈ blanks, isBlank c = true) :
    TokenText [] blanks := by
  induction blanks using List.reverseRecOn with
  | nil => exact .nil
  | append_singleton rest c ih =>
    obtain ⟨before, last⟩ := List.forall_mem_append.mp blank
    have last := List.forall_mem_singleton.mp last
    exact (ih before).blank last

end TokenText

/-- The text is a JSON text of the value. -/
def Tree.Written (tree : Tree) (text : String) : Prop := TokenText tree.tokens text.toList

/-! What is printed for a token is one of its spellings. -/

theorem hexValue?_digit {n : Nat} (small : n < 16) : hexValue? (hexDigit n) = some n :=
  hexValue?_hexDigit ⟨n, small⟩

namespace Piece

theorem spelled_unit {code : Nat} (small : code < 65536) :
    (ofUnit code).Spelled (unitEscape code) := by
  have digit := fun k => hexValue?_digit (Nat.mod_lt (code / k) (by decide : 0 < 16))
  have last := hexValue?_digit (Nat.mod_lt code (by decide : 0 < 16))
  have code_eq : 16 * (16 * (16 * (code / 4096 % 16) + code / 256 % 16) + code / 16 % 16) +
      code % 16 = code := by omega
  apply Spelled.unit rfl
  simp [hexCode?, digit, last, code_eq]

theorem spelled_char (c : Char) : (char c).Spelled (escapeChar c) := by
  unfold escapeChar
  split
  · exact .escape rfl
  · exact .escape rfl
  · exact .escape rfl
  · exact .escape rfl
  · exact .escape rfl
  · exact .escape rfl
  · exact .escape rfl
  · rename_i quote backslash _ _ _ _ _
    split
    · have unit : ofUnit c.toNat = .char c := by
        have low : ¬ 0xD800 ≤ c.toNat := by omega
        simp [ofUnit, low]
      exact unit ▸ spelled_unit (by omega)
    · exact .plain quote backslash (by omega)

end Piece

theorem Text.spelled_chars (cs : List Char) :
    Text.Spelled (cs.map .char) ((cs.map Piece.char).flatMap Piece.spelling) := by
  induction cs using List.reverseRecOn with
  | nil => exact .nil
  | append_singleton rest c ih =>
    have last := ih.concat (Piece.spelled_char c)
    simpa [Piece.spelling] using last

namespace Token

/-- A token whose text stands for a string and whose number is a natural one. -/
inductive Plain : Token → Prop
  | openArray : Plain .openArray
  | closeArray : Plain .closeArray
  | openObject : Plain .openObject
  | closeObject : Plain .closeObject
  | comma : Plain .comma
  | colon : Plain .colon
  | null : Plain .null
  | bool (b) : Plain (.bool b)
  | number (n) : Plain (.number (.ofNat n))
  | text (s) : Plain (.text (.ofString s))

theorem Plain.spelled {token : Token} (plain : token.Plain) : token.Spelled token.spelling := by
  cases plain with
  | null => exact .word rfl
  | bool b => cases b <;> exact .word rfl
  | number n => exact .number (Numeral.ofChars?_ofNat n)
  | text s => exact .text (Text.spelled_chars s.toList)
  | _ => exact .mark rfl

end Token

theorem TokenText.of_plain {tokens : List Token} (plain : ∀ token ∈ tokens, token.Plain) :
    TokenText tokens (tokens.flatMap Token.spelling) := by
  induction tokens using List.reverseRecOn with
  | nil => exact .nil
  | append_singleton rest token ih =>
    obtain ⟨before, last⟩ := List.forall_mem_append.mp plain
    have spelled := (List.forall_mem_singleton.mp last).spelled
    simpa using (ih before).token spelled

end AstXml.Json
