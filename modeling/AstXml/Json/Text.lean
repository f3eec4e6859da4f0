import AstXml.Hex

/-!
Texts inside JSON texts. A `\u` escape may write half of a surrogate pair; two halves in a row are
one character, and a half alone stands for no text.
-/
namespace AstXml.Json

/-- A character, or half of a surrogate pair. -/
inductive Piece
  | char (c : Char)
  | half (code : Nat)
  deriving DecidableEq

abbrev Text := List Piece

/-- A code unit written by a `\u` escape. -/
def Piece.ofUnit (code : Nat) : Piece :=
  if 0xD800 ≤ code && code < 0xE000 then .half code else .char (Char.ofNat code)

/-- The character whose halves are given, first half first. -/
def joinHalves? (high low : Nat) : Option Char :=
  if 0xD800 ≤ high && high < 0xDC00 && 0xDC00 ≤ low && low < 0xE000 then
    some (Char.ofNat (0x10000 + (high - 0xD800) * 0x400 + (low - 0xDC00)))
  else none

namespace Text

def ofString (s : String) : Text := s.toList.map .char

/-- The characters of a text, if no half stands alone. -/
def chars? : Text → Option (List Char)
  | [] => some []
  | .char c :: rest => (chars? rest).map (c :: ·)
  | .half high :: .half low :: rest =>
    match joinHalves? high low with
    | some c => (chars? rest).map (c :: ·)
    | none => none
  | .half _ :: _ => none

def value? (t : Text) : Option String := (chars? t).map .ofList

theorem chars?_map_char (cs : List Char) : chars? (cs.map .char) = some cs := by
  induction cs with
  | nil => rfl
  | cons c rest ih => simp [chars?, ih]

theorem value?_ofString (s : String) : (ofString s).value? = some s := by
  simp [value?, ofString, chars?_map_char]

end Text

def unitEscape (code : Nat) : List Char :=
  ['\\', 'u', hexDigit (code / 4096 % 16), hexDigit (code / 256 % 16), hexDigit (code / 16 % 16),
    hexDigit (code % 16)]

/-- Quotes, backslashes and control characters are escaped, all else is written as it is. -/
def escapeChar : Char → List Char
  | '"' => ['\\', '"']
  | '\\' => ['\\', '\\']
  | '\x08' => ['\\', 'b']
  | '\x0c' => ['\\', 'f']
  | '\n' => ['\\', 'n']
  | '\r' => ['\\', 'r']
  | '\t' => ['\\', 't']
  | c => if c.toNat < 32 then unitEscape c.toNat else [c]

def Piece.spelling : Piece → List Char
  | .char c => escapeChar c
  | .half code => unitEscape code

def unescape? : Char → Option Char
  | '"' => some '"'
  | '\\' => some '\\'
  | '/' => some '/'
  | 'b' => some '\x08'
  | 'f' => some '\x0c'
  | 'n' => some '\n'
  | 'r' => some '\r'
  | 't' => some '\t'
  | _ => none

end AstXml.Json
