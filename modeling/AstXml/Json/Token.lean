import AstXml.Json.Numeral
import AstXml.Json.Text

/-!
The tokens of a JSON text. The reader goes over the text one character at a time; runs of letters
and of numeral characters are collected whole before they are judged.
-/
namespace AstXml.Json

inductive Token
  | openArray
  | closeArray
  | openObject
  | closeObject
  | comma
  | colon
  | null
  | bool (b : Bool)
  | number (n : Numeral)
  | text (t : Text)
  deriving DecidableEq

namespace Token

def spelling : Token → List Char
  | .openArray => ['[']
  | .closeArray => [']']
  | .openObject => ['\x7b']
  | .closeObject => ['\x7d']
  | .comma => [',']
  | .colon => [':']
  | .null => "null".toList
  | .bool true => "true".toList
  | .bool false => "false".toList
  | .number n => n.chars
  | .text t => '"' :: (t.flatMap Piece.spelling ++ ['"'])

def ofMark? : Char → Option Token
  | '[' => some .openArray
  | ']' => some .closeArray
  | '\x7b' => some .openObject
  | '\x7d' => some .closeObject
  | ',' => some .comma
  | ':' => some .colon
  | _ => none

def ofWord? (letters : List Char) : Option Token :=
  if letters = "null".toList then some .null
  else if letters = "true".toList then some (.bool true)
  else if letters = "false".toList then some (.bool false)
  else none

end Token

def isLetter (c : Char) : Bool := 97 ≤ c.toNat && c.toNat ≤ 122

def isBlank (c : Char) : Bool := c = ' ' || c = '\n' || c = '\t' || c = '\r'

/-- Digits and signs may begin a numeral; a point and the mark of an exponent may follow. -/
def startsNumeral (c : Char) : Bool := 48 ≤ c.toNat && c.toNat ≤ 57 || c = '-' || c = '+'

def continuesNumeral (c : Char) : Bool := startsNumeral c || c = '.' || c = 'e' || c = 'E'

/-- Where the reader stands inside a token; what has been read of it is in reverse. -/
inductive Mode
  | between
  | word (letters : List Char)
  | numeral (chars : List Char)
  | text (pieces : List Piece)
  | escape (pieces : List Piece)
  | unit (pieces : List Piece) (code missing : Nat)

/-- The state of the reader; the tokens read are in reverse. -/
structure Lexer where
  mode : Mode
  tokens : List Token

namespace Lexer

def start : Lexer := ⟨.between, []⟩

/-- Takes the first character of a token, or a blank. -/
def begin (tokens : List Token) (c : Char) : Option Lexer :=
  if isBlank c then some ⟨.between, tokens⟩
  else if c = '"' then some ⟨.text [], tokens⟩
  else if isLetter c then some ⟨.word [c], tokens⟩
  else if startsNumeral c then some ⟨.numeral [c], tokens⟩
  else (Token.ofMark? c).map fun token => ⟨.between, token :: tokens⟩

def step (lexer : Lexer) (c : Char) : Option Lexer :=
  let tokens := lexer.tokens
  match lexer.mode with
  | .between => begin tokens c
  | .word letters =>
    if isLetter c then some ⟨.word (c :: letters), tokens⟩
    else (Token.ofWord? letters.reverse).bind fun token => begin (token :: tokens) c
  | .numeral chars =>
    if continuesNumeral c then some ⟨.numeral (c :: chars), tokens⟩
    else (Numeral.ofChars? chars.reverse).bind fun n => begin (.number n :: tokens) c
  | .text pieces =>
    if c = '"' then some ⟨.between, .text pieces.reverse :: tokens⟩
    else if c = '\\' then some ⟨.escape pieces, tokens⟩
    else if c.toNat < 32 then none
    else some ⟨.text (.char c :: pieces), tokens⟩
  | .escape pieces =>
    if c = 'u' then some ⟨.unit pieces 0 4, tokens⟩
    else (unescape? c).map fun c => ⟨.text (.char c :: pieces), tokens⟩
  | .unit pieces code missing =>
    (hexValue? c).map fun digit =>
      let code := 16 * code + digit
      if missing ≤ 1 then ⟨.text (.ofUnit code :: pieces), tokens⟩
      else ⟨.unit pieces code (missing - 1), tokens⟩

/-- The tokens in order, unless the text ends inside a quoted one. -/
def finish (lexer : Lexer) : Option (List Token) :=
  match lexer.mode with
  | .between => some lexer.tokens.reverse
  | .word letters =>
    (Token.ofWord? letters.reverse).map fun token => (token :: lexer.tokens).reverse
  | .numeral chars =>
    (Numeral.ofChars? chars.reverse).map fun n => (.number n :: lexer.tokens).reverse
  | _ => none

end Lexer

def tokens? (text : List Char) : Option (List Token) :=
  (text.foldlM Lexer.step .start).bind Lexer.finish

end AstXml.Json
