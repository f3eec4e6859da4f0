import AstXml.Hex

/-!
The four forms of strings in TOML, and the blanks, comments and line ends around values. Every
reader takes a text and answers what it read together with the rest.
-/
namespace AstXml.Toml

/-- Characters that stand for themselves: tabs, and all but control characters. -/
def isPlain (c : Char) : Bool := c = '\t' || 32 ≤ c.toNat && c.toNat ≠ 127

def isBlank (c : Char) : Bool := c = ' ' || c = '\t'

def skipBlanks (text : List Char) : List Char := text.dropWhile isBlank

/-- The rest after a line feed, alone or behind a carriage return. -/
def newline? : List Char → Option (List Char)
  | '\n' :: rest => some rest
  | '\r' :: '\n' :: rest => some rest
  | _ => none

/-- Skips blanks, line ends and comments. -/
def skipLines (inComment : Bool) : List Char → List Char
  | '\r' :: '\n' :: rest => skipLines false rest
  | c :: rest =>
    if c = '\n' then skipLines false rest
    else if inComment then
      if isPlain c then skipLines true rest else c :: rest
    else if isBlank c then skipLines false rest
    else if c = '#' then skipLines true rest
    else c :: rest
  | [] => []

/-- Blanks and a comment up to the end of the line or of the text. -/
def lineEnd? (text : List Char) : Option (List Char) :=
  let rest := match skipBlanks text with
    | '#' :: rest => rest.dropWhile isPlain
    | rest => rest
  if rest.isEmpty then some [] else newline? rest

/-- The character with a code in hexadecimal digits; surrogates are none. -/
def charOfHex? (digits : List Char) : Option Char := do
  let code ← digits.foldlM (fun code c => (hexValue? c).map (16 * code + ·)) 0
  if code < 0xD800 || 0xE000 ≤ code && code < 0x110000 then some (Char.ofNat code) else none

def unescape? : Char → Option Char
  | 'b' => some '\x08'
  | 't' => some '\t'
  | 'n' => some '\n'
  | 'f' => some '\x0c'
  | 'r' => some '\r'
  | '"' => some '"'
  | '\\' => some '\\'
  | _ => none

def prepend (c : Char) (read : List Char × List Char) : List Char × List Char :=
  (c :: read.1, read.2)

/-- A string in double quotes, from behind the first quote. -/
def basic? : List Char → Option (List Char × List Char)
  | [] => none
  | '"' :: rest => some ([], rest)
  | '\\' :: 'u' :: a :: b :: c :: d :: rest => do
    return prepend (← charOfHex? [a, b, c, d]) (← basic? rest)
  | '\\' :: 'U' :: a :: b :: c :: d :: e :: f :: g :: h :: rest => do
    return prepend (← charOfHex? [a, b, c, d, e, f, g, h]) (← basic? rest)
  | '\\' :: c :: rest => do return prepend (← unescape? c) (← basic? rest)
  | c :: rest => if isPlain c then (basic? rest).map (prepend c) else none

def literal? : List Char → Option (List Char × List Char)
  | [] => none
  | '\'' :: rest => some ([], rest)
  | c :: rest => if isPlain c then (literal? rest).map (prepend c) else none

/-- The end of a string in triple quotes: up to two more quotes belong to the string. -/
def closing (quote : Char) : List Char → List Char × List Char
  | a :: b :: rest =>
    if a = quote && b = quote then ([a, b], rest)
    else if a = quote then ([a], b :: rest)
    else ([], a :: b :: rest)
  | [a] => if a = quote then ([a], []) else ([], [a])
  | [] => ([], [])

/-- A backslash at the end of a line skips all blanks and line ends behind it. -/
def endsLine (rest : List Char) : Bool := (newline? (skipBlanks rest)).isSome

/-- A string in triple double quotes; `skipping` is set behind a backslash that ends a line. -/
def multiBasic? (skipping : Bool) : List Char → Option (List Char × List Char)
  | [] => none
  | '"' :: '"' :: '"' :: rest => some (closing '"' rest)
  | '\r' :: '\n' :: rest =>
    if skipping then multiBasic? true rest else (multiBasic? false rest).map (prepend '\n')
  | '\n' :: rest =>
    if skipping then multiBasic? true rest else (multiBasic? false rest).map (prepend '\n')
  | '\\' :: 'u' :: a :: b :: c :: d :: rest => do
    return prepend (← charOfHex? [a, b, c, d]) (← multiBasic? false rest)
  | '\\' :: 'U' :: a :: b :: c :: d :: e :: f :: g :: h :: rest => do
    return prepend (← charOfHex? [a, b, c, d, e, f, g, h]) (← multiBasic? false rest)
  | '\\' :: c :: rest =>
    if endsLine (c :: rest) then multiBasic? true (c :: rest)
    else do return prepend (← unescape? c) (← multiBasic? false rest)
  | c :: rest =>
    if skipping && isBlank c then multiBasic? true rest
    else if isPlain c then (multiBasic? false rest).map (prepend c)
    else none

def multiLiteral? : List Char → Option (List Char × List Char)
  | [] => none
  | '\'' :: '\'' :: '\'' :: rest => some (closing '\'' rest)
  | '\r' :: '\n' :: rest => (multiLiteral? rest).map (prepend '\n')
  | c :: rest =>
    if c = '\n' || isPlain c then (multiLiteral? rest).map (prepend c) else none

/-- A line end right behind the opening quotes does not count. -/
def dropFirstNewline (text : List Char) : List Char := (newline? text).getD text

def string? : List Char → Option (List Char × List Char)
  | '"' :: '"' :: '"' :: rest => multiBasic? false (dropFirstNewline rest)
  | '\'' :: '\'' :: '\'' :: rest => multiLiteral? (dropFirstNewline rest)
  | '"' :: rest => basic? rest
  | '\'' :: rest => literal? rest
  | _ => none

end AstXml.Toml
