import AstXml.Toml.Table
import AstXml.Toml.Text

/-!
TOML texts: keys, values and whole documents. Numbers, dates, booleans and arrays of tables are
refused. `fuel` bounds the nesting and the length of what is read; twice the length of the text is
enough.
-/
namespace AstXml.Toml

def isBareKeyChar (c : Char) : Bool :=
  48 ≤ c.toNat && c.toNat ≤ 57 || 65 ≤ c.toNat && c.toNat ≤ 90
    || 97 ≤ c.toNat && c.toNat ≤ 122 || c = '-' || c = '_'

/-- One key: bare, or a string on one line. -/
def key? : List Char → Option (String × List Char)
  | '"' :: rest => (basic? rest).map fun read => (.ofList read.1, read.2)
  | '\'' :: rest => (literal? rest).map fun read => (.ofList read.1, read.2)
  | text =>
    let bare := text.takeWhile isBareKeyChar
    if bare.isEmpty then none else some (.ofList bare, text.dropWhile isBareKeyChar)

/-- Keys joined by dots, with blanks around each. -/
def dottedKey? : Nat → List Char → Option (List String × List Char)
  | 0, _ => none
  | fuel + 1, text => do
    let (key, rest) ← key? (skipBlanks text)
    match skipBlanks rest with
    | '.' :: rest =>
      let (keys, rest) ← dottedKey? fuel rest
      return (key :: keys, rest)
    | rest => return ([key], rest)

mutual

def value? : Nat → List Char → Option (Item × List Char)
  | 0, _ => none
  | fuel + 1, text =>
    match text with
    | '[' :: rest => do
      let (items, rest) ← items? fuel (skipLines false rest)
      return (.array items, rest)
    | '\x7b' :: rest =>
      match skipBlanks rest with
      | '\x7d' :: rest => return (.table .braces [], rest)
      | rest => do
        let (pairs, rest) ← pairs? fuel rest
        return (.table .braces (← Entries.assignAll pairs []), rest)
    | text => do
      let (s, rest) ← string? text
      return (.text (.ofList s), rest)

/-- The items of an array up to its end; a comma may follow the last one. -/
def items? : Nat → List Char → Option (List Item × List Char)
  | 0, _ => none
  | _ + 1, ']' :: rest => some ([], rest)
  | fuel + 1, text => do
    let (item, rest) ← value? fuel text
    match skipLines false rest with
    | ',' :: rest =>
      let (items, rest) ← items? fuel (skipLines false rest)
      return (item :: items, rest)
    | ']' :: rest => return ([item], rest)
    | _ => none

def pair? : Nat → List Char → Option ((List String × Item) × List Char)
  | 0, _ => none
  | fuel + 1, text => do
    let (path, rest) ← dottedKey? fuel text
    match rest with
    | '=' :: rest =>
      let (item, rest) ← value? fuel (skipBlanks rest)
      return ((path, item), rest)
    | _ => none

/-- The pairs of a table in braces up to its end. -/
def pairs? : Nat → List Char → Option (List (List String × Item) × List Char)
  | 0, _ => none
  | fuel + 1, text => do
    let (pair, rest) ← pair? fuel text
    match skipBlanks rest with
    | ',' :: rest =>
      let (pairs, rest) ← pairs? fuel rest
      return (pair :: pairs, rest)
    | '\x7d' :: rest => return ([pair], rest)
    | _ => none

end

/-- A line of a document that says something. -/
inductive Statement
  | header (path : List String)
  | pair (path : List String) (item : Item)

def statement? (fuel : Nat) : List Char → Option (Statement × List Char)
  | '[' :: rest => do
    let (path, rest) ← dottedKey? fuel rest
    match rest with
    | ']' :: rest => return (.header path, rest)
    | _ => none
  | text => do
    let ((path, item), rest) ← pair? fuel text
    return (.pair path item, rest)

def statements? : Nat → List Char → Option (List Statement)
  | 0, _ => none
  | fuel + 1, text =>
    match skipBlanks text with
    | [] => some []
    | c :: rest =>
      if c = '\n' || c = '\r' || c = '#' then (lineEnd? (c :: rest)).bind (statements? fuel)
      else do
        let (statement, rest) ← statement? fuel (c :: rest)
        return statement :: (← statements? fuel (← lineEnd? rest))

abbrev Pairs := List (List String × Item)

/-- The pairs in front of the first header, and every header with the pairs behind it. -/
def sections : List Statement → Pairs × List (List String × Pairs)
  | [] => ([], [])
  | .pair path item :: rest =>
    let (pairs, tables) := sections rest
    ((path, item) :: pairs, tables)
  | .header path :: rest =>
    let (pairs, tables) := sections rest
    ([], (path, pairs) :: tables)

def parse? (text : String) : Option Entries := do
  let chars := match text.toList with
    | '\ufeff' :: rest => rest
    | chars => chars
  let (pairs, tables) := sections (← statements? (2 * chars.length + 2) chars)
  tables.foldlM (fun root table => Entries.openTable (Entries.assignAll table.2) table.1 root)
    (← Entries.assignAll pairs [])

end AstXml.Toml
