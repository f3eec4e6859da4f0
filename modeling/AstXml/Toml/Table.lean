/-!
TOML tables under construction. How a table came to be decides what may still be added to it: a
key is given once, a header opens a table once, and dotted keys never reach into a table that a
header has opened.
-/
namespace AstXml.Toml

/-- How a table came to be: written in braces, opened by a header, or only named on the way to
another table, by a header or by a dotted key. -/
inductive Origin
  | braces
  | header
  | headerPath
  | dottedKey
  deriving DecidableEq

/-- A value. Numbers, dates and booleans are left out, since no option holds one. -/
inductive Item
  | text (s : String)
  | array (items : List Item)
  | table (origin : Origin) (entries : List (String × Item))

abbrev Entries := List (String × Item)

namespace Entries

def find? (entries : Entries) (key : String) : Option Item :=
  (List.find? (·.1 = key) entries).map (·.2)

def replace (entries : Entries) (key : String) (item : Item) : Entries :=
  entries.map fun entry => if entry.1 = key then (key, item) else entry

/-- Gives a value to a dotted key. The table that it ends in has been made by dotted keys. -/
def assign (value : Item) : List String → Entries → Option Entries
  | [], _ => none
  | [key], entries =>
    match entries.find? key with
    | none => some (entries ++ [(key, value)])
    | some _ => none
  | key :: next :: path, entries =>
    match entries.find? key with
    | none => do
      return entries ++ [(key, .table .dottedKey (← assign value (next :: path) []))]
    | some (.table origin inner) =>
      if origin = .dottedKey || origin = .headerPath && !path.isEmpty then do
        return entries.replace key (.table origin (← assign value (next :: path) inner))
      else none
    | some _ => none

/-- Opens the table of a header and fills it. A table that earlier headers only named on the way
keeps what it holds. -/
def openTable (fill : Entries → Option Entries) : List String → Entries → Option Entries
  | [], _ => none
  | [key], entries =>
    match entries.find? key with
    | none => do return entries ++ [(key, .table .header (← fill []))]
    | some (.table .headerPath inner) => do
      return entries.replace key (.table .header (← fill inner))
    | some _ => none
  | key :: next :: path, entries =>
    match entries.find? key with
    | none => do
      return entries ++ [(key, .table .headerPath (← openTable fill (next :: path) []))]
    | some (.table .braces _) => none
    | some (.table origin inner) => do
      return entries.replace key (.table origin (← openTable fill (next :: path) inner))
    | some _ => none

def assignAll (pairs : List (List String × Item)) (entries : Entries) : Option Entries :=
  pairs.foldlM (fun entries pair => assign pair.2 pair.1 entries) entries

end Entries

end AstXml.Toml
