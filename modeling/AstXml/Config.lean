import AstXml.Options
import AstXml.StartName
import AstXml.Toml.Reader

/-!
Configuration texts, and how the command line overrides them.
-/
namespace AstXml

structure Config where
  start : List String
  qualifiers : QualifierMode
  deriving DecidableEq

namespace Config

def default : Config := ⟨[], .suffix⟩

def modeOfWord? : String → Option QualifierMode
  | "suffix" => some .suffix
  | "element" => some .element
  | _ => none

/-- The value that stands under the word of a mode when the mode is written as a table. -/
def isEmptyItem : Toml.Item → Bool
  | .table _ entries => entries.isEmpty
  | .array items => items.isEmpty
  | .text _ => false

/-- A mode is a word, or a table whose only key is the word. -/
def modeOfItem? : Toml.Item → Option QualifierMode
  | .text word => modeOfWord? word
  | .table _ [(word, item)] => if isEmptyItem item then modeOfWord? word else none
  | _ => none

def textOfItem? : Toml.Item → Option String
  | .text s => some s
  | _ => none

def textsOfItem? : Toml.Item → Option (List String)
  | .array items => items.mapM textOfItem?
  | _ => none

/-- The options of a root table, which has no other keys. -/
def ofEntries? (entries : Toml.Entries) : Option Config := do
  guard (entries.all fun entry => entry.1 = "start" || entry.1 = "cv_qualified")
  let start ← match entries.find? "start" with
    | some item => textsOfItem? item
    | none => some []
  let qualifiers ← match entries.find? "cv_qualified" with
    | some item => modeOfItem? item
    | none => some .suffix
  return ⟨start, qualifiers⟩

def parse? (text : String) : Option Config := (Toml.parse? text).bind ofEntries?

/-- The options of a dump: start names given on the command line replace the configured ones, even
when they are blank, and its flag asks for elements in any case. -/
def options (config : Config) (start : List String) (elements : Bool) : Options :=
  ⟨StartName.splitAll (if start.isEmpty then config.start else start),
    if elements then .element else config.qualifiers⟩

end Config

end AstXml
