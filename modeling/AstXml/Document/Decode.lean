import AstXml.Document
import AstXml.Json.Fields

/-!
Reading documents from JSON values. Each structure has its keys, and is made from the fields under
them. `level` is the number of arrays and objects around a value: the
values of foreign keys in a declaration or a type are read, so they must not be too deep. Elsewhere
they are skipped.
-/
namespace AstXml

open Json

def DeclId.ofJson? (tree : Tree) : Option DeclId := (word? tree).map .mk
def TypeId.ofJson? (tree : Tree) : Option TypeId := (word? tree).map .mk
def FileId.ofJson? (tree : Tree) : Option FileId := (word? tree).map .mk

def QualType.keys : List String := ["type", "const", "volatile", "restrict"]

def QualType.ofFields? : List (Option Tree) → Option QualType
  | [type, const, volatile, restrict] => do
    return ⟨← required TypeId.ofJson? type, ← withDefault false flag? const,
      ← withDefault false flag? volatile, ← withDefault false flag? restrict⟩
  | _ => none

/-- A qualified type whose foreign keys have acceptable values. -/
def QualType.read? (foreign : Tree → Bool) (tree : Tree) : Option QualType :=
  (fields? QualType.keys foreign tree).bind QualType.ofFields?

/-- A qualified type that is a text of its own. -/
def QualType.ofJson? (tree : Tree) : Option QualType := QualType.read? skipped tree

def Access.ofWord? : String → Option Access
  | "none" => some .unspecified
  | "public" => some .publicAccess
  | "protected" => some .protectedAccess
  | "private" => some .privateAccess
  | _ => none

def Access.ofJson? (tree : Tree) : Option Access := (keyword? tree).bind ofWord?

def ClassKey.ofWord? : String → Option ClassKey
  | "class" => some .classKey
  | "struct" => some .structKey
  | "union" => some .unionKey
  | _ => none

/-- A class key that is a text of its own. -/
def ClassKey.ofJson? (tree : Tree) : Option ClassKey := (keyword? tree).bind ofWord?

/-- A class key inside a declaration kind. -/
def ClassKey.read? (tree : Tree) : Option ClassKey := (looseKeyword? tree).bind ofWord?

/-- The kinds of declarations and their own keys. -/
def DeclKind.keys? : String → Option (List String)
  | "translation_unit" | "namespace" | "access_spec" => some []
  | "typedef" => some ["underlying"]
  | "record" => some ["tag", "is_definition", "injected_class_name"]
  | "field" | "variable" => some ["type"]
  | "other" => some ["kind_name"]
  | _ => none

/-- A kind from the fields under its own keys. -/
def DeclKind.ofFields? (foreign : Tree → Bool) : String → List (Option Tree) → Option DeclKind
  | "translation_unit", [] => some .translationUnit
  | "namespace", [] => some .nameSpace
  | "access_spec", [] => some .accessSpec
  | "typedef", [underlying] => (required (QualType.read? foreign) underlying).map .typedef
  | "record", [key, isDefinition, isInjectedName] => do
    return .record (← required ClassKey.read? key) (← withDefault false flag? isDefinition)
      (← withDefault false flag? isInjectedName)
  | "field", [type] => (required (QualType.read? foreign) type).map .field
  | "variable", [type] => (required (QualType.read? foreign) type).map .variable
  | "other", [name] => (required string? name).map .other
  | _, _ => none

/-- The word under `kind`, or at the front of an array. -/
def kindWord? : Tree → Option String
  | .object members => (field? "kind" members).bind (required string?)
  | .array (kind :: _) => string? kind
  | _ => none

/-- A declaration kind that is a text of its own. -/
def DeclKind.ofJson? (tree : Tree) : Option DeclKind := do
  let kind ← kindWord? tree
  match ← fields? ("kind" :: (← DeclKind.keys? kind)) (Tree.isReadable 1) tree with
  | _ :: own => DeclKind.ofFields? (Tree.isReadable 2) kind own
  | [] => none

def TypeKind.keys? : String → Option (List String)
  | "builtin" => some ["name"]
  | "pointer" => some ["pointee"]
  | "record" | "typedef" => some ["decl"]
  | "other" => some ["type_class"]
  | _ => none

def TypeKind.ofFields? (foreign : Tree → Bool) : String → List (Option Tree) → Option TypeKind
  | "builtin", [name] => (required string? name).map .builtin
  | "pointer", [pointee] => (required (QualType.read? foreign) pointee).map .pointer
  | "record", [decl] => (required DeclId.ofJson? decl).map .record
  | "typedef", [decl] => (required DeclId.ofJson? decl).map .typedef
  | "other", [name] => (required string? name).map .other
  | _, _ => none

def TypeKind.ofJson? (level : Nat) (tree : Tree) : Option TypeKind := do
  let kind ← kindWord? tree
  match ← fields? ("kind" :: (← TypeKind.keys? kind)) (Tree.isReadable (level + 1)) tree with
  | _ :: own => TypeKind.ofFields? (Tree.isReadable (level + 2)) kind own
  | [] => none

def Position.keys : List String := ["file", "line"]

def Position.ofFields? : List (Option Tree) → Option Position
  | [file, line] => do return ⟨← required FileId.ofJson? file, ← required word? line⟩
  | _ => none

def Position.ofJson? (tree : Tree) : Option Position :=
  (fields? Position.keys skipped tree).bind Position.ofFields?

def Location.keys : List String := ["file", "line", "expansion"]

def Location.ofFields? : List (Option Tree) → Option Location
  | [file, line, expansion] => do
    return ⟨⟨← required FileId.ofJson? file, ← required word? line⟩,
      ← nullable Position.ofJson? expansion⟩
  | _ => none

def Location.ofJson? (tree : Tree) : Option Location :=
  (fields? Location.keys skipped tree).bind Location.ofFields?

def DeclKind.words : List String :=
  ["translation_unit", "namespace", "typedef", "record", "access_spec", "field", "variable",
    "other"]

/-- In a declaration the kind may be a word or its number. -/
def DeclKind.wordOrNumber? : Tree → Option String
  | .number n => n.natural?.bind (DeclKind.words[·]?)
  | tree => string? tree

/-- The kind of a declaration; a declaration is never an array. -/
def Declaration.kindWord? : Tree → Option String
  | .object members => (field? "kind" members).bind (required DeclKind.wordOrNumber?)
  | _ => none

/-- The keys that declarations of every kind have. -/
def Declaration.keys : List String :=
  ["kind", "name", "parent", "previous", "access", "location", "children"]

/-- A declaration from the fields under the common keys and those of its kind. -/
def Declaration.ofFields? (level : Nat) (kind : String) : List (Option Tree) → Option Declaration
  | _ :: name :: parent :: previous :: access :: location :: children :: own => do
    return {
      kind := ← DeclKind.ofFields? (Tree.isReadable (level + 2)) kind own
      name := ← withDefault "" string? name
      parent := ← nullable DeclId.ofJson? parent
      previous := ← nullable DeclId.ofJson? previous
      access := ← withDefault .unspecified Access.ofJson? access
      location := ← nullable Location.ofJson? location
      children := ← withDefault [] (list? DeclId.ofJson?) children }
  | _ => none

def Declaration.ofJson? (level : Nat) (tree : Tree) : Option Declaration := do
  let kind ← Declaration.kindWord? tree
  let keys := Declaration.keys ++ (← DeclKind.keys? kind)
  Declaration.ofFields? level kind (← fields? keys (Tree.isReadable (level + 1)) tree)

def Document.keys : List String := ["files", "types", "decls"]

/-- A document is the outermost value of its text; types and declarations lie inside two more. -/
def Document.ofFields? : List (Option Tree) → Option Document
  | [files, types, decls] => do
    return ⟨(← withDefault [] (list? string?) files).toArray,
      (← withDefault [] (list? (TypeKind.ofJson? 2)) types).toArray,
      (← withDefault [] (list? (Declaration.ofJson? 2)) decls).toArray⟩
  | _ => none

def Document.ofJson? (tree : Tree) : Option Document :=
  (fields? Document.keys skipped tree).bind Document.ofFields?

def Document.parse? (text : String) : Option Document :=
  (Tree.parse? text).bind Document.ofJson?

end AstXml
