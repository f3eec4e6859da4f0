import AstXml.Document
import AstXml.Json.Fields

/-!
The JSON form of a document. Fields come in a fixed order; some are left out when they hold their
default.
-/
namespace AstXml

open Json (Tree ofFields ofWord ofString)

def DeclId.toJson (d : DeclId) : Tree := ofWord d.number
def TypeId.toJson (t : TypeId) : Tree := ofWord t.number
def FileId.toJson (f : FileId) : Tree := ofWord f.number

/-- A flag that is written only when set. -/
def flagField (key : String) (b : Bool) : List (String × Tree) :=
  if b then [(key, .bool true)] else []

/-- A field that is written only when present. -/
def optionField {α : Type} (key : String) (toJson : α → Tree) (value : Option α) :
    List (String × Tree) :=
  value.toList.map fun value => (key, toJson value)

def QualType.toJson (t : QualType) : Tree :=
  ofFields (("type", t.type.toJson) :: (flagField "const" t.quals.const
    ++ flagField "volatile" t.quals.volatile ++ flagField "restrict" t.quals.restrict))

def Access.json : Access → String
  | .unspecified => "none"
  | .publicAccess => "public"
  | .protectedAccess => "protected"
  | .privateAccess => "private"

def ClassKey.json : ClassKey → String
  | .classKey => "class"
  | .structKey => "struct"
  | .unionKey => "union"

/-- The fields of a kind; `kind` is the first. -/
def DeclKind.fields : DeclKind → List (String × Tree)
  | .translationUnit => [("kind", ofString "translation_unit")]
  | .nameSpace => [("kind", ofString "namespace")]
  | .typedef underlying => [("kind", ofString "typedef"), ("underlying", underlying.toJson)]
  | .record key isDefinition isInjectedName =>
    [("kind", ofString "record"), ("tag", ofString key.json), ("is_definition", .bool isDefinition),
      ("injected_class_name", .bool isInjectedName)]
  | .accessSpec => [("kind", ofString "access_spec")]
  | .field type => [("kind", ofString "field"), ("type", type.toJson)]
  | .variable type => [("kind", ofString "variable"), ("type", type.toJson)]
  | .other name => [("kind", ofString "other"), ("kind_name", ofString name)]

def TypeKind.fields : TypeKind → List (String × Tree)
  | .builtin name => [("kind", ofString "builtin"), ("name", ofString name)]
  | .pointer pointee => [("kind", ofString "pointer"), ("pointee", pointee.toJson)]
  | .record decl => [("kind", ofString "record"), ("decl", decl.toJson)]
  | .typedef decl => [("kind", ofString "typedef"), ("decl", decl.toJson)]
  | .other name => [("kind", ofString "other"), ("type_class", ofString name)]

def Position.fields (p : Position) : List (String × Tree) :=
  [("file", p.file.toJson), ("line", ofWord p.line)]

def Location.toJson (l : Location) : Tree :=
  ofFields (l.written.fields
    ++ optionField "expansion" (fun position => ofFields position.fields) l.expansion)

def Declaration.toJson (d : Declaration) : Tree :=
  ofFields (d.kind.fields
    ++ (if d.name.isEmpty then [] else [("name", ofString d.name)])
    ++ optionField "parent" DeclId.toJson d.parent
    ++ optionField "previous" DeclId.toJson d.previous
    ++ [("access", ofString d.access.json)]
    ++ optionField "location" Location.toJson d.location
    ++ (if d.children.isEmpty then []
        else [("children", .array (d.children.map DeclId.toJson))]))

def Document.toJson (d : Document) : Tree :=
  ofFields [("files", .array (d.files.toList.map ofString)),
    ("types", .array (d.types.toList.map fun type => ofFields type.fields)),
    ("decls", .array (d.decls.toList.map Declaration.toJson))]

def Document.print (d : Document) : String := d.toJson.print

end AstXml
