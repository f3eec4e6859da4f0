import AstXml.Declaration
import AstXml.Entity
import AstXml.Xml

/-!
The elements of a document. An attribute is described once for every way of naming what it refers
to: by entity while an element is drafted, by number when it is written.
-/
namespace AstXml

inductive Tag
  | nameSpace
  | record (key : ClassKey)
  | typedef
  | field
  | variable
  | fundamental
  | pointer
  | unimplemented
  deriving DecidableEq

def Tag.text : Tag → String
  | .nameSpace => "Namespace"
  | .record key => key.element
  | .typedef => "Typedef"
  | .field => "Field"
  | .variable => "Variable"
  | .fundamental => "FundamentalType"
  | .pointer => "PointerType"
  | .unimplemented => "Unimplemented"

/-- An attribute that names nodes by `ν` and source files by `φ`. -/
inductive Attribute (ν φ : Type)
  | name (text : String)
  | kind (text : String)
  | typeClass (text : String)
  | type (node : ν) (quals : Qualifiers)
  | context (node : ν)
  | access (access : Access)
  | location (file : φ) (line : UInt32)
  | members (nodes : List ν)
  | incomplete
  deriving DecidableEq

/-- The element of a node. It keeps what the text does not show: the entity it stands for, and
whether it is the whole element or a stub. -/
structure NodeElement where
  entity : Entity
  complete : Bool
  number : Nat
  tag : Tag
  attributes : List (Attribute Nat Nat)
  deriving DecidableEq

/-- One line of a document: a node, the qualified form of a node, or a source file. -/
inductive Element
  | node (element : NodeElement)
  | qualified (base : Nat) (quals : Qualifiers)
  | file (number : Nat) (name : String)
  deriving DecidableEq

def nodeId (number : Nat) : String := "_" ++ toString number

def fileId (number : Nat) : String := "f" ++ toString number

/-- A reference to a type: its number and the letters of its qualifiers. -/
def typeReference (number : Nat) (quals : Qualifiers) : String := nodeId number ++ quals.suffix

def Attribute.text : Attribute Nat Nat → String
  | .name text => Xml.textAttribute "name" text
  | .kind text => Xml.textAttribute "kind" text
  | .typeClass text => Xml.textAttribute "type_class" text
  | .type node quals => Xml.plainAttribute "type" (typeReference node quals)
  | .context node => Xml.plainAttribute "context" (nodeId node)
  | .access a => Xml.plainAttribute "access" a.word
  | .location file line =>
    Xml.plainAttribute "location" (fileId file ++ ":" ++ toString line.toNat)
      ++ Xml.plainAttribute "file" (fileId file) ++ Xml.plainAttribute "line" (toString line.toNat)
  | .members nodes => Xml.listAttribute "members" (nodes.map nodeId)
  | .incomplete => Xml.plainAttribute "incomplete" "1"

def Qualifiers.texts (quals : Qualifiers) : List String :=
  (if quals.const then [Xml.plainAttribute "const" "1"] else [])
    ++ (if quals.volatile then [Xml.plainAttribute "volatile" "1"] else [])
    ++ (if quals.restrict then [Xml.plainAttribute "restrict" "1"] else [])

namespace Element

/-- The texts written between the tag and the end of an element. -/
def attributeTexts : Element → List String
  | .node element =>
    Xml.plainAttribute "id" (nodeId element.number) :: element.attributes.map (·.text)
  | .qualified base quals =>
    Xml.plainAttribute "id" (typeReference base quals)
      :: Xml.plainAttribute "type" (nodeId base) :: quals.texts
  | .file number name =>
    [Xml.plainAttribute "id" (fileId number), Xml.textAttribute "name" name]

def tagText : Element → String
  | .node element => element.tag.text
  | .qualified .. => "CvQualifiedType"
  | .file .. => "File"

def pieces (element : Element) : List String :=
  Xml.openElement element.tagText :: (element.attributeTexts ++ [Xml.closeElement])

end Element

end AstXml
