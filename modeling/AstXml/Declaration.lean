import AstXml.Qualifiers

/-!
The vocabulary of a syntax tree: what a declaration and a type can be, and where a declaration
stands in its source.
-/
namespace AstXml

inductive Access
  | unspecified
  | publicAccess
  | protectedAccess
  | privateAccess
  deriving DecidableEq

/-- The word shown for a class member; unspecified access reads as public. -/
def Access.word : Access → String
  | .unspecified | .publicAccess => "public"
  | .protectedAccess => "protected"
  | .privateAccess => "private"

inductive ClassKey
  | classKey
  | structKey
  | unionKey
  deriving DecidableEq

def ClassKey.element : ClassKey → String
  | .classKey => "Class"
  | .structKey => "Struct"
  | .unionKey => "Union"

/-- What a declaration declares. A record carries its body where `isDefinition` holds; the
`isInjectedName` of a record is its own name as seen from inside its scope. -/
inductive DeclKind
  | translationUnit
  | nameSpace
  | typedef (underlying : QualType)
  | record (key : ClassKey) (isDefinition isInjectedName : Bool)
  | accessSpec
  | field (type : QualType)
  | variable (type : QualType)
  | other (name : String)
  deriving DecidableEq

namespace DeclKind

def name : DeclKind → String
  | .translationUnit => "TranslationUnit"
  | .nameSpace => "Namespace"
  | .typedef _ => "Typedef"
  | .record .. => "CXXRecord"
  | .accessSpec => "AccessSpec"
  | .field _ => "Field"
  | .variable _ => "Var"
  | .other name => name

/-- Only these kinds own children. -/
def isContainer : DeclKind → Bool
  | .translationUnit | .nameSpace | .record .. => true
  | _ => false

def isRecord : DeclKind → Bool
  | .record .. => true
  | _ => false

def isBody : DeclKind → Bool
  | .record _ isDefinition _ => isDefinition
  | _ => false

/-- Injected names and access markers are children that no member list shows. -/
def isMember : DeclKind → Bool
  | .record _ _ isInjectedName => !isInjectedName
  | .accessSpec => false
  | _ => true

def type? : DeclKind → Option QualType
  | .typedef type | .field type | .variable type => some type
  | _ => none

end DeclKind

inductive TypeKind
  | builtin (name : String)
  | pointer (pointee : QualType)
  | record (decl : DeclId)
  | typedef (decl : DeclId)
  | other (name : String)
  deriving DecidableEq

namespace TypeKind

def name : TypeKind → String
  | .builtin _ => "Builtin"
  | .pointer _ => "Pointer"
  | .record _ => "Record"
  | .typedef _ => "Typedef"
  | .other name => name

/-- The declaration that a type merely names. -/
def decl? : TypeKind → Option DeclId
  | .record decl | .typedef decl => some decl
  | _ => none

end TypeKind

structure Position where
  file : FileId
  line : UInt32
  deriving DecidableEq

/-- Where a declaration was written, and where the macro that produced it was expanded. -/
structure Location where
  written : Position
  expansion : Option Position
  deriving DecidableEq

/-- The line a declaration is shown at: an expansion stands before the macro's own text. -/
def Location.shown (l : Location) : Position := l.expansion.getD l.written

/-- One entry of the declaration table. `previous` is an earlier declaration of the same entity. -/
structure Declaration where
  kind : DeclKind
  name : String
  parent : Option DeclId
  previous : Option DeclId
  access : Access
  location : Option Location
  children : List DeclId
  deriving DecidableEq

def Declaration.bare (kind : DeclKind) (name : String) (parent : Option DeclId) : Declaration :=
  ⟨kind, name, parent, none, .unspecified, none, []⟩

end AstXml
