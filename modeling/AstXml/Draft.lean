import AstXml.Element
import AstXml.Snapshot

/-!
What the element of an entity says, before any number is known. References are by entity: a
declaration by its canonical one, and a type by the declaration it names if there is one, else
without its qualifiers.
-/
namespace AstXml

/-- A reference to an entity, and whether it asks for the whole element. -/
structure Mention where
  entity : Entity
  complete : Bool
  deriving DecidableEq

abbrev DraftAttribute := Attribute Mention FileId

structure Draft where
  tag : Tag
  attributes : List DraftAttribute
  deriving DecidableEq

namespace Snapshot

variable (s : Snapshot)

def mentionDecl (d : DeclId) (complete : Bool) : Except Fault Mention := do
  return ⟨.decl (← s.canonical d), complete⟩

def mentionType (t : QualType) (complete : Bool) : Except Fault Mention := do
  match (← s.type t.type).decl? with
  | some d => s.mentionDecl d complete
  | none => return ⟨.type t.unqualified, complete⟩

def draftType (t : QualType) (complete : Bool) : Except Fault DraftAttribute := do
  return .type (← s.mentionType t complete) t.quals

/-- The enclosing scope, and the access of a class member. -/
def draftContext (decl : Declaration) : Except Fault (List DraftAttribute) :=
  match decl.parent with
  | none => return []
  | some parent => do
    let context ← s.mentionDecl parent false
    let isRecord := (← s.decl parent).kind.isRecord
    return .context context :: if isRecord then [.access decl.access] else []

def draftLocation (decl : Declaration) : List DraftAttribute :=
  decl.location.toList.map fun location => .location location.shown.file location.shown.line

/-- The members of a scope, each wanted complete; a stub does not list them. -/
def draftMembers (scope : Declaration) (complete : Bool) : Except Fault (List DraftAttribute) :=
  if complete then do
    let members ← scope.children.filterM fun child => return (← s.decl child).kind.isMember
    return [.members (← members.mapM (s.mentionDecl · true))]
  else return []

/-- A namespace, or the translation unit under the name `::`. -/
def draftScope (decl : Declaration) (name : String) (complete : Bool) : Except Fault Draft := do
  let context ← s.draftContext decl
  let members ← s.draftMembers decl complete
  return ⟨.nameSpace, .name name :: (context ++ members)⟩

/-- A typedef, field or variable: its type is wanted as complete as itself. -/
def draftTyped (tag : Tag) (decl : Declaration) (type : QualType) (complete : Bool) :
    Except Fault Draft := do
  let type ← s.draftType type complete
  let context ← s.draftContext decl
  return ⟨tag, .name decl.name :: type :: (context ++ draftLocation decl)⟩

/-- A record is located where its body is and lists the members of that. -/
def draftRecord (d : DeclId) (decl : Declaration) (key : ClassKey) (complete : Bool) :
    Except Fault Draft := do
  let context ← s.draftContext decl
  match ← s.definition d with
  | none =>
    return ⟨.record key, .name decl.name :: (context ++ draftLocation decl ++ [.incomplete])⟩
  | some body =>
    let body ← s.decl body
    let members ← s.draftMembers body complete
    return ⟨.record key, .name decl.name :: (context ++ draftLocation body ++ members)⟩

def draftDecl (d : DeclId) (complete : Bool) : Except Fault Draft := do
  let decl ← s.decl d
  match decl.kind with
  | .translationUnit => s.draftScope decl "::" complete
  | .nameSpace => s.draftScope decl decl.name complete
  | .typedef type => s.draftTyped .typedef decl type complete
  | .field type => s.draftTyped .field decl type complete
  | .variable type => s.draftTyped .variable decl type complete
  | .record key _ _ => s.draftRecord d decl key complete
  | .accessSpec | .other _ => return ⟨.unimplemented, [.kind decl.kind.name]⟩

/-- A pointee is only referred to, never wanted complete. -/
def draftTypeKind (t : TypeId) : Except Fault Draft := do
  match ← s.type t with
  | .builtin name => return ⟨.fundamental, [.name name]⟩
  | .pointer pointee => return ⟨.pointer, [← s.draftType pointee false]⟩
  | type => return ⟨.unimplemented, [.typeClass type.name]⟩

def draft : Entity → Bool → Except Fault Draft
  | .decl d, complete => s.draftDecl d complete
  | .type t, _ => s.draftTypeKind t.type

end Snapshot

end AstXml
