import AstXml.Document

/-!
An indexed document. Declarations of one entity are linked by `previous`; the first of them is the
entity's canonical declaration. The index resolves every declaration to its canonical one and to
the declaration that carries the body.

Looking up a position beyond the end of a table is a fault. A validated document has none.
-/
namespace AstXml

/-- What goes wrong on a document that was not validated; `unfinished` is a run cut short. -/
inductive Fault
  | missingDecl (decl : DeclId)
  | missingType (type : TypeId)
  | missingFile (file : FileId)
  | unfinished
  deriving DecidableEq

/-- A document with its two index tables, each as long as the declaration table. -/
structure Snapshot where
  document : Document
  canonicals : Array DeclId
  bodies : Array (Option DeclId)

namespace Snapshot

/-- Adds the canonical declaration of the next entry: a `previous` link leads to an entry whose own
canonical declaration is already known. -/
def addCanonical (canonicals : Array DeclId) (decl : Declaration) :
    Except Fault (Array DeclId) :=
  match decl.previous with
  | none => .ok (canonicals.push (.ofIndex canonicals.size))
  | some previous =>
    match canonicals[previous.index]? with
    | some canonical => .ok (canonicals.push canonical)
    | none => .error (.missingDecl previous)

def canonicalTable (decls : List Declaration) : Except Fault (Array DeclId) :=
  decls.foldlM addCanonical #[]

/-- Notes the body `decl` of the entity with the given canonical declaration, unless an earlier one
is known. -/
def addBody (bodies : Array (Option DeclId)) (canonical decl : DeclId) : Array (Option DeclId) :=
  bodies.modify canonical.index fun body => body.or (some decl)

/-- The first body of every entity, at the position of its canonical declaration. -/
def bodyTable (canonicals : List DeclId) (decls : List Declaration) : Array (Option DeclId) :=
  (canonicals.zip decls).zipIdx.foldl
    (fun bodies entry =>
      if entry.1.2.kind.isBody then addBody bodies entry.1.1 (.ofIndex entry.2) else bodies)
    (Array.replicate decls.length none)

def ofDocument (document : Document) : Except Fault Snapshot := do
  let canonicals ← canonicalTable document.decls.toList
  return ⟨document, canonicals, bodyTable canonicals.toList document.decls.toList⟩

variable (s : Snapshot)

def decl (d : DeclId) : Except Fault Declaration :=
  match s.document.decls[d.index]? with
  | some decl => .ok decl
  | none => .error (.missingDecl d)

def type (t : TypeId) : Except Fault TypeKind :=
  match s.document.types[t.index]? with
  | some type => .ok type
  | none => .error (.missingType t)

def fileName (f : FileId) : Except Fault String :=
  match s.document.files[f.index]? with
  | some name => .ok name
  | none => .error (.missingFile f)

/-- The first declaration of the entity that `d` declares. -/
def canonical (d : DeclId) : Except Fault DeclId :=
  match s.canonicals[d.index]? with
  | some canonical => .ok canonical
  | none => .error (.missingDecl d)

/-- The declaration that carries the body: for a record the first one with a body, if any; for
every other declaration itself. -/
def definition (d : DeclId) : Except Fault (Option DeclId) := do
  let decl ← s.decl d
  if decl.kind.isRecord then
    let canonical ← s.canonical d
    match s.bodies[canonical.index]? with
    | some body => return body
    | none => throw (.missingDecl canonical)
  else
    return some d

/-- The children of `scope`'s body that have a given name, in declaration order. -/
def lookup (scope : DeclId) (name : String) : Except Fault (List DeclId) := do
  let body := (← s.definition scope).getD scope
  (← s.decl body).children.filterM fun child => return (← s.decl child).name == name

end Snapshot

end AstXml
