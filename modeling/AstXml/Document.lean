import AstXml.Declaration

/-!
A document is a snapshot of one translation unit: its source files, types and declarations in three
tables that refer to each other by position. `validate` accepts a document when every reference
stays inside its table and every `previous` points backwards; otherwise it names the first
violation.
-/
namespace AstXml

structure Document where
  files : Array String
  types : Array TypeKind
  decls : Array Declaration
  deriving DecidableEq

inductive Table
  | decls
  | types
  | files
  deriving DecidableEq

def Table.plural : Table → String
  | .decls => "declarations"
  | .types => "types"
  | .files => "files"

def Table.singular : Table → String
  | .decls => "declaration"
  | .types => "type"
  | .files => "file"

/-- Why a document is refused. A dangling reference has an owner in one table and a target beyond
the end of another. -/
inductive Invalid
  | empty
  | rootless
  | oversized (table : Table) (size : Nat)
  | secondRoot (decl : Nat)
  | laterPrevious (decl previous : Nat)
  | dangling (source : Table) (owner : Nat) (target : Table) (index : Nat)
  deriving DecidableEq

def Invalid.message : Invalid → String
  | .empty => "Invalid AST: document has no declarations"
  | .rootless => "Invalid AST: declaration 0 must be the translation unit"
  | .oversized table size => s!"Invalid AST: too many {table.plural}: {size}"
  | .secondRoot decl => s!"Invalid AST: declaration {decl} is a second translation unit"
  | .laterPrevious decl previous =>
    s!"Invalid AST: declaration {decl} names later declaration {previous} as previous"
  | .dangling source owner target index =>
    s!"AST {source.singular} {owner} refers to missing {target.singular} {index}"

namespace Document

def maxTable : Nat := 4294967295

def size (d : Document) : Table → Nat
  | .decls => d.decls.size
  | .types => d.types.size
  | .files => d.files.size

def checkRoot (d : Document) : Except Invalid Unit :=
  match d.decls[0]? with
  | none => .error .empty
  | some decl => if decl.kind = .translationUnit then .ok () else .error .rootless

def checkSize (d : Document) (table : Table) : Except Invalid Unit :=
  if d.size table ≤ maxTable then .ok () else .error (.oversized table (d.size table))

def checkReference (d : Document) (source : Table) (owner : Nat) (target : Table) (index : Nat) :
    Except Invalid Unit :=
  if index < d.size target then .ok () else .error (.dangling source owner target index)

def checkKind (owner : Nat) (decl : Declaration) : Except Invalid Unit :=
  if 0 < owner ∧ decl.kind = .translationUnit then .error (.secondRoot owner) else .ok ()

def checkPrevious (owner : Nat) (decl : Declaration) : Except Invalid Unit :=
  match decl.previous with
  | some previous =>
    if previous.index < owner then .ok () else .error (.laterPrevious owner previous.index)
  | none => .ok ()

/-- The references of a declaration other than `previous`, in the order in which they are checked:
those before `previous` and those after it. -/
def parentReferences (decl : Declaration) : List (Table × Nat) :=
  decl.parent.toList.map fun parent => (.decls, parent.index)

def ownReferences (decl : Declaration) : List (Table × Nat) :=
  decl.children.map (fun child => (.decls, child.index))
    ++ (decl.location.toList.flatMap fun location =>
      (.files, location.written.file.index)
        :: location.expansion.toList.map fun expansion => (.files, expansion.file.index))
    ++ decl.kind.type?.toList.map fun type => (.types, type.type.index)

def typeReferences : TypeKind → List (Table × Nat)
  | .pointer pointee => [(.types, pointee.type.index)]
  | .record decl | .typedef decl => [(.decls, decl.index)]
  | .builtin _ | .other _ => []

def checkReferences (d : Document) (source : Table) (owner : Nat)
    (references : List (Table × Nat)) : Except Invalid Unit :=
  references.forM fun reference => d.checkReference source owner reference.1 reference.2

def checkDecl (d : Document) (owner : Nat) (decl : Declaration) : Except Invalid Unit := do
  checkKind owner decl
  d.checkReferences .decls owner (parentReferences decl)
  checkPrevious owner decl
  d.checkReferences .decls owner (ownReferences decl)

/-- Runs a check over the entries of a table from position `owner` on. -/
def checkEach {α : Type} (check : Nat → α → Except Invalid Unit) (owner : Nat) :
    List α → Except Invalid Unit
  | [] => .ok ()
  | entry :: rest => do
    check owner entry
    checkEach check (owner + 1) rest

/-- The first violation of a document, if there is one. -/
def validate (d : Document) : Except Invalid Unit := do
  d.checkRoot
  d.checkSize .decls
  d.checkSize .types
  d.checkSize .files
  checkEach d.checkDecl 0 d.decls.toList
  checkEach (fun owner type => d.checkReferences .types owner (typeReferences type)) 0
    d.types.toList

end Document

end AstXml
