import AstXml.Snapshot

/-!
Documents built one call at a time. Every new declaration is appended to its scope's children, so
a built document is a tree.
-/
namespace AstXml

inductive Builder.Call
  | file (name : String)
  | builtin (name : String)
  | pointer (pointee : QualType)
  | recordType (decl : DeclId)
  | typedefType (decl : DeclId)
  | otherType (name : String)
  | nameSpace (parent : DeclId) (name : String)
  | record (parent : DeclId) (key : ClassKey) (name : String)
  | forwardRecord (parent : DeclId) (key : ClassKey) (name : String)
  | redeclareRecord (previous : DeclId) (isDefinition : Bool)
  | injectedName (record : DeclId)
  | typedef (parent : DeclId) (name : String) (underlying : QualType)
  | field (record : DeclId) (name : String) (type : QualType) (access : Access)
  | variable (parent : DeclId) (name : String) (type : QualType)
  | accessSpec (record : DeclId) (access : Access)
  | otherDecl (parent : DeclId) (kind name : String)
  | setAccess (decl : DeclId) (access : Access)
  | locate (decl : DeclId) (location : Location)

/-- The position that a call hands back. -/
inductive Builder.Answer
  | file (id : FileId)
  | type (id : TypeId)
  | decl (id : DeclId)
  | nothing
  deriving DecidableEq

structure Builder where
  document : Document

namespace Builder

def start : Builder := ⟨⟨#[], #[], #[.bare .translationUnit "" none]⟩⟩

variable (b : Builder)

def addFile (name : String) : FileId × Builder :=
  (.ofIndex b.document.files.size,
    ⟨{ b.document with files := b.document.files.push name }⟩)

def addType (type : TypeKind) : TypeId × Builder :=
  (.ofIndex b.document.types.size,
    ⟨{ b.document with types := b.document.types.push type }⟩)

/-- Changes one declaration; a position that no call handed out is left alone. -/
def modifyDecl (d : DeclId) (change : Declaration → Declaration) : Builder :=
  ⟨{ b.document with decls := b.document.decls.modify d.index change }⟩

/-- Appends a declaration to the table and to its scope's children. -/
def addDecl (parent : DeclId) (kind : DeclKind) (name : String) : DeclId × Builder :=
  let id := DeclId.ofIndex b.document.decls.size
  let grown : Builder :=
    ⟨{ b.document with decls := b.document.decls.push (.bare kind name (some parent)) }⟩
  (id, grown.modifyDecl parent fun decl => { decl with children := decl.children ++ [id] })

def setAccess (d : DeclId) (access : Access) : Builder :=
  b.modifyDecl d fun decl => { decl with access }

def addAccessible (parent : DeclId) (kind : DeclKind) (name : String) (access : Access) :
    DeclId × Builder :=
  let (id, grown) := b.addDecl parent kind name
  (id, grown.setAccess id access)

def classKeyOr (otherwise : ClassKey) : DeclKind → ClassKey
  | .record key _ _ => key
  | _ => otherwise

def answerFile (made : FileId × Builder) : Answer × Builder := (.file made.1, made.2)
def answerType (made : TypeId × Builder) : Answer × Builder := (.type made.1, made.2)
def answerDecl (made : DeclId × Builder) : Answer × Builder := (.decl made.1, made.2)

def redeclareRecord (previous : DeclId) (isDefinition : Bool) : Answer × Builder :=
  match b.document.decls[previous.index]? with
  | none => (.nothing, b)
  | some earlier =>
    let kind := .record (classKeyOr .structKey earlier.kind) isDefinition false
    let (id, grown) := b.addDecl (earlier.parent.getD .root) kind earlier.name
    (.decl id, grown.modifyDecl id fun decl => { decl with previous := some previous })

/-- The name of a record as seen from inside it. -/
def injectName (record : DeclId) : Answer × Builder :=
  match b.document.decls[record.index]? with
  | none => (.nothing, b)
  | some decl =>
    answerDecl (b.addDecl record (.record (classKeyOr .classKey decl.kind) false true) decl.name)

def perform : Call → Answer × Builder
  | .file name => answerFile (b.addFile name)
  | .builtin name => answerType (b.addType (.builtin name))
  | .pointer pointee => answerType (b.addType (.pointer pointee))
  | .recordType decl => answerType (b.addType (.record decl))
  | .typedefType decl => answerType (b.addType (.typedef decl))
  | .otherType name => answerType (b.addType (.other name))
  | .nameSpace parent name => answerDecl (b.addDecl parent .nameSpace name)
  | .record parent key name => answerDecl (b.addDecl parent (.record key true false) name)
  | .forwardRecord parent key name => answerDecl (b.addDecl parent (.record key false false) name)
  | .redeclareRecord previous isDefinition => b.redeclareRecord previous isDefinition
  | .injectedName record => b.injectName record
  | .typedef parent name underlying => answerDecl (b.addDecl parent (.typedef underlying) name)
  | .field record name type access => answerDecl (b.addAccessible record (.field type) name access)
  | .variable parent name type => answerDecl (b.addDecl parent (.variable type) name)
  | .accessSpec record access => answerDecl (b.addAccessible record .accessSpec "" access)
  | .otherDecl parent kind name => answerDecl (b.addDecl parent (.other kind) name)
  | .setAccess decl access => (.nothing, b.setAccess decl access)
  | .locate decl location =>
    (.nothing, b.modifyDecl decl fun decl => { decl with location := some location })

/-- Performs calls in order; the answers come in the same order. -/
def performAll : List Call → Builder → List Answer × Builder
  | [], b => ([], b)
  | call :: rest, b =>
    let (answer, b) := b.perform call
    let (answers, b) := performAll rest b
    (answer :: answers, b)

/-- The index of what was built, which is not validated. -/
def build : Except Fault Snapshot := Snapshot.ofDocument b.document

end Builder

end AstXml
