import AstXml.Builder
import AstXml.Proofs.WellFormed

/-!
What the calls do that build a document. If the positions it names exist, a call does one of four
things: it appends a file, a type, or a declaration with no children below an existing one, or it
changes what a declaration says while its place in the tree stays the same.
-/
namespace AstXml

def Declaration.adopt (child : DeclId) (decl : Declaration) : Declaration :=
  { decl with children := decl.children ++ [child] }

namespace Document

/-- Whether a position lies inside its table. -/
def Holds (d : Document) : Builder.Answer → Prop
  | .file file => file.index < d.files.size
  | .type type => type.index < d.types.size
  | .decl decl => decl.index < d.decls.size
  | .nothing => True

/-- A declaration that can be appended below `scope`. One that has a `previous` stands in the scope
of that, and in the root if that is the root. -/
structure Admits (d : Document) (scope : DeclId) (decl : Declaration) : Prop where
  parent : decl.parent = some scope
  inside : scope.index < d.decls.size
  kind : decl.kind ≠ .translationUnit
  typed : ∀ type, decl.kind.type? = some type → type.type.index < d.types.size
  location : decl.location = none
  children : decl.children = []
  previous : ∀ p, decl.previous = some p →
    ∃ earlier, d.decls[p.index]? = some earlier ∧ scope = earlier.parent.getD .root

/-- A declaration that keeps its kind and its place in the tree while it gets more children, and
keeps its location unless it is moved to existing files. -/
structure Keeps (d : Document) (more : List DeclId) (before after : Declaration) : Prop where
  kind : after.kind = before.kind
  parent : after.parent = before.parent
  previous : after.previous = before.previous
  children : after.children = before.children ++ more
  location : after.location = before.location ∨ ∃ location, after.location = some location ∧
    location.written.file.index < d.files.size ∧
    ∀ e, location.expansion = some e → e.file.index < d.files.size

def enter (d : Document) (scope : DeclId) (decl : Declaration) : Document :=
  { d with decls := (d.decls.modify scope.index (.adopt (.ofIndex d.decls.size))).push decl }

def retouch (d : Document) (target : DeclId) (change : Declaration → Declaration) : Document :=
  { d with decls := d.decls.modify target.index change }

theorem getElem?_enter (d : Document) (scope : DeclId) (decl : Declaration) (i : Nat) :
    (d.enter scope decl).decls[i]? =
      if i = d.decls.size then some decl
      else d.decls[i]?.map fun old =>
        if scope.index = i then old.adopt (.ofIndex d.decls.size) else old := by
  simp only [enter, Array.getElem?_push, Array.getElem?_modify, Array.size_modify]
  split
  · rfl
  · split <;> simp

theorem getElem?_retouch (d : Document) (target : DeclId) (change : Declaration → Declaration)
    (i : Nat) : (d.retouch target change).decls[i]? =
      d.decls[i]?.map fun old => if target.index = i then change old else old := by
  simp only [retouch, Array.getElem?_modify]
  split <;> simp

theorem size_enter (d : Document) (scope : DeclId) (decl : Declaration) :
    (d.enter scope decl).decls.size = d.decls.size + 1 := by
  simp [enter]

theorem size_retouch (d : Document) (target : DeclId) (change : Declaration → Declaration)
    (table : Table) : (d.retouch target change).size table = d.size table := by
  cases table <;> simp [retouch, size]

end Document

namespace Builder

/-- What a call does to a document, and what it hands back. -/
inductive Step (d : Document) : Answer → Document → Prop
  | file (name : String) :
      Step d (.file (.ofIndex d.files.size)) { d with files := d.files.push name }
  | type {type : TypeKind}
      (within : ∀ reference ∈ Document.typeReferences type, reference.2 < d.size reference.1) :
      Step d (.type (.ofIndex d.types.size)) { d with types := d.types.push type }
  | decl {scope : DeclId} {decl : Declaration} (admitted : d.Admits scope decl) :
      Step d (.decl (.ofIndex d.decls.size)) (d.enter scope decl)
  | retouch {target : DeclId} {change : Declaration → Declaration}
      (mild : ∀ decl, d.Keeps [] decl (change decl)) :
      Step d .nothing (d.retouch target change)

/-- The positions that a call names. -/
def Call.names : Call → List Answer
  | .file _ | .builtin _ | .otherType _ => []
  | .pointer pointee => [.type pointee.type]
  | .recordType decl | .typedefType decl => [.decl decl]
  | .nameSpace scope _ | .record scope _ _ | .forwardRecord scope _ _ | .otherDecl scope _ _
  | .redeclareRecord scope _ | .injectedName scope | .accessSpec scope _ | .setAccess scope _ =>
    [.decl scope]
  | .typedef scope _ type | .field scope _ type _ | .variable scope _ type =>
    [.decl scope, .type type.type]
  | .locate decl location =>
    .decl decl :: .file location.written.file ::
      location.expansion.toList.map fun expansion => .file expansion.file

theorem modify_push_of_lt {α : Type} (xs : Array α) (x : α) (f : α → α) {i : Nat}
    (inside : i < xs.size) : (xs.push x).modify i f = (xs.modify i f).push x := by
  apply Array.ext_getElem?
  intro j
  simp only [Array.getElem?_modify, Array.getElem?_push, Array.size_modify]
  grind

theorem modify_push_last {α : Type} (xs : Array α) (x : α) (f : α → α) :
    (xs.push x).modify xs.size f = xs.push (f x) := by
  apply Array.ext_getElem?
  intro j
  simp only [Array.getElem?_modify, Array.getElem?_push]
  grind

variable {b : Builder}

theorem addDecl_eq {scope : DeclId} (inside : scope.index < b.document.decls.size)
    (kind : DeclKind) (name : String) : b.addDecl scope kind name =
      (.ofIndex b.document.decls.size,
        ⟨b.document.enter scope (.bare kind name (some scope))⟩) := by
  simp only [addDecl, modifyDecl, modify_push_of_lt _ _ _ inside]
  rfl

/-- A change of the declaration that was entered last. -/
theorem modifyDecl_enter (room : b.document.decls.size ≤ Document.maxTable) (scope : DeclId)
    (decl : Declaration) (change : Declaration → Declaration) :
    modifyDecl ⟨b.document.enter scope decl⟩ (.ofIndex b.document.decls.size) change =
      ⟨b.document.enter scope (change decl)⟩ := by
  have last : (DeclId.ofIndex b.document.decls.size).index =
      (b.document.decls.modify scope.index (.adopt (.ofIndex b.document.decls.size))).size := by
    rw [DeclId.index_ofIndex (Nat.lt_succ_of_le room), Array.size_modify]
  simp only [modifyDecl, Document.enter, last, modify_push_last]

section Calls

variable (room : b.document.decls.size ≤ Document.maxTable)

theorem addDecl_step {scope : DeclId} (inside : scope.index < b.document.decls.size)
    {kind : DeclKind} (inner : kind ≠ .translationUnit)
    (typed : ∀ type, kind.type? = some type → type.type.index < b.document.types.size)
    (name : String) :
    Step b.document (answerDecl (b.addDecl scope kind name)).1
      (answerDecl (b.addDecl scope kind name)).2.document := by
  rw [addDecl_eq inside]
  exact .decl ⟨rfl, inside, inner, typed, rfl, rfl, nofun⟩

include room

theorem addAccessible_step {scope : DeclId} (inside : scope.index < b.document.decls.size)
    {kind : DeclKind} (inner : kind ≠ .translationUnit)
    (typed : ∀ type, kind.type? = some type → type.type.index < b.document.types.size)
    (name : String) (access : Access) :
    Step b.document (answerDecl (b.addAccessible scope kind name access)).1
      (answerDecl (b.addAccessible scope kind name access)).2.document := by
  simp only [addAccessible, setAccess, addDecl_eq inside, modifyDecl_enter room]
  exact .decl ⟨rfl, inside, inner, typed, rfl, rfl, nofun⟩

theorem redeclareRecord_step (wellFormed : b.document.WellFormed) {previous : DeclId}
    (inside : previous.index < b.document.decls.size) (isDefinition : Bool) :
    Step b.document (b.redeclareRecord previous isDefinition).1
      (b.redeclareRecord previous isDefinition).2.document := by
  obtain ⟨earlier, found⟩ : ∃ earlier, b.document.decls[previous.index]? = some earlier :=
    ⟨_, Array.getElem?_eq_getElem inside⟩
  have scope : (earlier.parent.getD .root).index < b.document.decls.size := by
    cases parent : earlier.parent with
    | none => exact Nat.zero_lt_of_lt inside
    | some p => exact wellFormed.parent_lt found parent
  simp only [redeclareRecord, found, addDecl_eq scope, modifyDecl_enter room]
  refine .decl ⟨rfl, scope, nofun, nofun, rfl, rfl, ?_⟩
  rintro p ⟨⟩
  exact ⟨earlier, found, rfl⟩

omit room in
theorem injectName_step {record : DeclId} (inside : record.index < b.document.decls.size) :
    Step b.document (b.injectName record).1 (b.injectName record).2.document := by
  obtain ⟨decl, found⟩ : ∃ decl, b.document.decls[record.index]? = some decl :=
    ⟨_, Array.getElem?_eq_getElem inside⟩
  simp only [injectName, found]
  exact addDecl_step inside (by simp) (by simp [DeclKind.type?]) _

end Calls

/-- Every call is a step if the positions it names exist. -/
theorem perform_step (room : b.document.decls.size ≤ Document.maxTable)
    (wellFormed : b.document.WellFormed) {call : Call}
    (held : ∀ name ∈ call.names, b.document.Holds name) :
    Step b.document (b.perform call).1 (b.perform call).2.document := by
  cases call with
  | file name => exact .file name
  | builtin name | otherType name => exact .type (by simp [Document.typeReferences])
  | pointer pointee =>
    have inside : pointee.type.index < b.document.types.size := by
      simpa [Call.names, Document.Holds] using held
    exact .type (by simpa [Document.typeReferences, Document.size] using inside)
  | recordType decl | typedefType decl =>
    have inside : decl.index < b.document.decls.size := by
      simpa [Call.names, Document.Holds] using held
    exact .type (by simpa [Document.typeReferences, Document.size] using inside)
  | nameSpace scope name | record scope key name | forwardRecord scope key name
  | otherDecl scope kind name =>
    have inside : scope.index < b.document.decls.size := by
      simpa [Call.names, Document.Holds] using held
    exact addDecl_step inside (by simp) (by simp [DeclKind.type?]) _
  | typedef scope name type | «variable» scope name type =>
    obtain ⟨inside, typed⟩ : scope.index < b.document.decls.size ∧
        type.type.index < b.document.types.size := by
      simpa [Call.names, Document.Holds] using held
    exact addDecl_step inside (by simp) (by simpa [DeclKind.type?] using typed) _
  | field scope name type access =>
    obtain ⟨inside, typed⟩ : scope.index < b.document.decls.size ∧
        type.type.index < b.document.types.size := by
      simpa [Call.names, Document.Holds] using held
    exact addAccessible_step room inside (by simp) (by simpa [DeclKind.type?] using typed) _ _
  | accessSpec scope access =>
    have inside : scope.index < b.document.decls.size := by
      simpa [Call.names, Document.Holds] using held
    exact addAccessible_step room inside (by simp) (by simp [DeclKind.type?]) _ _
  | redeclareRecord previous isDefinition =>
    refine redeclareRecord_step room wellFormed ?_ isDefinition
    simpa [Call.names, Document.Holds] using held
  | injectedName record =>
    refine injectName_step ?_
    simpa [Call.names, Document.Holds] using held
  | setAccess decl access => exact .retouch fun decl => ⟨rfl, rfl, rfl, by simp, .inl rfl⟩
  | locate decl location =>
    obtain ⟨_, written, expanded⟩ : decl.index < b.document.decls.size ∧
        location.written.file.index < b.document.files.size ∧
        ∀ e, location.expansion = some e → e.file.index < b.document.files.size := by
      simpa [Call.names, Document.Holds] using held
    exact .retouch fun _ => ⟨rfl, rfl, rfl, by simp, .inr ⟨location, rfl, written, expanded⟩⟩

variable {d d' : Document} {answer : Answer}

/-- What a call hands back exists, and what existed goes on to exist. -/
theorem Step.holds (step : Step d answer d') {id : Answer} (held : d.Holds id ∨ id = answer) :
    d'.Holds id := by
  cases step with
  | file name =>
    rcases held with old | rfl
    · cases id <;> simp only [Document.Holds, Array.size_push] at old ⊢ <;> omega
    · have := Nat.mod_le d.files.size 4294967296
      simp [Document.Holds, FileId.index, FileId.ofIndex]
      omega
  | type within =>
    rcases held with old | rfl
    · cases id <;> simp only [Document.Holds, Array.size_push] at old ⊢ <;> omega
    · have := Nat.mod_le d.types.size 4294967296
      simp [Document.Holds, TypeId.index, TypeId.ofIndex]
      omega
  | decl admitted =>
    rcases held with old | rfl
    · cases id <;> simp only [Document.Holds, Document.size_enter] at old ⊢ <;>
        first | exact old | omega
    · have := Nat.mod_le d.decls.size 4294967296
      simp [Document.Holds, DeclId.index, DeclId.ofIndex, Document.size_enter]
      omega
  | retouch =>
    rcases held with old | rfl
    · cases id <;> simp only [Document.Holds, Document.retouch, Array.size_modify] at old ⊢ <;>
        exact old
    · exact trivial

theorem size_modifyDecl (b : Builder) (target : DeclId) (change : Declaration → Declaration)
    (table : Table) : (b.modifyDecl target change).document.size table = b.document.size table :=
  Document.size_retouch b.document target change table

theorem size_addDecl (b : Builder) (scope : DeclId) (kind : DeclKind) (name : String)
    (table : Table) :
    b.document.size table ≤ (b.addDecl scope kind name).2.document.size table := by
  simp only [addDecl, size_modifyDecl]
  cases table <;> simp [Document.size]

/-- Tables never shrink, whatever a call names. -/
theorem size_perform (b : Builder) (call : Call) (table : Table) :
    b.document.size table ≤ (b.perform call).2.document.size table := by
  cases call with
  | file name => cases table <;> simp [perform, answerFile, addFile, Document.size]
  | setAccess => simp [perform, setAccess, size_modifyDecl]
  | locate => simp [perform, size_modifyDecl]
  | field | accessSpec =>
    simp only [perform, answerDecl, addAccessible, setAccess, size_modifyDecl]
    exact size_addDecl ..
  | redeclareRecord =>
    simp only [perform, redeclareRecord]
    split
    · exact Nat.le_refl _
    · simp only [size_modifyDecl]
      exact size_addDecl ..
  | injectedName =>
    simp only [perform, injectName]
    split
    · exact Nat.le_refl _
    · exact size_addDecl ..
  | nameSpace | record | forwardRecord | typedef | «variable» | otherDecl => exact size_addDecl ..
  | _ => cases table <;> simp [perform, answerType, addType, Document.size]

theorem size_performAll (calls : List Call) (b : Builder) (table : Table) :
    b.document.size table ≤ (performAll calls b).2.document.size table := by
  induction calls generalizing b with
  | nil => exact Nat.le_refl _
  | cons call rest ih => exact Nat.le_trans (b.size_perform call table) (ih (b.perform call).2)

/-- Every position that a call names is known from the start, or was handed back by a call before
it. -/
def Handed (known : List Answer) : List Call → Builder → Prop
  | [], _ => True
  | call :: rest, b =>
    (∀ id ∈ call.names, id ∈ known) ∧
      Handed (known ++ [(b.perform call).1]) rest (b.perform call).2

instance decidableHanded (known : List Answer) (calls : List Call) (b : Builder) :
    Decidable (Handed known calls b) :=
  match calls with
  | [] => .isTrue trivial
  | call :: rest =>
    have := decidableHanded (known ++ [(b.perform call).1]) rest (b.perform call).2
    inferInstanceAs (Decidable (_ ∧ _))

end Builder

end AstXml
