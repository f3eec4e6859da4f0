import AstXml.Proofs.Relabelling

/-!
Drafts of a changed tree. A draft refers to a declaration by its canonical one only, and asks two
things about it: whether a parent is a record and whether a child is a member. So references to
declarations of one entity can be exchanged, and types and source files can get other positions.
-/
namespace AstXml
open Outcome

/-! Where the positions of types and source files stand in a tree. -/

section Relabel

variable (ρ : Relabelling)

def DeclKind.relabel : DeclKind → DeclKind
  | .typedef type => .typedef (type.relabel ρ)
  | .field type => .field (type.relabel ρ)
  | .variable type => .variable (type.relabel ρ)
  | kind => kind

def Position.relabel (p : Position) : Position := { p with file := ρ.file p.file }

def Location.relabel (l : Location) : Location :=
  ⟨l.written.relabel ρ, l.expansion.map (·.relabel ρ)⟩

def Declaration.relabel (decl : Declaration) : Declaration :=
  { decl with kind := decl.kind.relabel ρ, location := decl.location.map (·.relabel ρ) }

def TypeKind.relabel : TypeKind → TypeKind
  | .pointer pointee => .pointer (pointee.relabel ρ)
  | type => type

@[simp] theorem DeclKind.isRecord_relabel (kind : DeclKind) :
    (kind.relabel ρ).isRecord = kind.isRecord := by
  cases kind <;> rfl

@[simp] theorem DeclKind.isMember_relabel (kind : DeclKind) :
    (kind.relabel ρ).isMember = kind.isMember := by
  cases kind <;> rfl

theorem DeclKind.type?_relabel (kind : DeclKind) :
    (kind.relabel ρ).type? = kind.type?.map (·.relabel ρ) := by
  cases kind <;> rfl

theorem DeclKind.tag_relabel (kind : DeclKind) : (kind.relabel ρ).tag = kind.tag := by
  cases kind <;> rfl

theorem DeclKind.isContainer_relabel (kind : DeclKind) :
    (kind.relabel ρ).isContainer = kind.isContainer := by
  cases kind <;> rfl

theorem Location.shown_relabel (l : Location) : (l.relabel ρ).shown = l.shown.relabel ρ := by
  obtain ⟨written, expansion⟩ := l
  cases expansion <;> rfl

theorem TypeKind.decl?_relabel (type : TypeKind) : (type.relabel ρ).decl? = type.decl? := by
  cases type <;> rfl

end Relabel

namespace Relabelling

/-- Every position as it is. -/
def same : Relabelling := ⟨id, id⟩

theorem same_injective : same.Injective := ⟨Function.injective_id, Function.injective_id⟩

theorem same_decl (decl : Declaration) : decl.relabel same = decl := by
  obtain ⟨kind, name, parent, previous, access, location, children⟩ := decl
  have kept : kind.relabel same = kind := by cases kind <;> rfl
  have stays : location.map (·.relabel same) = location := by
    rcases location with _ | ⟨written, _ | expansion⟩ <;> rfl
  rw [Declaration.relabel, kept, stays]

theorem same_type (type : TypeKind) : type.relabel same = type := by
  cases type <;> rfl

end Relabelling

/-- Declarations of the same kind, neither of which is an injected name. -/
inductive DeclKind.Alike : DeclKind → DeclKind → Prop
  | translationUnit : Alike .translationUnit .translationUnit
  | nameSpace : Alike .nameSpace .nameSpace
  | typedef (type type') : Alike (.typedef type) (.typedef type')
  | record (key body key' body') : Alike (.record key body false) (.record key' body' false)
  | accessSpec : Alike .accessSpec .accessSpec
  | field (type type') : Alike (.field type) (.field type')
  | variable (type type') : Alike (.variable type) (.variable type')
  | other (name name') : Alike (.other name) (.other name')

theorem DeclKind.Alike.isRecord {kind kind' : DeclKind} (h : kind.Alike kind') :
    kind'.isRecord = kind.isRecord := by
  cases h <;> rfl

theorem DeclKind.Alike.isMember {kind kind' : DeclKind} (h : kind.Alike kind') :
    kind'.isMember = kind.isMember := by
  cases h <;> rfl

namespace Snapshot

section Changes

variable (s : Snapshot)

/-- References to the same declaration, or to declarations of one entity and of one kind. -/
inductive Exchangeable : DeclId → DeclId → Prop
  | same (d) : Exchangeable d d
  | other {d d' c decl decl'} (canonical : s.canonical d = .ok c)
      (canonical' : s.canonical d' = .ok c) (found : s.decl d = .ok decl)
      (found' : s.decl d' = .ok decl') (alike : decl.kind.Alike decl'.kind) : Exchangeable d d'

/-- A declaration with some of its parent and children exchanged. -/
structure RedirectsDecl (decl decl' : Declaration) : Prop where
  kind : decl'.kind = decl.kind
  name : decl'.name = decl.name
  parent : Option.Rel s.Exchangeable decl.parent decl'.parent
  previous : decl'.previous = decl.previous
  access : decl'.access = decl.access
  location : decl'.location = decl.location
  children : List.Forall₂ s.Exchangeable decl.children decl'.children

inductive RedirectsType : TypeKind → TypeKind → Prop
  | same (type) : RedirectsType type type
  | record {d d'} (h : s.Exchangeable d d') : RedirectsType (.record d) (.record d')
  | typedef {d d'} (h : s.Exchangeable d d') : RedirectsType (.typedef d) (.typedef d')

theorem Exchangeable.forall_same (ds : List DeclId) : List.Forall₂ s.Exchangeable ds ds :=
  List.forall₂_same.mpr fun d _ => .same d

theorem RedirectsDecl.same (decl : Declaration) : s.RedirectsDecl decl decl where
  kind := rfl
  name := rfl
  parent := by
    cases decl.parent with
    | none => exact .none
    | some p => exact .some (.same p)
  previous := rfl
  access := rfl
  location := rfl
  children := Exchangeable.forall_same s decl.children

variable {s} {decl changed : Declaration} (ρ : Relabelling)

theorem RedirectsDecl.kind_relabel (redirects : s.RedirectsDecl decl changed) :
    (changed.relabel ρ).kind = decl.kind.relabel ρ :=
  congrArg (DeclKind.relabel ρ) redirects.kind

theorem RedirectsDecl.name_relabel (redirects : s.RedirectsDecl decl changed) :
    (changed.relabel ρ).name = decl.name := redirects.name

end Changes

/-- A snapshot of the same index whose entries are those of `s` with references exchanged and with
types and source files at other positions. -/
structure Copies (ρ : Relabelling) (s s' : Snapshot) : Prop where
  decl : ∀ {d decl}, s.decl d = .ok decl →
    ∃ changed, s.RedirectsDecl decl changed ∧ s'.decl d = .ok (changed.relabel ρ)
  type : ∀ {t type}, s.type t = .ok type →
    ∃ changed, s.RedirectsType type changed ∧ s'.type (ρ.type t) = .ok (changed.relabel ρ)
  fileName : ∀ {file name}, s.fileName file = .ok name → s'.fileName (ρ.file file) = .ok name
  canonicals : s'.canonicals = s.canonicals
  bodies : s'.bodies = s.bodies

namespace Copies

variable {ρ : Relabelling} {s s' : Snapshot} (copies : s.Copies ρ s') {decl changed : Declaration}
  {complete : Bool}

theorem draftLocation (redirects : s.RedirectsDecl decl changed) :
    draftLocation (changed.relabel ρ) =
      (draftLocation decl).map (DraftAttribute.relabel ρ) := by
  have location : (changed.relabel ρ).location = decl.location.map (·.relabel ρ) :=
    congrArg (Option.map (Location.relabel ρ)) redirects.location
  rw [Snapshot.draftLocation, Snapshot.draftLocation, location]
  cases decl.location with
  | none => rfl
  | some l =>
    simp only [Option.map_some, Option.toList_some, List.map_cons, List.map_nil, l.shown_relabel]
    rfl

include copies

theorem canonical_eq (d : DeclId) : s'.canonical d = s.canonical d := by
  rw [Snapshot.canonical, Snapshot.canonical, copies.canonicals]

theorem canonical_exchanged {d d' : DeclId} (h : s.Exchangeable d d') :
    s'.canonical d' = s.canonical d := by
  rw [copies.canonical_eq]
  cases h with
  | same => rfl
  | other canonical canonical' => rw [canonical, canonical']

/-- What is asked about a parent or a child has the same answer for an exchanged one. -/
theorem decl_exchanged {d d' : DeclId} (h : s.Exchangeable d d') (found : s.decl d = .ok decl) :
    ∃ decl', s'.decl d' = .ok decl' ∧ decl'.kind.isRecord = decl.kind.isRecord ∧
      decl'.kind.isMember = decl.kind.isMember := by
  cases h with
  | same =>
    obtain ⟨changed, redirects, found'⟩ := copies.decl found
    refine ⟨_, found', ?_, ?_⟩ <;> simp [Declaration.relabel, redirects.kind]
  | other _ _ found₁ found₂ alike =>
    cases found.symm.trans found₁
    obtain ⟨changed, redirects, found'⟩ := copies.decl found₂
    refine ⟨_, found', ?_, ?_⟩
    · simp [Declaration.relabel, redirects.kind, alike.isRecord]
    · simp [Declaration.relabel, redirects.kind, alike.isMember]

theorem target {q : QualType} {e : Entity} (meant : s.target q = .ok e) :
    s'.target (q.relabel ρ) = .ok (e.relabel ρ) := by
  obtain ⟨type, found, meant⟩ := bind_eq_ok.mp meant
  obtain ⟨changed, redirects, found'⟩ := copies.type found
  have found'' : s'.type (q.relabel ρ).type = .ok (changed.relabel ρ) := found'
  rw [Snapshot.target, found'', ok_bind, TypeKind.decl?_relabel]
  have named : Option.Rel s.Exchangeable type.decl? changed.decl? := by
    cases redirects with
    | same =>
      cases type.decl? with
      | none => exact .none
      | some d => exact .some (.same d)
    | record h => exact .some h
    | typedef h => exact .some h
  -- only the named declarations differ, and the case split is on how they are related
  generalize type.decl? = d at meant named
  generalize changed.decl? = d' at named ⊢
  cases named with
  | none =>
    cases pure_eq_ok.mp meant
    rfl
  | some h =>
    obtain ⟨c, canonical, same⟩ := bind_eq_ok.mp meant
    cases pure_eq_ok.mp same
    simp only [copies.canonical_exchanged h, canonical, ok_bind]
    rfl

theorem around (redirects : s.RedirectsDecl decl changed) {context : List DraftAttribute}
    (around : s.Around decl context) :
    s'.Around (changed.relabel ρ) (context.map (DraftAttribute.relabel ρ)) := by
  have access : (changed.relabel ρ).access = decl.access := redirects.access
  have parents := redirects.parent
  cases around with
  | outermost parent =>
    rw [parent] at parents
    cases parent' : changed.parent <;> rw [parent'] at parents <;> cases parents
    exact .outermost parent'
  | scope inside canonical written kind =>
    rw [inside] at parents
    cases parent' : changed.parent <;> rw [parent'] at parents <;> cases parents
    rename_i h
    obtain ⟨scope', written', record, _⟩ := copies.decl_exchanged h written
    exact .scope parent' ((copies.canonical_exchanged h).trans canonical) written'
      (record.trans kind)
  | record inside canonical written kind =>
    rw [inside] at parents
    cases parent' : changed.parent <;> rw [parent'] at parents <;> cases parents
    rename_i h
    obtain ⟨scope', written', record, _⟩ := copies.decl_exchanged h written
    have shown : s'.Around (changed.relabel ρ)
        [.context ⟨.decl _, false⟩, .access (changed.relabel ρ).access] :=
      .record parent' ((copies.canonical_exchanged h).trans canonical) written' (record.trans kind)
    rwa [access] at shown

theorem memberList (redirects : s.RedirectsDecl decl changed) {members : List DraftAttribute}
    (listed : s.MemberList decl complete members) :
    s'.MemberList (changed.relabel ρ) complete (members.map (DraftAttribute.relabel ρ)) := by
  cases listed with
  | stub => exact .stub
  | @whole children ms kept mentioned =>
    -- the filter and the mentions see a child by its kind and its canonical declaration
    have answers : ∀ child child' b, s.Exchangeable child child' →
        (do return (← s.decl child).kind.isMember : Except Fault Bool) = .ok b →
        (do return (← s'.decl child').kind.isMember : Except Fault Bool) = .ok b := by
      intro child child' b h answered
      obtain ⟨member, found, answer⟩ := bind_eq_ok.mp answered
      obtain ⟨member', found', _, same⟩ := copies.decl_exchanged h found
      rw [found', ok_bind, same]
      exact answer
    obtain ⟨children', kept', related⟩ := filterM_related answers redirects.children kept
    have mentioned' : children'.mapM (s'.mentionDecl · true) = .ok ms := by
      rw [← mentioned]
      exact mapM_related (fun _ _ h => by rw [mentionDecl, copies.canonical_exchanged h]; rfl)
        related
    have declared : ms.map (·.relabel ρ) = ms := by
      refine (List.map_congr_left fun m member => ?_).trans (List.map_id ms)
      obtain ⟨_, _, mention⟩ := (mem_mapM mentioned m).mp member
      obtain ⟨c, _, rfl⟩ := mentionDecl_eq_ok.mp mention
      rfl
    have listed : s'.MemberList (changed.relabel ρ) true [.members ms] := .whole kept' mentioned'
    rwa [← declared] at listed

theorem definition {d : DeclId} {body : Option DeclId} (defined : s.definition d = .ok body) :
    s'.definition d = .ok body := by
  obtain ⟨decl, found, defined⟩ := bind_eq_ok.mp defined
  obtain ⟨changed, redirects, found'⟩ := copies.decl found
  have kind : (changed.relabel ρ).kind.isRecord = decl.kind.isRecord := by
    simp [Declaration.relabel, redirects.kind]
  rw [Snapshot.definition, found', ok_bind, kind, copies.canonical_eq, copies.bodies]
  exact defined

/-- The shape of a draft stays, and its parts are those of the changed tree. -/
theorem drafted {e : Entity} {draft : Draft} (drafted : s.Drafted e complete draft) :
    s'.Drafted (e.relabel ρ) complete (draft.relabel ρ) := by
  cases drafted with
  | @space d decl name _ context members found kind around listed =>
    obtain ⟨changed, redirects, found'⟩ := copies.decl found
    rw [Draft.relabel, List.map_cons, List.map_append]
    refine .space found' ?_ (copies.around redirects around) (copies.memberList redirects listed)
    rw [redirects.kind_relabel ρ, redirects.name_relabel ρ]
    rcases kind with ⟨kind, rfl⟩ | ⟨kind, rfl⟩ <;> simp [kind, DeclKind.relabel]
  | @typed d decl q e _ context found typed meant around =>
    obtain ⟨changed, redirects, found'⟩ := copies.decl found
    have typed' : (changed.relabel ρ).kind.type? = some (q.relabel ρ) := by
      rw [redirects.kind_relabel ρ, DeclKind.type?_relabel, typed]
      rfl
    have shown : s'.Drafted (.decl d) complete _ :=
      .typed found' typed' (copies.target meant) (copies.around redirects around)
    rw [redirects.kind_relabel ρ, DeclKind.tag_relabel, redirects.name_relabel ρ,
      draftLocation redirects, ← List.map_append] at shown
    exact shown
  | @bodiless d decl _ context found record around undefined =>
    obtain ⟨changed, redirects, found'⟩ := copies.decl found
    have record' : (changed.relabel ρ).kind.isRecord = true := by
      rw [redirects.kind_relabel ρ, DeclKind.isRecord_relabel, record]
    have shown : s'.Drafted (.decl d) complete _ :=
      .bodiless found' record' (copies.around redirects around) (copies.definition undefined)
    rw [redirects.kind_relabel ρ, DeclKind.tag_relabel, redirects.name_relabel ρ,
      draftLocation redirects] at shown
    rw [Draft.relabel, List.map_cons, List.map_append, List.map_append]
    exact shown
  | @record d decl _ context b scope members found record around defined body listed =>
    obtain ⟨changed, redirects, found'⟩ := copies.decl found
    obtain ⟨scope', redirects', body'⟩ := copies.decl body
    have record' : (changed.relabel ρ).kind.isRecord = true := by
      rw [redirects.kind_relabel ρ, DeclKind.isRecord_relabel, record]
    have shown : s'.Drafted (.decl d) complete _ :=
      .record found' record' (copies.around redirects around) (copies.definition defined) body'
        (copies.memberList redirects' listed)
    rw [redirects.kind_relabel ρ, DeclKind.tag_relabel, redirects.name_relabel ρ,
      draftLocation redirects'] at shown
    rw [Draft.relabel, List.map_cons, List.map_append, List.map_append]
    exact shown
  | @marker d decl _ found kind =>
    obtain ⟨changed, redirects, found'⟩ := copies.decl found
    have same : (changed.relabel ρ).kind = decl.kind := by
      rw [redirects.kind_relabel ρ]
      rcases kind with kind | ⟨name, kind⟩ <;> rw [kind] <;> rfl
    have shown : s'.Drafted (.decl d) complete _ := .marker found' (same ▸ kind)
    rwa [same] at shown
  | builtin found =>
    obtain ⟨changed, redirects, found'⟩ := copies.type found
    cases redirects
    exact .builtin found'
  | @pointer t q e _ found meant =>
    obtain ⟨changed, redirects, found'⟩ := copies.type found
    cases redirects
    have shown : s'.Drafted (.type (t.relabel ρ)) complete
        ⟨.pointer, [.type ⟨e.relabel ρ, false⟩ (q.relabel ρ).quals]⟩ :=
      .pointer found' (copies.target meant)
    exact shown
  | @otherType t type _ found builtin pointer =>
    obtain ⟨changed, redirects, found'⟩ := copies.type found
    have other {type' : TypeKind} (found' : s'.type (t.relabel ρ).type = .ok type')
        (builtin : ∀ name, type' ≠ .builtin name) (pointer : ∀ q, type' ≠ .pointer q)
        (name : type'.name = type.name) :
        s'.Drafted (.type (t.relabel ρ)) complete ⟨.unimplemented, [.typeClass type.name]⟩ := by
      rw [← name]
      exact .otherType found' builtin pointer
    cases redirects with
    | record => exact other found' (by simp [TypeKind.relabel]) (by simp [TypeKind.relabel]) rfl
    | typedef => exact other found' (by simp [TypeKind.relabel]) (by simp [TypeKind.relabel]) rfl
    | same =>
      have same : type.relabel ρ = type := by
        cases type with
        | pointer q => exact absurd rfl (pointer q)
        | _ => rfl
      rw [same] at found'
      exact .otherType found' builtin pointer

theorem mirrors : s.Mirrors ρ s' where
  draft := fun drafted => (copies.drafted (draft_eq_ok.mp drafted)).draft_eq
  fileName := copies.fileName
  canonical := copies.canonical_eq

end Copies

end Snapshot

/-- Copies are dumped as the same text. -/
theorem dump_copied {ρ : Relabelling} (apart : ρ.Injective) {s s' : Snapshot}
    (copies : s.Copies ρ s') (sound : s.Sound) (sound' : s'.Sound) (options : Options)
    (start : Dump.startDecls s' options.startNames = Dump.startDecls s options.startNames) :
    ∃ report report', dump s options = .ok report ∧ dump s' options = .ok report' ∧
      report'.text = report.text ∧ report'.summary = report.summary := by
  obtain ⟨report, ⟨course⟩⟩ := Dump.course_total sound options
  obtain ⟨course'⟩ := course.relabel apart copies.mirrors start
  exact ⟨report, report.relabel ρ, course.dumped sound, course'.dumped sound',
    report.text_relabel ρ, report.summary_relabel ρ⟩

end AstXml
