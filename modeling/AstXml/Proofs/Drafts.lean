import AstXml.Proofs.Graph

/-!
Drafts as the edges of the graph. `Drafted` tells every shape that a draft can have. By it a draft
mentions exactly the targets of the edges that leave its entity, every source file it names exists,
and every proper entity has a draft.
-/
namespace AstXml
open Outcome

namespace DeclKind

/-- The tag that the element of a declaration has. -/
def tag : DeclKind → Tag
  | .translationUnit | .nameSpace => .nameSpace
  | .typedef _ => .typedef
  | .record key .. => .record key
  | .field _ => .field
  | .variable _ => .variable
  | .accessSpec | .other _ => .unimplemented

variable {kind : DeclKind}

theorem tag_of_typed {q : QualType} (typed : kind.type? = some q) :
    kind.tag ≠ .nameSpace ∧ ∀ key, kind.tag ≠ .record key := by
  rcases eq_of_typed typed with rfl | rfl | rfl <;> exact ⟨nofun, nofun⟩

theorem tag_of_record (record : kind.isRecord = true) : ∃ key, kind.tag = .record key := by
  obtain ⟨key, _, _, rfl⟩ := eq_of_record record
  exact ⟨key, rfl⟩

theorem isRecord_of_typed {q : QualType} (typed : kind.type? = some q) :
    kind.isRecord = false := by
  rcases eq_of_typed typed with rfl | rfl | rfl <;> rfl

end DeclKind

namespace Snapshot

variable {s : Snapshot}

/-! What a reference is drafted as. -/

theorem mentionDecl_eq_ok {d : DeclId} {complete : Bool} {m : Mention} :
    s.mentionDecl d complete = .ok m ↔ ∃ c, s.canonical d = .ok c ∧ m = ⟨.decl c, complete⟩ := by
  simp only [mentionDecl, bind_eq_ok, pure_eq_ok, eq_comm (b := m)]

theorem mentionType_eq_ok {q : QualType} {complete : Bool} {m : Mention} :
    s.mentionType q complete = .ok m ↔ s.target q = .ok m.entity ∧ m.complete = complete := by
  obtain ⟨e, b⟩ := m
  unfold mentionType target
  cases s.type q.type with
  | error fault => simp [bind, Except.bind]
  | ok type =>
    simp only [ok_bind]
    cases type.decl? with
    | none => simp [pure, Except.pure, eq_comm]
    | some d =>
      simp only [mentionDecl_eq_ok, bind_eq_ok, pure_eq_ok, Mention.mk.injEq]
      constructor
      · rintro ⟨c, hc, rfl, rfl⟩
        exact ⟨⟨c, hc, rfl⟩, rfl⟩
      · rintro ⟨⟨c, hc, rfl⟩, rfl⟩
        exact ⟨c, hc, rfl, rfl⟩

theorem draftType_eq_ok {q : QualType} {complete : Bool} {a : DraftAttribute} :
    s.draftType q complete = .ok a ↔
      ∃ e, s.target q = .ok e ∧ a = .type ⟨e, complete⟩ q.quals := by
  simp only [draftType, bind_eq_ok, pure_eq_ok]
  constructor
  · rintro ⟨m, hm, rfl⟩
    obtain ⟨meant, rfl⟩ := mentionType_eq_ok.mp hm
    exact ⟨m.entity, meant, rfl⟩
  · rintro ⟨e, meant, rfl⟩
    exact ⟨⟨e, complete⟩, mentionType_eq_ok.mpr ⟨meant, rfl⟩, rfl⟩

/-! The shape of every draft, and of the parts that it is put together from. -/

/-- What a draft says of the scope around its declaration. -/
inductive Around (s : Snapshot) (decl : Declaration) : List DraftAttribute → Prop
  | outermost (parent : decl.parent = none) : Around s decl []
  | scope {p c parent} (inside : decl.parent = some p) (canonical : s.canonical p = .ok c)
      (written : s.decl p = .ok parent) (other : parent.kind.isRecord = false) :
      Around s decl [.context ⟨.decl c, false⟩]
  | record {p c parent} (inside : decl.parent = some p) (canonical : s.canonical p = .ok c)
      (written : s.decl p = .ok parent) (record : parent.kind.isRecord = true) :
      Around s decl [.context ⟨.decl c, false⟩, .access decl.access]

theorem draftContext_eq_ok {decl : Declaration} {context : List DraftAttribute} :
    s.draftContext decl = .ok context ↔ s.Around decl context := by
  unfold draftContext
  constructor
  · intro drafted
    split at drafted
    case h_1 outermost =>
      cases pure_eq_ok.mp drafted
      exact .outermost outermost
    case h_2 p inside =>
      simp only [bind_eq_ok, pure_eq_ok, mentionDecl_eq_ok] at drafted
      obtain ⟨_, ⟨c, canonical, rfl⟩, parent, written, rfl⟩ := drafted
      cases kind : parent.kind.isRecord with
      | false => exact .scope inside canonical written kind
      | true => exact .record inside canonical written kind
  · intro around
    cases around with
    | outermost parent =>
      rw [parent]
      rfl
    | scope inside canonical written kind =>
      simp only [inside, mentionDecl_eq_ok.mpr ⟨_, canonical, rfl⟩, written, ok_bind, kind]
      rfl
    | record inside canonical written kind =>
      simp only [inside, mentionDecl_eq_ok.mpr ⟨_, canonical, rfl⟩, written, ok_bind, kind]
      rfl

/-- What a draft lists of a scope: its members if it is wanted complete, and nothing else. -/
inductive MemberList (s : Snapshot) (scope : Declaration) : Bool → List DraftAttribute → Prop
  | stub : MemberList s scope false []
  | whole {children members}
      (kept : scope.children.filterM (fun child => return (← s.decl child).kind.isMember) =
        .ok children)
      (mentioned : children.mapM (s.mentionDecl · true) = .ok members) :
      MemberList s scope true [.members members]

theorem draftMembers_eq_ok {scope : Declaration} {complete : Bool}
    {members : List DraftAttribute} :
    s.draftMembers scope complete = .ok members ↔ s.MemberList scope complete members := by
  unfold draftMembers
  constructor
  · intro drafted
    cases complete with
    | false =>
      cases pure_eq_ok.mp drafted
      exact .stub
    | true =>
      simp only [if_true, bind_eq_ok, pure_eq_ok] at drafted
      obtain ⟨children, kept, ms, mentioned, rfl⟩ := drafted
      exact .whole kept mentioned
  · intro listed
    cases listed with
    | stub => rfl
    | whole kept mentioned =>
      simp only [if_true, kept, ok_bind, mentioned]
      rfl

/-- All that a draft can be. -/
inductive Drafted (s : Snapshot) : Entity → Bool → Draft → Prop
  | space {d decl name complete context members} (found : s.decl d = .ok decl)
      (kind : decl.kind = .translationUnit ∧ name = "::" ∨
        decl.kind = .nameSpace ∧ name = decl.name)
      (around : s.Around decl context) (listed : s.MemberList decl complete members) :
      Drafted s (.decl d) complete ⟨.nameSpace, .name name :: (context ++ members)⟩
  | typed {d decl q e complete context} (found : s.decl d = .ok decl)
      (typed : decl.kind.type? = some q) (meant : s.target q = .ok e)
      (around : s.Around decl context) :
      Drafted s (.decl d) complete ⟨decl.kind.tag,
        .name decl.name :: .type ⟨e, complete⟩ q.quals :: (context ++ draftLocation decl)⟩
  | bodiless {d decl complete context} (found : s.decl d = .ok decl)
      (record : decl.kind.isRecord = true) (around : s.Around decl context)
      (undefined : s.definition d = .ok none) :
      Drafted s (.decl d) complete ⟨decl.kind.tag,
        .name decl.name :: (context ++ draftLocation decl ++ [.incomplete])⟩
  | record {d decl complete context b scope members} (found : s.decl d = .ok decl)
      (record : decl.kind.isRecord = true) (around : s.Around decl context)
      (defined : s.definition d = .ok (some b)) (body : s.decl b = .ok scope)
      (listed : s.MemberList scope complete members) :
      Drafted s (.decl d) complete ⟨decl.kind.tag,
        .name decl.name :: (context ++ draftLocation scope ++ members)⟩
  | marker {d decl complete} (found : s.decl d = .ok decl)
      (kind : decl.kind = .accessSpec ∨ ∃ name, decl.kind = .other name) :
      Drafted s (.decl d) complete ⟨.unimplemented, [.kind decl.kind.name]⟩
  | builtin {t name complete} (found : s.type t.type = .ok (.builtin name)) :
      Drafted s (.type t) complete ⟨.fundamental, [.name name]⟩
  | pointer {t q e complete} (found : s.type t.type = .ok (.pointer q))
      (meant : s.target q = .ok e) :
      Drafted s (.type t) complete ⟨.pointer, [.type ⟨e, false⟩ q.quals]⟩
  | otherType {t type complete} (found : s.type t.type = .ok type)
      (builtin : ∀ name, type ≠ .builtin name) (pointer : ∀ q, type ≠ .pointer q) :
      Drafted s (.type t) complete ⟨.unimplemented, [.typeClass type.name]⟩

section Shape

variable {d : DeclId} {decl : Declaration} (found : s.decl d = .ok decl) {complete : Bool}
  {draft : Draft}
include found

theorem drafted_of_scope {name : String}
    (kind : decl.kind = .translationUnit ∧ name = "::" ∨ decl.kind = .nameSpace ∧ name = decl.name)
    (drafted : s.draftScope decl name complete = .ok draft) :
    s.Drafted (.decl d) complete draft := by
  simp only [draftScope, bind_eq_ok, pure_eq_ok, draftContext_eq_ok, draftMembers_eq_ok] at drafted
  obtain ⟨context, around, members, listed, rfl⟩ := drafted
  exact .space found kind around listed

theorem drafted_of_typed {tag : Tag} {q : QualType} (typed : decl.kind.type? = some q)
    (tagged : decl.kind.tag = tag) (drafted : s.draftTyped tag decl q complete = .ok draft) :
    s.Drafted (.decl d) complete draft := by
  simp only [draftTyped, bind_eq_ok, pure_eq_ok, draftType_eq_ok, draftContext_eq_ok] at drafted
  obtain ⟨_, ⟨e, meant, rfl⟩, context, around, rfl⟩ := drafted
  subst tagged
  exact .typed found typed meant around

theorem drafted_of_record {key : ClassKey} (record : decl.kind.isRecord = true)
    (tagged : decl.kind.tag = .record key)
    (drafted : s.draftRecord d decl key complete = .ok draft) :
    s.Drafted (.decl d) complete draft := by
  simp only [draftRecord, bind_eq_ok, draftContext_eq_ok] at drafted
  obtain ⟨context, around, body, defined, drafted⟩ := drafted
  rw [← tagged] at drafted
  cases body with
  | none =>
    cases pure_eq_ok.mp drafted
    exact .bodiless found record around defined
  | some b =>
    simp only [bind_eq_ok, pure_eq_ok, draftMembers_eq_ok] at drafted
    obtain ⟨scope, body, members, listed, rfl⟩ := drafted
    exact .record found record around defined body listed

end Shape

theorem drafted_of_decl {d : DeclId} {complete : Bool} {draft : Draft}
    (drafted : s.draftDecl d complete = .ok draft) : s.Drafted (.decl d) complete draft := by
  obtain ⟨decl, found, drafted⟩ := bind_eq_ok.mp drafted
  split at drafted <;> rename_i kind
  case h_1 => exact drafted_of_scope found (.inl ⟨kind, rfl⟩) drafted
  case h_2 => exact drafted_of_scope found (.inr ⟨kind, rfl⟩) drafted
  case h_6 => exact drafted_of_record found (by rw [kind]; rfl) (by rw [kind]; rfl) drafted
  case h_7 =>
    cases pure_eq_ok.mp drafted
    exact .marker found (.inl kind)
  case h_8 =>
    cases pure_eq_ok.mp drafted
    exact .marker found (.inr ⟨_, kind⟩)
  all_goals exact drafted_of_typed found (by rw [kind]; rfl) (by rw [kind]; rfl) drafted

theorem drafted_of_type {t : QualType} {complete : Bool} {draft : Draft}
    (drafted : s.draftTypeKind t.type = .ok draft) : s.Drafted (.type t) complete draft := by
  obtain ⟨type, found, drafted⟩ := bind_eq_ok.mp drafted
  split at drafted
  · cases pure_eq_ok.mp drafted
    exact .builtin found
  · simp only [bind_eq_ok, pure_eq_ok, draftType_eq_ok] at drafted
    obtain ⟨_, ⟨e, meant, rfl⟩, rfl⟩ := drafted
    exact .pointer found meant
  · cases pure_eq_ok.mp drafted
    exact .otherType found ‹_› ‹_›

/-- What has the shape of a draft is the draft. -/
theorem Drafted.draft_eq {e : Entity} {complete : Bool} {draft : Draft}
    (drafted : s.Drafted e complete draft) : s.draft e complete = .ok draft := by
  cases drafted with
  | @space _ decl name _ context members found kind around listed =>
    have scope : s.draftScope decl name complete =
        .ok ⟨.nameSpace, .name name :: (context ++ members)⟩ := by
      rw [draftScope, draftContext_eq_ok.mpr around, ok_bind, draftMembers_eq_ok.mpr listed]
      rfl
    rcases kind with ⟨kind, rfl⟩ | ⟨kind, rfl⟩ <;>
      simpa only [Snapshot.draft, draftDecl, found, ok_bind, kind] using scope
  | @typed _ decl q e _ context found typed meant around =>
    have shape : s.draftTyped decl.kind.tag decl q complete = .ok ⟨decl.kind.tag,
        .name decl.name :: .type ⟨e, complete⟩ q.quals :: (context ++ draftLocation decl)⟩ := by
      rw [draftTyped, draftType_eq_ok.mpr ⟨e, meant, rfl⟩, ok_bind,
        draftContext_eq_ok.mpr around]
      rfl
    rw [Snapshot.draft, draftDecl, found, ok_bind, ← shape]
    rcases DeclKind.eq_of_typed typed with kind | kind | kind <;> rw [kind] <;> rfl
  | @bodiless d decl _ context found record around undefined =>
    obtain ⟨_, _, _, kind⟩ := DeclKind.eq_of_record record
    simp only [Snapshot.draft, draftDecl, found, ok_bind, kind, draftRecord,
      draftContext_eq_ok.mpr around, undefined]
    rfl
  | @record d decl _ context b scope members found record around defined body listed =>
    obtain ⟨_, _, _, kind⟩ := DeclKind.eq_of_record record
    simp only [Snapshot.draft, draftDecl, found, ok_bind, kind, draftRecord,
      draftContext_eq_ok.mpr around, defined, body, draftMembers_eq_ok.mpr listed]
    rfl
  | marker found kind =>
    rcases kind with kind | ⟨name, kind⟩ <;>
      simp only [Snapshot.draft, draftDecl, found, ok_bind, kind] <;> rfl
  | builtin found =>
    simp only [Snapshot.draft, draftTypeKind, found, ok_bind]
    rfl
  | pointer found meant =>
    simp only [Snapshot.draft, draftTypeKind, found, ok_bind,
      draftType_eq_ok.mpr ⟨_, meant, rfl⟩]
    rfl
  | @otherType t type _ found builtin pointer =>
    rw [Snapshot.draft, draftTypeKind, found, ok_bind]
    cases type with
    | builtin name => exact absurd rfl (builtin name)
    | pointer q => exact absurd rfl (pointer q)
    | _ => rfl

/-- The shape of a draft, and so the one lemma by which all that drafts show is told apart. -/
theorem draft_eq_ok {e : Entity} {complete : Bool} {draft : Draft} :
    s.draft e complete = .ok draft ↔ s.Drafted e complete draft := by
  refine ⟨fun drafted => ?_, Drafted.draft_eq⟩
  cases e with
  | decl d => exact drafted_of_decl drafted
  | type t => exact drafted_of_type drafted

/-! What each part of a draft mentions. -/

theorem Around.mem_nodes {decl : Declaration} {context : List DraftAttribute}
    (around : s.Around decl context) (m : Mention) : m ∈ context.flatMap (·.nodes) ↔
      ∃ p c, decl.parent = some p ∧ s.canonical p = .ok c ∧ m = ⟨.decl c, false⟩ := by
  have single {p c : DeclId} (inside : decl.parent = some p) (canonical : s.canonical p = .ok c) :
      m = ⟨.decl c, false⟩ ↔
        ∃ p c, decl.parent = some p ∧ s.canonical p = .ok c ∧ m = ⟨.decl c, false⟩ := by
    constructor
    · exact fun same => ⟨p, c, inside, canonical, same⟩
    · rintro ⟨p', c', inside', canonical', rfl⟩
      cases inside.symm.trans inside'
      cases canonical.symm.trans canonical'
      rfl
  cases around with
  | outermost parent => simp [parent]
  | scope inside canonical => simpa [Attribute.nodes] using single inside canonical
  | record inside canonical => simpa [Attribute.nodes] using single inside canonical

theorem mem_location (decl : Declaration) (m : Mention) :
    m ∉ (draftLocation decl).flatMap (·.nodes) := by
  unfold draftLocation
  cases decl.location <;> simp [Attribute.nodes]

theorem MemberList.mem_nodes {scope : Declaration} {complete : Bool}
    {members : List DraftAttribute} (listed : s.MemberList scope complete members)
    (inside : ∀ child ∈ scope.children, s.HasDecl child) (m : Mention) :
    m ∈ members.flatMap (·.nodes) ↔ complete = true ∧
      ∃ child ∈ scope.children, ∃ member c, s.decl child = .ok member ∧
        member.kind.isMember = true ∧ s.canonical child = .ok c ∧ m = ⟨.decl c, true⟩ := by
  cases listed with
  | stub => simp
  | whole filtered mapped =>
    obtain ⟨_, filtered', kept⟩ := filterDecls_total inside (·.kind.isMember)
    cases filtered'.symm.trans filtered
    simp only [List.flatMap_cons, Attribute.nodes, List.flatMap_nil, List.append_nil,
      mem_mapM mapped, kept, mentionDecl_eq_ok, true_and]
    constructor
    · rintro ⟨child, ⟨listed, member, found, shown⟩, c, hc, rfl⟩
      exact ⟨child, listed, member, c, found, shown, hc, rfl⟩
    · rintro ⟨child, listed, member, c, found, shown, hc, rfl⟩
      exact ⟨child, ⟨listed, member, found, shown⟩, c, hc, rfl⟩

/-! Together the parts of a draft mention what the edges call for. -/

/-- A draft mentions exactly what the edges out of its entity call for. -/
theorem mem_mentions (sound : s.Sound) {e : Entity} {complete : Bool} {draft : Draft}
    (drafted : s.draft e complete = .ok draft) (m : Mention) :
    m ∈ draft.mentions ↔ s.Calls e complete m := by
  cases draft_eq_ok.mp drafted with
  | @space d decl name _ context members found kind around listed =>
    have space := kind.imp And.left And.left
    change m ∈ (context ++ members).flatMap (·.nodes) ↔ _
    rw [List.flatMap_append, List.mem_append, around.mem_nodes,
      listed.mem_nodes (inside_of_child sound found), calls_decl_iff found]
    simp only [scope_of_space found space, exists_eq_left]
    rcases space with h | h <;> simp [h, DeclKind.type?]
  | @typed d decl q e _ context found typed meant around =>
    change m ∈ ⟨e, complete⟩ :: (context ++ draftLocation decl).flatMap (·.nodes) ↔ _
    rw [List.mem_cons, List.flatMap_append, List.mem_append, around.mem_nodes,
      calls_decl_iff found]
    have target : (∃ q e, decl.kind.type? = some q ∧ s.target q = .ok e ∧ m = ⟨e, complete⟩) ↔
        m = ⟨e, complete⟩ := by
      simp [typed, meant, eq_comm]
    simp only [target, mem_location, or_false]
    rcases DeclKind.eq_of_typed typed with kind | kind | kind <;>
      simp [kind, not_scope found (by rw [kind]; rfl)]
  | @bodiless d decl _ context found record around undefined =>
    change m ∈ (context ++ draftLocation decl ++ [Attribute.incomplete]).flatMap
      (fun a : DraftAttribute => a.nodes) ↔ _
    rw [List.flatMap_append, List.flatMap_append, List.mem_append, List.mem_append,
      around.mem_nodes, calls_decl_iff found]
    simp only [scope_of_record found record, undefined, mem_location]
    obtain ⟨_, _, _, kind⟩ := DeclKind.eq_of_record record
    simp [kind, DeclKind.type?, Attribute.nodes]
  | @record d decl _ context b scope members found record around defined body listed =>
    change m ∈ (context ++ draftLocation scope ++ members).flatMap (·.nodes) ↔ _
    rw [List.flatMap_append, List.flatMap_append, List.mem_append, List.mem_append,
      around.mem_nodes, listed.mem_nodes (inside_of_child sound body), calls_decl_iff found]
    simp only [scope_of_body found record defined body, exists_eq_left, mem_location]
    obtain ⟨_, _, _, kind⟩ := DeclKind.eq_of_record record
    simp [kind, DeclKind.type?]
  | @marker d decl _ found kind =>
    rw [calls_decl_iff found]
    rcases kind with kind | ⟨name, kind⟩ <;>
      simp [Draft.mentions, Attribute.nodes, kind, DeclKind.type?,
        not_scope found (by rw [kind]; rfl)]
  | builtin found => simp [calls_type_iff found, Draft.mentions, Attribute.nodes]
  | pointer found meant =>
    rw [calls_type_iff found]
    simp [Draft.mentions, Attribute.nodes, meant, eq_comm]
  | otherType found builtin pointer =>
    rw [calls_type_iff found]
    simp [Draft.mentions, Attribute.nodes, pointer]

/-! Every proper entity has a draft. -/

section Totality

variable (sound : s.Sound)
include sound

theorem around_total {d : DeclId} {decl : Declaration} (found : s.decl d = .ok decl) :
    ∃ context, s.Around decl context := by
  cases parent : decl.parent with
  | none => exact ⟨_, .outermost parent⟩
  | some p =>
    have inside : s.HasDecl p := sound.wellFormed.parent_lt (decl_eq_ok.mp found) parent
    obtain ⟨c, canonical, _⟩ := sound.canonical_total inside
    obtain ⟨scope, written⟩ := decl_total inside
    cases kind : scope.kind.isRecord with
    | false => exact ⟨_, .scope parent canonical written kind⟩
    | true => exact ⟨_, .record parent canonical written kind⟩

theorem memberList_total {d : DeclId} {scope : Declaration} (found : s.decl d = .ok scope)
    (complete : Bool) : ∃ members, s.MemberList scope complete members := by
  cases complete with
  | false => exact ⟨_, .stub⟩
  | true =>
    have inside := inside_of_child sound found
    obtain ⟨children, filtered, kept⟩ := filterDecls_total inside (·.kind.isMember)
    obtain ⟨members, mapped⟩ := mapM_total (f := (s.mentionDecl · true)) fun child member => by
      obtain ⟨c, canonical, _⟩ := sound.canonical_total (inside child ((kept child).mp member).1)
      exact ⟨_, mentionDecl_eq_ok.mpr ⟨c, canonical, rfl⟩⟩
    exact ⟨_, .whole filtered mapped⟩

theorem drafted_total_decl {d : DeclId} (inside : s.HasDecl d) (complete : Bool) :
    ∃ draft, s.Drafted (.decl d) complete draft := by
  obtain ⟨decl, found⟩ := decl_total inside
  obtain ⟨context, around⟩ := around_total sound found
  have typed {q : QualType} (typed : decl.kind.type? = some q) :
      ∃ draft, s.Drafted (.decl d) complete draft := by
    obtain ⟨e, meant⟩ := target_total sound (sound.wellFormed.type_lt (decl_eq_ok.mp found) typed)
    exact ⟨_, .typed found typed meant around⟩
  cases kind : decl.kind with
  | translationUnit =>
    obtain ⟨members, listed⟩ := memberList_total sound found complete
    exact ⟨_, .space found (.inl ⟨kind, rfl⟩) around listed⟩
  | nameSpace =>
    obtain ⟨members, listed⟩ := memberList_total sound found complete
    exact ⟨_, .space found (.inr ⟨kind, rfl⟩) around listed⟩
  | record =>
    have record : decl.kind.isRecord = true := by rw [kind]; rfl
    obtain ⟨body, defined, inside⟩ := sound.definition_total (hasDecl_of_decl found)
    cases body with
    | none => exact ⟨_, .bodiless found record around defined⟩
    | some b =>
      obtain ⟨scope, body⟩ := decl_total (inside b rfl)
      obtain ⟨members, listed⟩ := memberList_total sound body complete
      exact ⟨_, .record found record around defined body listed⟩
  | accessSpec => exact ⟨_, .marker found (.inl kind)⟩
  | other name => exact ⟨_, .marker found (.inr ⟨name, kind⟩)⟩
  | typedef q => exact typed (by rw [kind]; rfl)
  | field q => exact typed (by rw [kind]; rfl)
  | «variable» q => exact typed (by rw [kind]; rfl)

theorem drafted_total_type {t : QualType} (inside : s.HasType t.type) (complete : Bool) :
    ∃ draft, s.Drafted (.type t) complete draft := by
  obtain ⟨type, found⟩ := type_total inside
  cases type with
  | builtin name => exact ⟨_, .builtin found⟩
  | pointer q =>
    obtain ⟨e, meant⟩ := target_total sound (sound.wellFormed.pointee_lt (type_eq_ok.mp found))
    exact ⟨_, .pointer found meant⟩
  | _ => exact ⟨_, .otherType found nofun nofun⟩

theorem draft_total {e : Entity} (proper : s.Proper e) (complete : Bool) :
    ∃ draft, s.draft e complete = .ok draft := by
  simp only [draft_eq_ok]
  cases e with
  | decl d => exact drafted_total_decl sound (sound.hasDecl_of_canonical proper) complete
  | type t =>
    obtain ⟨_, type, found, _⟩ := proper
    exact drafted_total_type sound (Array.getElem?_eq_some_iff.mp (type_eq_ok.mp found)).1 complete

end Totality

/-! The source files of a draft. -/

theorem Around.files {decl : Declaration} {context : List DraftAttribute}
    (around : s.Around decl context) : context.flatMap (·.files) = [] := by
  cases around <;> rfl

theorem MemberList.files {scope : Declaration} {complete : Bool} {members : List DraftAttribute}
    (listed : s.MemberList scope complete members) : members.flatMap (·.files) = [] := by
  cases listed <;> rfl

theorem files_location (sound : s.Sound) {d : DeclId} {decl : Declaration}
    (found : s.decl d = .ok decl) : ∀ file ∈ (draftLocation decl).flatMap (·.files),
      s.HasFile file := by
  unfold draftLocation
  cases located : decl.location with
  | none => simp
  | some l =>
    intro file member
    have same : file = l.shown.file := by simpa [Attribute.files] using member
    exact same ▸ sound.wellFormed.location_lt (decl_eq_ok.mp found) located

/-- A draft names existing source files only. -/
theorem draft_files (sound : s.Sound) {e : Entity} {complete : Bool} {draft : Draft}
    (drafted : s.draft e complete = .ok draft) : ∀ file ∈ draft.files, s.HasFile file := by
  have empty {a : DraftAttribute} (nowhere : a.files = []) (rest : List DraftAttribute) :
      (a :: rest).flatMap (·.files) = rest.flatMap (·.files) := by
    rw [List.flatMap_cons, nowhere, List.nil_append]
  rw [Draft.files]
  cases draft_eq_ok.mp drafted with
  | space _ _ around listed =>
    rw [empty rfl, List.flatMap_append, around.files, listed.files]
    simp
  | typed found _ _ around =>
    rw [empty rfl, empty rfl, List.flatMap_append, around.files, List.nil_append]
    exact files_location sound found
  | bodiless found _ around =>
    rw [empty rfl, List.flatMap_append, List.flatMap_append, around.files, List.nil_append,
      empty rfl, List.flatMap_nil, List.append_nil]
    exact files_location sound found
  | record _ _ around _ body listed =>
    rw [empty rfl, List.flatMap_append, List.flatMap_append, around.files, listed.files,
      List.nil_append, List.append_nil]
    exact files_location sound body
  | _ => simp [Attribute.files]

end Snapshot

end AstXml
