import AstXml.Draft
import AstXml.Proofs.Index

/-!
The graph behind a dump. Its nodes are the proper entities: canonical declarations, and types
without qualifiers that name no declaration. Its edges are of four kinds, and they lead from one
proper entity to another.
-/
namespace AstXml
open Outcome

namespace DeclKind

variable {kind : DeclKind}

theorem eq_of_typed {q : QualType} (typed : kind.type? = some q) :
    kind = .typedef q ∨ kind = .field q ∨ kind = .variable q := by
  cases kind <;> cases typed <;> simp

theorem eq_of_record (record : kind.isRecord = true) :
    ∃ key isDefinition isInjectedName, kind = .record key isDefinition isInjectedName := by
  cases kind <;> cases record
  exact ⟨_, _, _, rfl⟩

end DeclKind

/-- The nodes that an attribute names. -/
def Attribute.nodes {ν φ : Type} : Attribute ν φ → List ν
  | .type node _ => [node]
  | .context node => [node]
  | .members nodes => nodes
  | _ => []

def Attribute.files {ν φ : Type} : Attribute ν φ → List φ
  | .location file _ => [file]
  | _ => []

def Draft.mentions (draft : Draft) : List Mention := draft.attributes.flatMap (·.nodes)

def Draft.files (draft : Draft) : List FileId := draft.attributes.flatMap (·.files)

namespace Snapshot

/-- The entity that a reference to a type means. -/
def target (s : Snapshot) (q : QualType) : Except Fault Entity := do
  match (← s.type q.type).decl? with
  | some d => return .decl (← s.canonical d)
  | none => return .type q.unqualified

/-- What has a node of its own. -/
def Proper (s : Snapshot) : Entity → Prop
  | .decl d => s.canonical d = .ok d
  | .type t => t = .plain t.type ∧ ∃ type, s.type t.type = .ok type ∧ type.decl? = none

/-- The declaration whose children the element of `d` lists: a namespace lists its own, a record
those of its body. -/
inductive Scope (s : Snapshot) : DeclId → Declaration → Prop
  | own {d decl} (found : s.decl d = .ok decl)
      (space : decl.kind = .translationUnit ∨ decl.kind = .nameSpace) : Scope s d decl
  | body {d decl b scope} (found : s.decl d = .ok decl) (record : decl.kind.isRecord = true)
      (defined : s.definition d = .ok (some b)) (body : s.decl b = .ok scope) : Scope s d scope

/-- From a scope to its members. -/
inductive Lists (s : Snapshot) : Entity → Entity → Prop
  | intro {d scope child member c} (within : s.Scope d scope) (listed : child ∈ scope.children)
      (found : s.decl child = .ok member) (shown : member.kind.isMember = true)
      (canonical : s.canonical child = .ok c) : Lists s (.decl d) (.decl c)

/-- From a typedef, field or variable to what its type means. -/
inductive TypedAs (s : Snapshot) : Entity → Entity → Prop
  | intro {d decl q e} (found : s.decl d = .ok decl) (typed : decl.kind.type? = some q)
      (meant : s.target q = .ok e) : TypedAs s (.decl d) e

/-- From a declaration that has an element of its own kind to the scope around it. -/
inductive StandsIn (s : Snapshot) : Entity → Entity → Prop
  | intro {d decl p c} (found : s.decl d = .ok decl) (shown : decl.kind ≠ .accessSpec)
      (known : ∀ name, decl.kind ≠ .other name) (parent : decl.parent = some p)
      (canonical : s.canonical p = .ok c) : StandsIn s (.decl d) (.decl c)

/-- From a pointer to what its pointee means. -/
inductive PointsTo (s : Snapshot) : Entity → Entity → Prop
  | intro {t q e} (found : s.type t.type = .ok (.pointer q)) (meant : s.target q = .ok e) :
      PointsTo s (.type t) e

variable {s : Snapshot}

/-- The mentions that the edges out of an entity call for, when its element is wanted complete or
not. -/
def Calls (s : Snapshot) (e : Entity) (complete : Bool) (m : Mention) : Prop :=
  m.complete = complete ∧ s.TypedAs e m.entity ∨
  m.complete = false ∧ (s.StandsIn e m.entity ∨ s.PointsTo e m.entity) ∨
  complete = true ∧ m.complete = true ∧ s.Lists e m.entity

theorem scope_of_space {d : DeclId} {decl scope : Declaration} (found : s.decl d = .ok decl)
    (space : decl.kind = .translationUnit ∨ decl.kind = .nameSpace) :
    s.Scope d scope ↔ scope = decl := by
  constructor
  · intro within
    cases within with
    | own found' _ => exact Except.ok.inj (found'.symm.trans found)
    | body found' record _ _ =>
      cases found.symm.trans found'
      rcases space with h | h <;> simp [h, DeclKind.isRecord] at record
  · rintro rfl
    exact .own found space

theorem scope_of_record {d : DeclId} {decl scope : Declaration} (found : s.decl d = .ok decl)
    (record : decl.kind.isRecord = true) :
    s.Scope d scope ↔ ∃ b, s.definition d = .ok (some b) ∧ s.decl b = .ok scope := by
  constructor
  · intro within
    cases within with
    | own found' space =>
      cases found.symm.trans found'
      rcases space with h | h <;> simp [h, DeclKind.isRecord] at record
    | body _ _ defined body => exact ⟨_, defined, body⟩
  · rintro ⟨b, defined, body⟩
    exact .body found record defined body

theorem scope_of_body {d b : DeclId} {decl scope : Declaration} (found : s.decl d = .ok decl)
    (record : decl.kind.isRecord = true) (defined : s.definition d = .ok (some b))
    (body : s.decl b = .ok scope) (other : Declaration) : s.Scope d other ↔ other = scope := by
  rw [scope_of_record found record]
  constructor
  · rintro ⟨b', defined', body'⟩
    cases defined.symm.trans defined'
    exact Except.ok.inj (body'.symm.trans body)
  · rintro rfl
    exact ⟨b, defined, body⟩

/-- What is neither a namespace nor a record lists nothing. -/
theorem not_scope {d : DeclId} {decl : Declaration} (found : s.decl d = .ok decl)
    (leaf : decl.kind.isContainer = false) (scope : Declaration) : ¬ s.Scope d scope := by
  intro within
  cases within with
  | own found' space =>
    cases found.symm.trans found'
    rcases space with h | h <;> rw [h] at leaf <;> cases leaf
  | body found' record =>
    cases found.symm.trans found'
    obtain ⟨_, _, _, kind⟩ := DeclKind.eq_of_record record
    rw [kind] at leaf
    cases leaf

theorem calls_decl_iff {d : DeclId} {decl : Declaration} (found : s.decl d = .ok decl)
    (complete : Bool) (m : Mention) :
    s.Calls (.decl d) complete m ↔
      (∃ q e, decl.kind.type? = some q ∧ s.target q = .ok e ∧ m = ⟨e, complete⟩) ∨
      (decl.kind ≠ .accessSpec ∧ (∀ name, decl.kind ≠ .other name) ∧
        ∃ p c, decl.parent = some p ∧ s.canonical p = .ok c ∧ m = ⟨.decl c, false⟩) ∨
      (complete = true ∧ ∃ scope, s.Scope d scope ∧
        ∃ child ∈ scope.children, ∃ member c, s.decl child = .ok member ∧
          member.kind.isMember = true ∧ s.canonical child = .ok c ∧ m = ⟨.decl c, true⟩) := by
  obtain ⟨e, b⟩ := m
  constructor
  · rintro (⟨rfl, typed⟩ | ⟨rfl, stands | points⟩ | ⟨rfl, rfl, lists⟩)
    · cases typed with
      | intro found' typed meant =>
        cases found.symm.trans found'
        exact .inl ⟨_, _, typed, meant, rfl⟩
    · generalize start : Entity.decl d = from_ at stands
      cases stands with
      | intro found' shown known parent canonical =>
        cases start
        cases found.symm.trans found'
        exact .inr (.inl ⟨shown, known, _, _, parent, canonical, rfl⟩)
    · nomatch points
    · generalize start : Entity.decl d = from_ at lists
      cases lists with
      | intro within listed found' shown canonical =>
        cases start
        exact .inr (.inr ⟨rfl, _, within, _, listed, _, _, found', shown, canonical, rfl⟩)
  · rintro (⟨q, e, typed, meant, same⟩ | ⟨shown, known, p, c, parent, canonical, same⟩ |
      ⟨rfl, scope, within, child, listed, member, c, found', shown, canonical, same⟩)
    · cases same
      exact .inl ⟨rfl, .intro found typed meant⟩
    · cases same
      exact .inr (.inl ⟨rfl, .inl (.intro found shown known parent canonical)⟩)
    · cases same
      exact .inr (.inr ⟨rfl, rfl, .intro within listed found' shown canonical⟩)

theorem calls_type_iff {t : QualType} {type : TypeKind} (found : s.type t.type = .ok type)
    (complete : Bool) (m : Mention) : s.Calls (.type t) complete m ↔
      ∃ q e, type = .pointer q ∧ s.target q = .ok e ∧ m = ⟨e, false⟩ := by
  obtain ⟨e, b⟩ := m
  constructor
  · rintro (⟨_, typed⟩ | ⟨rfl, stands | points⟩ | ⟨_, _, lists⟩)
    · nomatch typed
    · nomatch stands
    · cases points with
      | intro found' meant =>
        cases found.symm.trans found'
        exact ⟨_, _, rfl, meant, rfl⟩
    · nomatch lists
  · rintro ⟨q, e', rfl, meant, same⟩
    cases same
    exact .inr (.inl ⟨rfl, .inr (.intro found meant)⟩)

theorem inside_of_child (sound : s.Sound) {d : DeclId} {decl : Declaration}
    (found : s.decl d = .ok decl) : ∀ child ∈ decl.children, s.HasDecl child :=
  fun _ listed => sound.wellFormed.child_lt (decl_eq_ok.mp found) listed

section Proper

variable (sound : s.Sound)
include sound

theorem target_total {q : QualType} (inside : s.HasType q.type) : ∃ e, s.target q = .ok e := by
  obtain ⟨type, found⟩ := type_total inside
  unfold target
  rw [found, ok_bind]
  cases named : type.decl? with
  | none => exact ⟨_, rfl⟩
  | some d =>
    obtain ⟨c, hc, _⟩ := sound.canonical_total
      (sound.wellFormed.named_lt (type_eq_ok.mp found) named)
    exact ⟨.decl c, by simp only [hc, ok_bind]; rfl⟩

theorem target_proper {q : QualType} {e : Entity} (meant : s.target q = .ok e) : s.Proper e := by
  simp only [target, bind_eq_ok] at meant
  obtain ⟨type, found, meant⟩ := meant
  split at meant
  · obtain ⟨c, hc, same⟩ := bind_eq_ok.mp meant
    cases pure_eq_ok.mp same
    exact sound.canonical_idem hc
  · rename_i unnamed
    cases pure_eq_ok.mp meant
    exact ⟨rfl, type, found, unnamed⟩

theorem typedAs_proper {e e' : Entity} (typed : s.TypedAs e e') : s.Proper e' := by
  cases typed with
  | intro _ _ meant => exact target_proper sound meant

theorem standsIn_proper {e e' : Entity} (stands : s.StandsIn e e') : s.Proper e' := by
  cases stands with
  | intro _ _ _ _ canonical => exact sound.canonical_idem canonical

theorem pointsTo_proper {e e' : Entity} (points : s.PointsTo e e') : s.Proper e' := by
  cases points with
  | intro _ meant => exact target_proper sound meant

theorem lists_proper {e e' : Entity} (lists : s.Lists e e') : s.Proper e' := by
  cases lists with
  | intro _ _ _ _ canonical => exact sound.canonical_idem canonical

theorem calls_proper {e : Entity} {complete : Bool} {m : Mention} (called : s.Calls e complete m) :
    s.Proper m.entity := by
  rcases called with ⟨_, typed⟩ | ⟨_, stands | points⟩ | ⟨_, _, lists⟩
  · exact typedAs_proper sound typed
  · exact standsIn_proper sound stands
  · exact pointsTo_proper sound points
  · exact lists_proper sound lists

end Proper

end Snapshot

end AstXml
