import Mathlib.Logic.Relation
import AstXml.Proofs.Index

/-!
Chains of redeclarations. The canonical declaration of an entity is where the `previous` links of
all its declarations end, so two declarations are of one entity exactly if links connect them. Its
definition is the first of its declarations that carries a body.
-/
namespace AstXml.Snapshot
open Outcome

variable {s : Snapshot} {d c : DeclId}

theorem Ends.unlinked (ends : s.Ends d c) :
    ∃ first, s.decl c = .ok first ∧ first.previous = none := by
  induction ends with
  | first found unlinked => exact ⟨_, found, unlinked⟩
  | link _ _ ih => exact ih

theorem Ends.connected (ends : s.Ends d c) : Relation.EqvGen s.Links d c := by
  induction ends with
  | first => exact .refl _
  | link redeclares _ ih => exact .trans _ _ _ (.rel _ _ redeclares) ih

namespace Sound

variable (sound : s.Sound)
include sound

theorem earlier_of_ends (ends : s.Ends d c) : c.index ≤ d.index := by
  induction ends with
  | first => exact Nat.le_refl _
  | link redeclares _ ih =>
    have earlier := sound.earlier_of_link redeclares
    omega

/-- The canonical declaration is the end of the chain. -/
theorem canonical_iff_ends : s.canonical d = .ok c ↔ s.Ends d c := by
  constructor
  · intro canonical
    obtain ⟨c', ends⟩ := sound.ends_total (sound.hasDecl_of_canonical canonical)
    cases canonical.symm.trans (sound.canonical_of_ends ends).1
    exact ends
  · exact fun ends => (sound.canonical_of_ends ends).1

/-- A link, taken in either direction, stays with the entity. -/
theorem canonical_of_connected {d' : DeclId} (connected : Relation.EqvGen s.Links d d') :
    s.canonical d = .ok c ↔ s.canonical d' = .ok c := by
  induction connected with
  | rel _ _ redeclares => exact sound.canonical_of_link redeclares
  | refl => exact Iff.rfl
  | symm _ _ _ ih => exact ih.symm
  | trans _ _ _ _ _ first second => exact first.trans second

theorem canonical_eq_iff {d' : DeclId} (inside : s.HasDecl d) :
    s.canonical d = s.canonical d' ↔ Relation.EqvGen s.Links d d' := by
  obtain ⟨c, canonical, _⟩ := sound.canonical_total inside
  rw [canonical]
  constructor
  · intro same
    have here := sound.canonical_iff_ends.mp canonical
    have there := sound.canonical_iff_ends.mp same.symm
    exact .trans _ c _ here.connected (.symm _ _ there.connected)
  · intro connected
    exact ((sound.canonical_of_connected connected).mp canonical).symm

end Sound

section Definitions

variable {document : Document} (indexed : ofDocument document = .ok s) (sound : s.Sound)
  {decl : Declaration} (found : s.decl d = .ok decl) (record : decl.kind.isRecord = true)
  (canonical : s.canonical d = .ok c)
include indexed sound found record canonical

theorem definition_eq_none_iff :
    s.definition d = .ok none ↔ ∀ b body, ¬ s.Defines c b body := by
  rw [definition_of_canonical found record canonical]
  constructor
  · exact fun noted => not_defines_of_body indexed sound noted
  · intro bodiless
    cases noted : s.bodies[c.index]? with
    | none =>
      have bound := sound.hasDecl_of_canonical (sound.canonical_idem canonical)
      rw [HasDecl, ← sound.bodies_within.1] at bound
      exact absurd noted (by simp [bound])
    | some body =>
      cases body with
      | none => rfl
      | some b =>
        obtain ⟨⟨body, defines⟩, _⟩ := first_of_body indexed sound noted
        exact absurd defines (bodiless b body)

theorem definition_eq_some_iff {b : DeclId} :
    s.definition d = .ok (some b) ↔ (∃ body, s.Defines c b body) ∧
      ∀ other body, s.Defines c other body → b.index ≤ other.index := by
  constructor
  · intro defined
    exact first_of_body indexed sound
      ((definition_of_canonical found record canonical).mp defined)
  · rintro ⟨⟨body, defines⟩, first⟩
    obtain ⟨definition, defined, _⟩ := sound.definition_total (hasDecl_of_decl found)
    cases definition with
    | none =>
      have bodiless := (definition_eq_none_iff indexed sound found record canonical).mp defined
      exact absurd defines (bodiless b body)
    | some b' =>
      -- both are the first body, so they are the same declaration
      obtain ⟨⟨body', defines'⟩, first'⟩ := first_of_body indexed sound
        ((definition_of_canonical found record canonical).mp defined)
      have here := first b' body' defines'
      have there := first' b body defines
      obtain rfl : b' = b := DeclId.index_inj.mp (by omega)
      exact defined

end Definitions

/-- What an index knows of redeclarations. -/
structure Resolves (s : Snapshot) : Prop where
  total : ∀ d, s.HasDecl d → ∃ c, s.canonical d = .ok c
  ends : ∀ d c, s.canonical d = .ok c ↔ s.Ends d c
  earlier : ∀ d c, s.canonical d = .ok c → c.index ≤ d.index
  unlinked : ∀ d c, s.canonical d = .ok c → ∃ first, s.decl c = .ok first ∧ first.previous = none
  idempotent : ∀ d c, s.canonical d = .ok c → s.canonical c = .ok c
  connected : ∀ d d', s.HasDecl d → s.HasDecl d' →
    (s.canonical d = s.canonical d' ↔ Relation.EqvGen s.Links d d')
  bodiless : ∀ d decl c, s.decl d = .ok decl → decl.kind.isRecord = true →
    s.canonical d = .ok c → (s.definition d = .ok none ↔ ∀ b body, ¬ s.Defines c b body)
  defined : ∀ d decl c b, s.decl d = .ok decl → decl.kind.isRecord = true →
    s.canonical d = .ok c → (s.definition d = .ok (some b) ↔ (∃ body, s.Defines c b body) ∧
      ∀ other body, s.Defines c other body → b.index ≤ other.index)
  agreed : ∀ d d' decl decl', s.decl d = .ok decl → decl.kind.isRecord = true →
    s.decl d' = .ok decl' → decl'.kind.isRecord = true → s.canonical d = s.canonical d' →
    ∃ body, s.definition d = .ok body ∧ s.definition d' = .ok body

theorem resolves {document : Document} (indexed : ofDocument document = .ok s)
    (sound : s.Sound) : s.Resolves := by
  constructor
  case total =>
    intro d inside
    obtain ⟨c, canonical, _⟩ := sound.canonical_total inside
    exact ⟨c, canonical⟩
  case ends => exact fun d c => sound.canonical_iff_ends
  case earlier =>
    exact fun d c canonical => sound.earlier_of_ends (sound.canonical_iff_ends.mp canonical)
  case unlinked => exact fun d c canonical => (sound.canonical_iff_ends.mp canonical).unlinked
  case idempotent => exact fun d c canonical => sound.canonical_idem canonical
  case connected => exact fun d d' inside _ => sound.canonical_eq_iff inside
  case bodiless =>
    exact fun d decl c found record canonical =>
      definition_eq_none_iff indexed sound found record canonical
  case defined =>
    exact fun d decl c b found record canonical =>
      definition_eq_some_iff indexed sound found record canonical
  case agreed =>
    intro d d' decl decl' found record found' record' same
    obtain ⟨c, canonical, _⟩ := sound.canonical_total (hasDecl_of_decl found)
    obtain ⟨body, defined, _⟩ := sound.definition_total (hasDecl_of_decl found)
    have noted := (definition_of_canonical found record canonical).mp defined
    have canonical' := same.symm.trans canonical
    exact ⟨body, defined, (definition_of_canonical found' record' canonical').mpr noted⟩

end AstXml.Snapshot

namespace AstXml

/-- An accepted document has an index that follows the links between its declarations. -/
theorem index_resolves (d : Document) (accepted : d.validate = .ok ()) :
    ∃ s, Snapshot.ofDocument d = .ok s ∧ s.document = d ∧ s.Resolves := by
  obtain ⟨s, indexed, same, sound⟩ := Snapshot.ofDocument_sound (d.validate_ok_iff.mp accepted)
  exact ⟨s, indexed, same, Snapshot.resolves indexed sound⟩

/-- The document of `struct S; struct S; struct S { }; struct S { };` where the second and the third
declaration redeclare the first one, and the fourth redeclares the second. -/
def Document.branching : Document where
  files := #[]
  types := #[]
  decls := #[
    { Declaration.bare .translationUnit "" none with children := [⟨1⟩, ⟨2⟩, ⟨3⟩, ⟨4⟩] },
    .bare (.record .structKey false false) "S" (some .root),
    { Declaration.bare (.record .structKey false false) "S" (some .root) with
      previous := some ⟨1⟩ },
    { Declaration.bare (.record .structKey true false) "S" (some .root) with
      previous := some ⟨1⟩ },
    { Declaration.bare (.record .structKey true false) "S" (some .root) with
      previous := some ⟨2⟩ }]

theorem branching_resolves : Document.branching.validate = .ok () ∧
    ∃ s, Snapshot.ofDocument .branching = .ok s ∧ s.document = .branching ∧ s.Resolves :=
  ⟨rfl, index_resolves .branching rfl⟩

example : Snapshot.ofDocument .branching = .ok ⟨.branching, #[⟨0⟩, ⟨1⟩, ⟨1⟩, ⟨1⟩, ⟨1⟩],
    #[none, some ⟨3⟩, none, none, none]⟩ := rfl

end AstXml
