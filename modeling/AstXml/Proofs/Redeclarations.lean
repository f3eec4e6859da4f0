import AstXml.Proofs.Redirection

/-!
Which declaration of an entity a tree refers to. References can be moved among the declarations of
one entity that are of one kind, and the dump of the whole unit stays the same text.
-/
namespace AstXml
open Outcome

theorem getElem?_of_forall₂ {α β : Type} {R : α → β → Prop} {xs : List α} {ys : List β}
    (related : List.Forall₂ R xs ys) {i : Nat} {x : α} (entry : xs[i]? = some x) :
    ∃ y, ys[i]? = some y ∧ R x y := by
  induction related generalizing i with
  | nil => cases entry
  | @cons _ y _ _ here _ ih =>
    cases i with
    | zero =>
      cases entry
      exact ⟨y, rfl, here⟩
    | succ i => exact ih entry

namespace Snapshot

/-- A document that differs from that of `s` in references to declarations only, each of them moved
to an exchangeable one. -/
structure Redirects (s : Snapshot) (d' : Document) : Prop where
  files : d'.files = s.document.files
  types : List.Forall₂ s.RedirectsType s.document.types.toList d'.types.toList
  decls : List.Forall₂ s.RedirectsDecl s.document.decls.toList d'.decls.toList

theorem Exchangeable.inside {s : Snapshot} (sound : s.Sound) {d d' : DeclId}
    (h : s.Exchangeable d d') (inside : s.HasDecl d) : s.HasDecl d' := by
  cases h with
  | same => exact inside
  | other _ canonical' => exact sound.hasDecl_of_canonical canonical'

namespace Redirects

variable {s : Snapshot} {d' : Document} (redirects : s.Redirects d')
include redirects

theorem decl_found {i : Nat} {decl' : Declaration} (found : d'.decls[i]? = some decl') :
    ∃ decl, s.document.decls[i]? = some decl ∧ s.RedirectsDecl decl decl' := by
  rw [← Array.getElem?_toList] at found
  simpa using getElem?_of_forall₂ redirects.decls.flip found

theorem type_found {i : Nat} {type' : TypeKind} (found : d'.types[i]? = some type') :
    ∃ type, s.document.types[i]? = some type ∧ s.RedirectsType type type' := by
  rw [← Array.getElem?_toList] at found
  simpa using getElem?_of_forall₂ redirects.types.flip found

theorem size (table : Table) : d'.size table = s.document.size table := by
  cases table with
  | decls => simpa [Document.size] using redirects.decls.length_eq.symm
  | types => simpa [Document.size] using redirects.types.length_eq.symm
  | files => exact congrArg Array.size redirects.files

/-- No reference leaves its table. -/
theorem wellFormed (sound : s.Sound) : d'.WellFormed where
  root := by
    obtain ⟨decl, found, kind⟩ := sound.wellFormed.root
    rw [← Array.getElem?_toList] at found
    obtain ⟨decl', found', same⟩ := getElem?_of_forall₂ redirects.decls found
    exact ⟨decl', by simpa using found', same.kind.trans kind⟩
  small table := redirects.size table ▸ sound.wellFormed.small table
  kinds i decl' found' root := by
    obtain ⟨decl, found, same⟩ := redirects.decl_found found'
    exact sound.wellFormed.kinds i decl found (same.kind.symm.trans root)
  previous i decl' found' p link := by
    obtain ⟨decl, found, same⟩ := redirects.decl_found found'
    exact sound.wellFormed.previous i decl found p (same.previous.symm.trans link)
  decls i decl' found' reference listed := by
    obtain ⟨decl, found, same⟩ := redirects.decl_found found'
    rw [redirects.size]
    rcases List.mem_append.mp listed with parent | own
    · obtain ⟨p', link', rfl⟩ := List.mem_map.mp parent
      have around := same.parent
      rw [Option.mem_toList.mp link'] at around
      cases link : decl.parent with
      | none => rw [link] at around; cases around
      | some p =>
        rw [link] at around
        cases around with
        | some h => exact h.inside sound (sound.wellFormed.parent_lt found link)
    · have kept := sound.wellFormed.decls i decl found reference
      simp only [Document.ownReferences, same.location, same.kind, List.mem_append] at kept own
      rcases own with (child | located) | typed
      · obtain ⟨c', member, rfl⟩ := List.mem_map.mp child
        obtain ⟨n, entry⟩ := List.getElem?_of_mem member
        obtain ⟨c, entry', h⟩ := getElem?_of_forall₂ same.children.flip entry
        exact h.inside sound (sound.wellFormed.child_lt found (List.mem_of_getElem? entry'))
      · exact kept (.inr (.inl (.inr located)))
      · exact kept (.inr (.inr typed))
  types i type' found' reference listed := by
    obtain ⟨type, found, same⟩ := redirects.type_found found'
    rw [redirects.size]
    cases same with
    | same => exact sound.wellFormed.types i _ found reference listed
    | record h =>
      cases List.mem_singleton.mp listed
      exact h.inside sound (sound.wellFormed.named_lt found rfl)
    | typedef h =>
      cases List.mem_singleton.mp listed
      exact h.inside sound (sound.wellFormed.named_lt found rfl)

theorem sameLinks : List.Forall₂ SameLinks s.document.decls.toList d'.decls.toList :=
  redirects.decls.imp fun _ _ same => ⟨same.previous, congrArg DeclKind.isBody same.kind⟩

theorem copies : s.Copies .same ⟨d', s.canonicals, s.bodies⟩ where
  decl := by
    intro d decl found
    rw [decl_eq_ok, ← Array.getElem?_toList] at found
    obtain ⟨changed, found', same⟩ := getElem?_of_forall₂ redirects.decls found
    refine ⟨changed, same, ?_⟩
    rw [decl_eq_ok, ← Array.getElem?_toList, Relabelling.same_decl]
    exact found'
  type := by
    intro t type found
    rw [type_eq_ok, ← Array.getElem?_toList] at found
    obtain ⟨changed, found', same⟩ := getElem?_of_forall₂ redirects.types found
    refine ⟨changed, same, ?_⟩
    rw [type_eq_ok, ← Array.getElem?_toList, Relabelling.same_type]
    exact found'
  fileName := by
    intro file name named
    rw [fileName_eq_ok] at named ⊢
    rw [redirects.files]
    exact named
  canonicals := rfl
  bodies := rfl

end Redirects

end Snapshot

/-- Moving references among the declarations of an entity does not change the dump of a unit. -/
theorem dump_redirected {d d' : Document} (accepted : d.validate = .ok ()) {s : Snapshot}
    (indexed : Snapshot.ofDocument d = .ok s) (redirects : s.Redirects d') (mode : QualifierMode) :
    d'.validate = .ok () ∧ ∃ s' report report', Snapshot.ofDocument d' = .ok s' ∧
      dump s ⟨[], mode⟩ = .ok report ∧ dump s' ⟨[], mode⟩ = .ok report' ∧
      report'.text = report.text := by
  obtain ⟨s₀, indexed₀, rfl, sound⟩ := Snapshot.ofDocument_sound (d.validate_ok_iff.mp accepted)
  cases indexed.symm.trans indexed₀
  have wellFormed := redirects.wellFormed sound
  have indexed' := Snapshot.ofDocument_related indexed redirects.sameLinks
  obtain ⟨s', indexed₁, _, sound'⟩ := Snapshot.ofDocument_sound wellFormed
  cases indexed'.symm.trans indexed₁
  obtain ⟨report, report', dumped, dumped', text, _⟩ :=
    dump_copied Relabelling.same_injective redirects.copies sound sound' ⟨[], mode⟩ rfl
  exact ⟨d'.validate_ok_iff.mpr wellFormed, _, report, report', indexed', dumped, dumped', text⟩

/-- The tree of `Document.redeclared` with references to `S` moved to its other declaration: as a
child of the unit, as the parent of `a`, and in the type of `s`. -/
def Document.redirected : Document where
  files := #["a.h", "b.h"]
  types := #[.builtin "int", .record ⟨2⟩]
  decls := #[
    { Declaration.bare .translationUnit "" none with children := [⟨2⟩, ⟨2⟩, ⟨4⟩] },
    { Declaration.bare (.record .structKey false false) "S" (some .root) with
      location := some ⟨⟨⟨0⟩, 1⟩, none⟩ },
    { Declaration.bare (.record .structKey true false) "S" (some .root) with
      previous := some ⟨1⟩, location := some ⟨⟨⟨0⟩, 2⟩, none⟩, children := [⟨3⟩] },
    { Declaration.bare (.field (.plain ⟨0⟩)) "a" (some ⟨1⟩) with
      location := some ⟨⟨⟨0⟩, 2⟩, none⟩ },
    { Declaration.bare (.variable ⟨⟨1⟩, ⟨true, false, false⟩⟩) "s" (some .root) with
      location := some ⟨⟨⟨1⟩, 1⟩, none⟩ }]

namespace Snapshot

theorem redeclared_exchangeable :
    redeclared.Exchangeable ⟨1⟩ ⟨2⟩ ∧ redeclared.Exchangeable ⟨2⟩ ⟨1⟩ :=
  ⟨.other rfl rfl rfl rfl (.record ..), .other rfl rfl rfl rfl (.record ..)⟩

theorem redeclared_redirects : redeclared.Redirects .redirected := by
  obtain ⟨there, back⟩ := redeclared_exchangeable
  have kept := RedirectsDecl.same redeclared
  constructor
  case files => rfl
  case types => exact .cons (.same _) (.cons (.record there) .nil)
  case decls =>
    refine .cons ?unit (.cons (kept _) (.cons (kept _) (.cons ?field (.cons (kept _) .nil))))
    case unit =>
      exact ⟨rfl, rfl, .none, rfl, rfl, rfl, .cons there (.cons (.same _) (.cons (.same _) .nil))⟩
    case field => exact ⟨rfl, rfl, .some back, rfl, rfl, rfl, .nil⟩

end Snapshot

theorem redeclared_redirected : Document.redeclared.validate = .ok () ∧
    Snapshot.ofDocument .redeclared = .ok .redeclared ∧
    Snapshot.redeclared.Redirects .redirected ∧ Document.redirected.validate = .ok () ∧
    ∃ s' report report', Snapshot.ofDocument .redirected = .ok s' ∧
      dump .redeclared ⟨[], .element⟩ = .ok report ∧ dump s' ⟨[], .element⟩ = .ok report' ∧
      report'.text = report.text := by
  have accepted : Document.redeclared.validate = .ok () := rfl
  have indexed : Snapshot.ofDocument .redeclared = .ok .redeclared := rfl
  have redirects := Snapshot.redeclared_redirects
  exact ⟨accepted, indexed, redirects, dump_redirected accepted indexed redirects .element⟩

end AstXml
