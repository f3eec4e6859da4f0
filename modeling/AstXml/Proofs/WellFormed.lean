import AstXml.Document
import AstXml.Proofs.Outcome

/-!
What a document looks like that `validate` accepts: one root, at the front; references that stay
inside their tables; and `previous` links that point backwards.
-/
namespace AstXml.Document
open Outcome

structure WellFormed (d : Document) : Prop where
  root : ∃ decl, d.decls[0]? = some decl ∧ decl.kind = .translationUnit
  small : ∀ table, d.size table ≤ maxTable
  kinds : ∀ (i : Nat) (decl : Declaration), d.decls[i]? = some decl →
    decl.kind = .translationUnit → i = 0
  previous : ∀ (i : Nat) (decl : Declaration), d.decls[i]? = some decl →
    ∀ p, decl.previous = some p → p.index < i
  decls : ∀ (i : Nat) (decl : Declaration), d.decls[i]? = some decl →
    ∀ reference ∈ parentReferences decl ++ ownReferences decl, reference.2 < d.size reference.1
  types : ∀ (i : Nat) (type : TypeKind), d.types[i]? = some type →
    ∀ reference ∈ typeReferences type, reference.2 < d.size reference.1

theorem checkRoot_ok (d : Document) :
    d.checkRoot = .ok () ↔ ∃ decl, d.decls[0]? = some decl ∧ decl.kind = .translationUnit := by
  unfold checkRoot
  cases first : d.decls[0]? with
  | none => simp
  | some decl => by_cases root : decl.kind = .translationUnit <;> simp [root]

theorem checkSize_ok (d : Document) (table : Table) :
    d.checkSize table = .ok () ↔ d.size table ≤ maxTable := by
  unfold checkSize
  split <;> simp [*]

theorem checkReferences_ok (d : Document) (source : Table) (owner : Nat)
    (references : List (Table × Nat)) :
    d.checkReferences source owner references = .ok () ↔
      ∀ reference ∈ references, reference.2 < d.size reference.1 := by
  simp only [checkReferences, List.forM_eq_forM]
  induction references with
  | nil => simp [pure_eq_ok]
  | cons reference rest ih =>
    have first : d.checkReference source owner reference.1 reference.2 = .ok () ↔
        reference.2 < d.size reference.1 := by
      unfold checkReference
      split <;> simp [*]
    simp only [List.forM_cons, check_eq_ok, first, ih, List.forall_mem_cons]

theorem checkKind_ok (owner : Nat) (decl : Declaration) :
    checkKind owner decl = .ok () ↔ (decl.kind = .translationUnit → owner = 0) := by
  unfold checkKind
  split
  · rename_i late
    have : owner ≠ 0 := Nat.pos_iff_ne_zero.mp late.1
    simp [late.2, this]
  · rename_i early
    simp only [true_iff]
    intro root
    exact Nat.eq_zero_of_not_pos fun late => early ⟨late, root⟩

theorem checkPrevious_ok (owner : Nat) (decl : Declaration) :
    checkPrevious owner decl = .ok () ↔ ∀ p, decl.previous = some p → p.index < owner := by
  unfold checkPrevious
  cases decl.previous with
  | none => simp
  | some p => by_cases earlier : p.index < owner <;> simp [earlier]

theorem checkDecl_ok (d : Document) (owner : Nat) (decl : Declaration) :
    d.checkDecl owner decl = .ok () ↔
      (decl.kind = .translationUnit → owner = 0) ∧
      (∀ p, decl.previous = some p → p.index < owner) ∧
      ∀ reference ∈ parentReferences decl ++ ownReferences decl,
        reference.2 < d.size reference.1 := by
  simp only [checkDecl, check_eq_ok, checkKind_ok, checkPrevious_ok,
    checkReferences_ok, List.forall_mem_append]
  exact ⟨fun ⟨kind, parent, previous, own⟩ => ⟨kind, previous, parent, own⟩,
    fun ⟨kind, previous, parent, own⟩ => ⟨kind, parent, previous, own⟩⟩

theorem checkEach_ok {α : Type} (check : Nat → α → Except Invalid Unit) (entries : List α)
    (owner : Nat) :
    checkEach check owner entries = .ok () ↔
      ∀ i entry, entries[i]? = some entry → check (owner + i) entry = .ok () := by
  induction entries generalizing owner with
  | nil => simp [checkEach]
  | cons first rest ih =>
    simp only [checkEach, check_eq_ok, ih]
    constructor
    · rintro ⟨head, tail⟩ i entry found
      cases i with
      | zero => exact Option.some.inj found ▸ head
      | succ i =>
        rw [Nat.add_comm i 1, ← Nat.add_assoc]
        exact tail i entry found
    · intro all
      refine ⟨all 0 first rfl, fun i entry found => ?_⟩
      have later := all (i + 1) entry found
      rwa [Nat.add_comm i 1, ← Nat.add_assoc] at later

/-- Acceptance is well-formedness. -/
theorem validate_ok_iff (d : Document) : d.validate = .ok () ↔ d.WellFormed := by
  simp only [validate, check_eq_ok, checkRoot_ok, checkSize_ok, checkEach_ok,
    checkDecl_ok, checkReferences_ok, Nat.zero_add, Array.getElem?_toList]
  constructor
  · rintro ⟨root, decls, types, files, entries, typeEntries⟩
    refine ⟨root, ?_, fun i decl h => (entries i decl h).1, fun i decl h => (entries i decl h).2.1,
      fun i decl h => (entries i decl h).2.2, typeEntries⟩
    intro table
    cases table <;> assumption
  · intro h
    exact ⟨h.root, h.small .decls, h.small .types, h.small .files,
      fun i decl found => ⟨h.kinds i decl found, h.previous i decl found, h.decls i decl found⟩,
      h.types⟩

/-- The document of `struct S; const S *volatile p;`. -/
def opaquePointer : Document where
  files := #[]
  types := #[.record ⟨1⟩, .pointer ⟨⟨0⟩, ⟨true, false, false⟩⟩]
  decls := #[
    { Declaration.bare .translationUnit "" none with children := [⟨1⟩, ⟨2⟩] },
    .bare (.record .structKey false false) "S" (some .root),
    .bare (.variable ⟨⟨1⟩, ⟨false, true, false⟩⟩) "p" (some .root)]

/-- The document of `struct S; struct S { int a; };` in one file and `const S s;` in another. -/
def redeclared : Document where
  files := #["a.h", "b.h"]
  types := #[.builtin "int", .record ⟨1⟩]
  decls := #[
    { Declaration.bare .translationUnit "" none with children := [⟨1⟩, ⟨2⟩, ⟨4⟩] },
    { Declaration.bare (.record .structKey false false) "S" (some .root) with
      location := some ⟨⟨⟨0⟩, 1⟩, none⟩ },
    { Declaration.bare (.record .structKey true false) "S" (some .root) with
      previous := some ⟨1⟩, location := some ⟨⟨⟨0⟩, 2⟩, none⟩, children := [⟨3⟩] },
    { Declaration.bare (.field (.plain ⟨0⟩)) "a" (some ⟨2⟩) with
      location := some ⟨⟨⟨0⟩, 2⟩, none⟩ },
    { Declaration.bare (.variable ⟨⟨1⟩, ⟨true, false, false⟩⟩) "s" (some .root) with
      location := some ⟨⟨⟨1⟩, 1⟩, none⟩ }]

namespace WellFormed

variable {d : Document} (h : d.WellFormed) {i : Nat} {decl : Declaration}
include h

theorem parent_lt (found : d.decls[i]? = some decl) {p : DeclId} (parent : decl.parent = some p) :
    p.index < d.decls.size :=
  h.decls i decl found (.decls, p.index) (by simp [parentReferences, parent])

theorem child_lt (found : d.decls[i]? = some decl) {c : DeclId} (child : c ∈ decl.children) :
    c.index < d.decls.size :=
  h.decls i decl found (.decls, c.index) <| by
    simp only [ownReferences, List.mem_append, List.mem_map]
    exact .inr (.inl (.inl ⟨c, child, rfl⟩))

/-- The file a declaration is shown in, which is that of an expansion if there is one. -/
theorem location_lt (found : d.decls[i]? = some decl) {l : Location}
    (located : decl.location = some l) : l.shown.file.index < d.files.size := by
  have written := h.decls i decl found (.files, l.written.file.index)
    (by simp [ownReferences, located])
  cases expanded : l.expansion with
  | none => simpa [Location.shown, expanded, size] using written
  | some e =>
    have expansion := h.decls i decl found (.files, e.file.index)
      (by simp [ownReferences, located, expanded])
    simpa [Location.shown, expanded, size] using expansion

theorem type_lt (found : d.decls[i]? = some decl) {t : QualType}
    (typed : decl.kind.type? = some t) : t.type.index < d.types.size :=
  h.decls i decl found (.types, t.type.index) (by simp [ownReferences, typed])

theorem pointee_lt {t : QualType} (found : d.types[i]? = some (.pointer t)) :
    t.type.index < d.types.size :=
  h.types i _ found (.types, t.type.index) (by simp [typeReferences])

theorem named_lt {type : TypeKind} (found : d.types[i]? = some type) {c : DeclId}
    (named : type.decl? = some c) : c.index < d.decls.size := by
  refine h.types i type found (.decls, c.index) ?_
  cases type <;> simp_all [TypeKind.decl?, typeReferences]

end WellFormed

end AstXml.Document
