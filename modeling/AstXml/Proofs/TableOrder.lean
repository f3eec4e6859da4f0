import Mathlib.Data.Fin.Rev
import AstXml.Proofs.Audit
import AstXml.Proofs.Redirection

/-!
The order of the tables. A document whose types and source files stand in another order, with all
references renamed, is dumped as the same text.
-/
namespace AstXml
open Outcome

/-! A table in another order. -/

section Moved

variable {n : Nat} (σ : Equiv.Perm (Fin n))

/-- Where a permutation takes a position; positions beyond the table stay where they are. -/
def moved (i : Nat) : Nat := if h : i < n then σ ⟨i, h⟩ else i

theorem moved_lt {i : Nat} (inside : i < n) : moved σ i < n := by
  rw [moved, dif_pos inside]
  exact (σ ⟨i, inside⟩).isLt

theorem moved_of_le {i : Nat} (outside : n ≤ i) : moved σ i = i :=
  dif_neg (Nat.not_lt.mpr outside)

theorem moved_injective : Function.Injective (moved σ) := by
  intro i j same
  rcases Nat.lt_or_ge i n with inside | outside <;> rcases Nat.lt_or_ge j n with inside' | outside'
  · rw [moved, moved, dif_pos inside, dif_pos inside'] at same
    exact Fin.mk.inj (σ.injective (Fin.val_injective same))
  · have bound := moved_lt σ inside
    rw [same, moved_of_le σ outside'] at bound
    omega
  · have bound := moved_lt σ inside'
    rw [← same, moved_of_le σ outside] at bound
    omega
  · rwa [moved_of_le σ outside, moved_of_le σ outside'] at same

theorem moved_small {size i : Nat} (table : n ≤ size) (small : i < size) : moved σ i < size := by
  rcases Nat.lt_or_ge i n with inside | outside
  · exact Nat.lt_of_lt_of_le (moved_lt σ inside) table
  · rwa [moved_of_le σ outside]

end Moved

section Permuted

variable {α : Type} (xs : Array α) (σ : Equiv.Perm (Fin xs.size))

/-- The entries of a table at the positions to which a permutation takes them. -/
def permuted : Array α := .ofFn fun i => xs[σ.symm i]

theorem size_permuted : (permuted xs σ).size = xs.size := Array.size_ofFn

theorem getElem?_permuted (i : Nat) : (permuted xs σ)[moved σ i]? = xs[i]? := by
  rcases Nat.lt_or_ge i xs.size with inside | outside
  · have bound := moved_lt σ inside
    rw [permuted, Array.getElem?_ofFn, dif_pos bound, Array.getElem?_eq_getElem inside]
    simp [moved, inside]
  · rw [moved_of_le σ outside, Array.getElem?_eq_none outside]
    exact Array.getElem?_eq_none (by rwa [size_permuted])

theorem moved_of_getElem? {j : Nat} {x : α} (found : (permuted xs σ)[j]? = some x) :
    ∃ i, xs[i]? = some x ∧ moved σ i = j := by
  have bound : j < xs.size := size_permuted xs σ ▸ (Array.getElem?_eq_some_iff.mp found).1
  have back : moved σ (σ.symm ⟨j, bound⟩) = j := by simp [moved]
  refine ⟨σ.symm ⟨j, bound⟩, ?_, back⟩
  rw [← getElem?_permuted xs σ, back, found]

end Permuted

namespace Document

variable (d : Document) (σ : Equiv.Perm (Fin d.types.size)) (τ : Equiv.Perm (Fin d.files.size))

/-- The new positions of types and source files. -/
def newNames : Relabelling where
  type t := .ofIndex (moved σ t.index)
  file f := .ofIndex (moved τ f.index)

/-- The document with types and source files in another order, and all references renamed. -/
def permute : Document where
  files := permuted d.files τ
  types := (permuted d.types σ).map (·.relabel (d.newNames σ τ))
  decls := d.decls.map (·.relabel (d.newNames σ τ))

theorem decl_of_permute {i : Nat} {decl' : Declaration}
    (found : (d.permute σ τ).decls[i]? = some decl') :
    ∃ decl, d.decls[i]? = some decl ∧ decl' = decl.relabel (d.newNames σ τ) := by
  simpa [permute, eq_comm] using found

theorem size_permute (table : Table) : (d.permute σ τ).size table = d.size table := by
  cases table <;> simp [size, permute, size_permuted]

section Small

variable {d} (h : d.WellFormed)
include h

theorem index_newType (t : TypeId) : ((d.newNames σ τ).type t).index = moved σ t.index := by
  have table := h.small .types
  simp only [size, maxTable] at table
  have small : moved σ t.index < 4294967296 :=
    moved_small σ (Nat.le_succ_of_le table) t.number.toNat_lt
  simp only [newNames, TypeId.index, TypeId.ofIndex]
  exact UInt32.toNat_ofNat_of_lt' small

theorem index_newFile (f : FileId) : ((d.newNames σ τ).file f).index = moved τ f.index := by
  have table := h.small .files
  simp only [size, maxTable] at table
  have small : moved τ f.index < 4294967296 :=
    moved_small τ (Nat.le_succ_of_le table) f.number.toNat_lt
  simp only [newNames, FileId.index, FileId.ofIndex]
  exact UInt32.toNat_ofNat_of_lt' small

theorem newNames_injective : (d.newNames σ τ).Injective where
  type := by
    intro t t' same
    have indices := congrArg TypeId.index same
    rw [index_newType σ τ h, index_newType σ τ h] at indices
    exact congrArg TypeId.mk (UInt32.toNat_inj.mp (moved_injective σ indices))
  file := by
    intro f f' same
    have indices := congrArg FileId.index same
    rw [index_newFile σ τ h, index_newFile σ τ h] at indices
    exact congrArg FileId.mk (UInt32.toNat_inj.mp (moved_injective τ indices))

end Small

/-! The references of the permuted document. -/

def renameReference : Table × Nat → Table × Nat
  | (.decls, i) => (.decls, i)
  | (.types, i) => (.types, moved σ i)
  | (.files, i) => (.files, moved τ i)

theorem renameReference_inside {reference : Table × Nat}
    (inside : reference.2 < d.size reference.1) :
    (d.renameReference σ τ reference).2 < d.size (d.renameReference σ τ reference).1 := by
  obtain ⟨_ | _ | _, i⟩ := reference
  · exact inside
  · exact moved_lt σ inside
  · exact moved_lt τ inside

variable {d} (h : d.WellFormed)
include h

theorem typeReferences_relabel (type : TypeKind) :
    typeReferences (type.relabel (d.newNames σ τ)) =
      (typeReferences type).map (d.renameReference σ τ) := by
  cases type with
  | pointer pointee =>
    simp [typeReferences, TypeKind.relabel, QualType.relabel, index_newType σ τ h, renameReference]
  | _ => rfl

theorem references_relabel (decl : Declaration) :
    parentReferences (decl.relabel (d.newNames σ τ)) ++
        ownReferences (decl.relabel (d.newNames σ τ)) =
      (parentReferences decl ++ ownReferences decl).map (d.renameReference σ τ) := by
  obtain ⟨kind, name, parent, previous, access, location, children⟩ := decl
  have typed : (kind.relabel (d.newNames σ τ)).type?.toList.map
      (fun type => (Table.types, type.type.index)) =
        (kind.type?.toList.map fun type => (Table.types, type.type.index)).map
          (d.renameReference σ τ) := by
    cases kind <;>
      simp [DeclKind.relabel, DeclKind.type?, QualType.relabel, index_newType σ τ h,
        renameReference]
  have located : ((location.map (·.relabel (d.newNames σ τ))).toList.flatMap fun location =>
      (Table.files, location.written.file.index) ::
        location.expansion.toList.map fun expansion => (Table.files, expansion.file.index)) =
      (location.toList.flatMap fun location => (Table.files, location.written.file.index) ::
        location.expansion.toList.map fun expansion => (Table.files, expansion.file.index)).map
          (d.renameReference σ τ) := by
    rcases location with _ | ⟨written, _ | expansion⟩ <;>
      simp [Location.relabel, Position.relabel, index_newFile σ τ h, renameReference]
  simp only [parentReferences, ownReferences, Declaration.relabel, typed, located, List.map_append,
    List.map_map]
  rfl

theorem permute_wellFormed : (d.permute σ τ).WellFormed where
  root := by
    obtain ⟨decl, found, root⟩ := h.root
    refine ⟨decl.relabel (d.newNames σ τ), by simp [permute, found], ?_⟩
    simp [Declaration.relabel, root, DeclKind.relabel]
  small table := size_permute d σ τ table ▸ h.small table
  kinds i decl' found' root := by
    obtain ⟨decl, found, rfl⟩ := decl_of_permute d σ τ found'
    refine h.kinds i decl found ?_
    simp only [Declaration.relabel] at root
    cases kind : decl.kind <;> simp_all [DeclKind.relabel]
  previous i decl' found' p link := by
    obtain ⟨decl, found, rfl⟩ := decl_of_permute d σ τ found'
    exact h.previous i decl found p link
  decls i decl' found' reference listed := by
    obtain ⟨decl, found, rfl⟩ := decl_of_permute d σ τ found'
    rw [references_relabel σ τ h] at listed
    obtain ⟨before, member, rfl⟩ := List.mem_map.mp listed
    rw [size_permute]
    exact renameReference_inside d σ τ (h.decls i decl found before member)
  types i type' found' reference listed := by
    simp only [permute, Array.getElem?_map, Option.map_eq_some_iff] at found'
    obtain ⟨type, found, rfl⟩ := found'
    obtain ⟨j, found, _⟩ := moved_of_getElem? d.types σ found
    rw [typeReferences_relabel σ τ h] at listed
    obtain ⟨before, member, rfl⟩ := List.mem_map.mp listed
    rw [size_permute]
    exact renameReference_inside d σ τ (h.types j type found before member)

end Document

namespace Snapshot

variable (s : Snapshot) (σ : Equiv.Perm (Fin s.document.types.size))
  (τ : Equiv.Perm (Fin s.document.files.size))

/-- The index does not change with the order of types and source files. -/
def permute : Snapshot := ⟨s.document.permute σ τ, s.canonicals, s.bodies⟩

theorem ofDocument_permute (indexed : ofDocument s.document = .ok s) :
    ofDocument (s.document.permute σ τ) = .ok (s.permute σ τ) := by
  refine ofDocument_related indexed ?_
  simp only [Document.permute, Array.toList_map, List.forall₂_map_right_iff]
  refine List.forall₂_same.mpr fun decl _ => ⟨rfl, ?_⟩
  cases kind : decl.kind <;> simp [Declaration.relabel, kind, DeclKind.relabel, DeclKind.isBody]

theorem decl_permute (d : DeclId) : (s.permute σ τ).decl d =
    (s.decl d).map (·.relabel (s.document.newNames σ τ)) := by
  simp only [Snapshot.decl, permute, Document.permute, Array.getElem?_map]
  cases s.document.decls[d.index]? <;> rfl

theorem copies_permute (h : s.document.WellFormed) :
    s.Copies (s.document.newNames σ τ) (s.permute σ τ) where
  decl := by
    intro d decl found
    refine ⟨decl, .same s decl, ?_⟩
    rw [decl_permute, found]
    rfl
  type := by
    intro t type found
    refine ⟨type, .same type, ?_⟩
    rw [type_eq_ok] at found ⊢
    simp only [permute, Document.permute, Document.index_newType σ τ h, Array.getElem?_map,
      getElem?_permuted, found]
    rfl
  fileName := by
    intro file name named
    rw [fileName_eq_ok] at named ⊢
    simp only [permute, Document.permute, Document.index_newFile σ τ h, getElem?_permuted, named]
  canonicals := rfl
  bodies := rfl

/-! Names lead to the same declarations. -/

theorem definition_permute (d : DeclId) : (s.permute σ τ).definition d = s.definition d := by
  simp only [Snapshot.definition, decl_permute]
  cases s.decl d with
  | error => rfl
  | ok decl =>
    have record : (decl.relabel (s.document.newNames σ τ)).kind.isRecord = decl.kind.isRecord :=
      DeclKind.isRecord_relabel ..
    simp only [Except.map, ok_bind, record]
    rfl

/-- What does not depend on positions is the same of the declarations in both. -/
theorem filterDecls_permute (test : Declaration → Bool)
    (same : ∀ decl : Declaration, test (decl.relabel (s.document.newNames σ τ)) = test decl)
    (ds : List DeclId) :
    (ds.filterM fun d => do return test (← (s.permute σ τ).decl d)) =
      (ds.filterM fun d => do return test (← s.decl d) : Except Fault (List DeclId)) := by
  congr 1
  funext d
  rw [decl_permute]
  cases s.decl d with
  | error => rfl
  | ok decl => exact congrArg Except.ok (same decl)

theorem lookup_permute (scope : DeclId) (name : String) :
    (s.permute σ τ).lookup scope name = s.lookup scope name := by
  simp only [Snapshot.lookup, definition_permute]
  cases s.definition scope with
  | error => rfl
  | ok body =>
    simp only [ok_bind]
    rw [decl_permute]
    cases s.decl (body.getD scope) with
    | error => rfl
    | ok decl =>
      exact s.filterDecls_permute σ τ (·.name == name) (fun _ => rfl) decl.children

theorem walk_permute (path : List String) (scope : DeclId) :
    StartName.walk (s.permute σ τ) path scope = StartName.walk s path scope := by
  induction path generalizing scope with
  | nil => rfl
  | cons name rest ih =>
    cases rest with
    | nil => exact lookup_permute s σ τ scope name
    | cons next rest =>
      have containers := s.filterDecls_permute σ τ (·.kind.isContainer)
        fun decl => DeclKind.isContainer_relabel _ decl.kind
      have later : StartName.walk (s.permute σ τ) (next :: rest) =
          StartName.walk s (next :: rest) := funext ih
      simp only [StartName.walk, lookup_permute, containers, later]

theorem startDecls_permute (names : List String) :
    Dump.startDecls (s.permute σ τ) names = Dump.startDecls s names := by
  have resolve : StartName.resolve (s.permute σ τ) = StartName.resolve s :=
    funext fun name => walk_permute s σ τ (StartName.segments name) .root
  rw [Dump.startDecls, Dump.startDecls, resolve]

end Snapshot

/-- The order of types and source files does not show in a dump, and neither does the order in which
a table that is kept by their positions is walked. -/
theorem dump_permuted (d : Document) (accepted : d.validate = .ok ())
    (σ : Equiv.Perm (Fin d.types.size)) (τ : Equiv.Perm (Fin d.files.size)) (options : Options) :
    (d.permute σ τ).validate = .ok () ∧ ∃ s s' report report',
      Snapshot.ofDocument d = .ok s ∧ Snapshot.ofDocument (d.permute σ τ) = .ok s' ∧
      dump s options = .ok report ∧ dump s' options = .ok report' ∧
      report'.text = report.text ∧ report'.summary = report.summary ∧
      ∀ walk : List (Entity × Node) → List (Entity × Node),
        (∀ entries, (walk entries).Perm entries) →
        dumpWalking walk s options = .ok report ∧ dumpWalking walk s' options = .ok report' := by
  have wellFormed := d.validate_ok_iff.mp accepted
  have permuted := Document.permute_wellFormed σ τ wellFormed
  obtain ⟨s, indexed, rfl, sound⟩ := Snapshot.ofDocument_sound wellFormed
  have indexed' := s.ofDocument_permute σ τ indexed
  obtain ⟨_, indexed₁, _, sound'⟩ := Snapshot.ofDocument_sound permuted
  cases indexed'.symm.trans indexed₁
  obtain ⟨report, report', dumped, dumped', text, summary⟩ :=
    dump_copied (Document.newNames_injective σ τ wellFormed) (s.copies_permute σ τ wellFormed) sound
      sound' options (s.startDecls_permute σ τ options.startNames)
  refine ⟨(Document.validate_ok_iff _).mpr permuted, s, _, report, report', indexed, indexed',
    dumped, dumped', text, summary, fun walk walks => ⟨?_, ?_⟩⟩
  · exact dumpWalking_eq walks dumped
  · exact dumpWalking_eq walks dumped'

theorem redeclared_permuted : Document.redeclared.validate = .ok () ∧
    (Document.redeclared.permute Fin.revPerm Fin.revPerm).validate = .ok () ∧
    ∃ s s' report report', Snapshot.ofDocument .redeclared = .ok s ∧
      Snapshot.ofDocument (Document.redeclared.permute Fin.revPerm Fin.revPerm) = .ok s' ∧
      dump s ⟨["S", "s"], .element⟩ = .ok report ∧ dump s' ⟨["S", "s"], .element⟩ = .ok report' ∧
      report'.text = report.text ∧ report'.summary = report.summary ∧
      dumpWalking List.reverse s ⟨["S", "s"], .element⟩ = .ok report ∧
      dumpWalking List.reverse s' ⟨["S", "s"], .element⟩ = .ok report' := by
  obtain ⟨permuted, s, s', report, report', indexed, indexed', dumped, dumped', text, summary,
    walked⟩ := dump_permuted .redeclared rfl Fin.revPerm Fin.revPerm ⟨["S", "s"], .element⟩
  exact ⟨rfl, permuted, s, s', report, report', indexed, indexed', dumped, dumped', text, summary,
    walked List.reverse List.reverse_perm⟩

end AstXml
