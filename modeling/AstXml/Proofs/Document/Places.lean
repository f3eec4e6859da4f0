import AstXml.Proofs.Document.Schemas

/-!
The structures inside a document and where they stand. What is read of a document depends on what
is read of any structure in it, and nothing is read of it if a structure in it is refused.
-/
namespace AstXml
open Json

/-- What an object in a document can stand for. -/
inductive Role
  | document
  | declaration
  | type
  | qualified
  | location
  | expansion

namespace Role

def Value : Role → Type
  | document => Document
  | declaration => Declaration
  | type => TypeKind
  | qualified => QualType
  | location => Location
  | expansion => Position

/-- Declarations and types lie inside two arrays and objects, the qualified types in them inside
three. -/
def schema : (role : Role) → Schema role.Value
  | document => Document.schema
  | declaration => Declaration.schema 2
  | type => TypeKind.schema 2
  | qualified => QualType.schema (Tree.isReadable 4)
  | location => Location.schema
  | expansion => Position.schema

end Role

/-- What a field of a structure holds: another structure, or an array of them. -/
inductive Part
  | one (role : Role)
  | many (role : Role)

namespace Part

def Value : Part → Type
  | one role => role.Value
  | many role => List role.Value

def read? : (part : Part) → Tree → Option part.Value
  | one role => role.schema.read?
  | many role => list? role.schema.read?

end Part

/-- The fields that hold structures; those of a declaration or a type are under the keys of some of
its kinds. -/
def Role.part? : Role → String → Option Part
  | document, "types" => some (.many type)
  | document, "decls" => some (.many declaration)
  | declaration, "underlying" => some (.one qualified)
  | declaration, "type" => some (.one qualified)
  | declaration, "location" => some (.one location)
  | type, "pointee" => some (.one qualified)
  | location, "expansion" => some (.one expansion)
  | _, _ => none

/-- What the outer reader finds is what the inner one found there, put into place. -/
structure Through {α β : Type} (inner : Tree → Option α) (outer : Tree → Option β) : Prop where
  congr : ∀ {tree tree'}, tree ≠ .null → tree' ≠ .null → inner tree = inner tree' →
    outer tree = outer tree'
  refused : ∀ {tree}, tree ≠ .null → inner tree = none → outer tree = none

theorem Through.fill {α β γ : Type} {inner : Tree → Option α} {between : Tree → Option β}
    {outer : Tree → Option γ} {fill : Tree → Tree}
    (first : Through inner fun tree => between (fill tree)) (second : Through between outer)
    (something : ∀ {tree}, tree ≠ .null → fill tree ≠ .null) :
    Through inner fun tree => outer (fill tree) where
  congr here here' same :=
    second.congr (something here) (something here') (first.congr here here' same)
  refused here refused := second.refused (something here) (first.refused here refused)

namespace Document

theorem through_types (files decls : Option Tree) : Through (list? (TypeKind.ofJson? 2))
    fun tree => Document.ofFields? [files, some tree, decls] where
  congr _ _ same := by simp [Document.ofFields?, withDefault, same]
  refused _ refused := by simp [Document.ofFields?, withDefault, refused]

theorem through_decls (files types : Option Tree) : Through (list? (Declaration.ofJson? 2))
    fun tree => Document.ofFields? [files, types, some tree] where
  congr _ _ same := by simp [Document.ofFields?, withDefault, same]
  refused _ refused := by simp [Document.ofFields?, withDefault, refused]

end Document

namespace DeclKind

/-- A kind with a qualified type has no other field. -/
theorem through_qualified {word k : String} {keys : List String}
    (known : DeclKind.keys? word = some keys) (own : k ∈ keys)
    (typed : k = "underlying" ∨ k = "type") :
    keys = [k] ∧ ∀ foreign, Through (QualType.read? foreign)
      fun tree => DeclKind.ofFields? foreign word [some tree] := by
  have through : ∀ {build : QualType → DeclKind} (foreign : Tree → Bool),
      Through (QualType.read? foreign) fun tree => (QualType.read? foreign tree).map build := by
    intro build foreign
    exact ⟨fun _ _ same => by rw [same], fun _ refused => by rw [refused]; rfl⟩
  unfold DeclKind.keys? at known
  split at known
  all_goals cases known
  case h_4 | h_6 | h_7 =>
    obtain rfl := List.mem_singleton.mp own
    exact ⟨rfl, through⟩
  all_goals rcases typed with rfl | rfl <;> simp at own

end DeclKind

namespace Declaration

theorem through_kind {level : Nat} {word : String}
    (through : Through (QualType.read? (Tree.isReadable (level + 2)))
      fun tree => DeclKind.ofFields? (Tree.isReadable (level + 2)) word [some tree])
    (kind name parent previous access location children : Option Tree) :
    Through (QualType.read? (Tree.isReadable (level + 2)))
      fun tree => Declaration.ofFields? level word
        [kind, name, parent, previous, access, location, children, some tree] where
  congr something something' same := by
    simp [Declaration.ofFields?, through.congr something something' same]
  refused something refused := by
    simp [Declaration.ofFields?, through.refused something refused]

theorem through_location (level : Nat) (word : String)
    (kind name parent previous access children : Option Tree) (own : List (Option Tree)) :
    Through Location.ofJson? fun tree => Declaration.ofFields? level word
      (kind :: name :: parent :: previous :: access :: some tree :: children :: own) where
  congr something something' same := by
    simp only [Declaration.ofFields?, nullable_some something, nullable_some something', same]
  refused something refused := by
    simp [Declaration.ofFields?, nullable_some something, refused]

end Declaration

/-- Pointers are the types with a pointee. -/
theorem TypeKind.through_pointee {word : String} {keys : List String}
    (known : TypeKind.keys? word = some keys) (own : "pointee" ∈ keys) :
    keys = ["pointee"] ∧ ∀ foreign, Through (QualType.read? foreign)
      fun tree => TypeKind.ofFields? foreign word [some tree] := by
  unfold TypeKind.keys? at known
  split at known
  all_goals cases known
  case h_2 =>
    refine ⟨rfl, fun _ => ⟨fun _ _ same => ?_, fun _ refused => ?_⟩⟩
    · simp [TypeKind.ofFields?, required, same]
    · simp [TypeKind.ofFields?, required, refused]
  all_goals simp at own

theorem Location.through_expansion (file line : Option Tree) :
    Through Position.ofJson? fun tree => Location.ofFields? [file, line, some tree] where
  congr something something' same := by
    simp [Location.ofFields?, nullable_some something, nullable_some something', same]
  refused something refused := by
    simp [Location.ofFields?, nullable_some something, refused]

theorem Role.through_part {role : Role} {k word : String} {part : Part} {keys : List String}
    (known : role.schema.own word = some keys) (holds : role.part? k = some part)
    (own : k ∈ role.schema.common ++ keys) {fields : List (Option Tree)}
    (length : fields.length = (role.schema.common ++ keys).length) :
    Through part.read? fun tree => role.schema.build word
      (fields.set ((role.schema.common ++ keys).idxOf k) (some tree)) := by
  unfold Role.part? at holds
  split at holds
  all_goals cases holds
  case h_1 =>
    cases known
    match fields, length with
    | [files, types, decls], _ => exact Document.through_types files decls
  case h_2 =>
    cases known
    match fields, length with
    | [files, types, decls], _ =>
      have through := Document.through_decls files types
      rw [Declaration.ofJson?_eq] at through
      exact through
  case h_3 =>
    have special : "underlying" ∈ keys := (List.mem_append.mp own).resolve_left (by decide)
    obtain ⟨rfl, through⟩ := DeclKind.through_qualified known special (.inl rfl)
    match fields, length with
    | [kind, name, parent, previous, access, place, children, _], _ =>
      exact Declaration.through_kind (through _) kind name parent previous access place children
  case h_4 =>
    have special : "type" ∈ keys := (List.mem_append.mp own).resolve_left (by decide)
    obtain ⟨rfl, through⟩ := DeclKind.through_qualified known special (.inr rfl)
    match fields, length with
    | [kind, name, parent, previous, access, place, children, _], _ =>
      exact Declaration.through_kind (through _) kind name parent previous access place children
  case h_5 =>
    match fields, length with
    | kind :: name :: parent :: previous :: access :: _ :: children :: own, _ =>
      exact Declaration.through_location 2 word kind name parent previous access children own
  case h_6 =>
    have special : "pointee" ∈ keys := (List.mem_append.mp own).resolve_left (by decide)
    obtain ⟨rfl, through⟩ := TypeKind.through_pointee known special
    match fields, length with
    | [kind, _], _ => exact through _
  case h_7 =>
    cases known
    match fields, length with
    | [file, line, _], _ => exact Location.through_expansion file line

/-- The structure in a field shows through what is read there. -/
theorem Role.through_gap {role : Role} {k : String} {part : Part} {gap : Gap}
    (holds : role.part? k = some part)
    (own : ∀ tree, gap.key? (role.schema.keys (gap.fill tree)) = some k) :
    Through part.read? fun tree => role.schema.read? (gap.fill tree) := by
  have other : k ≠ "kind" := by
    rintro rfl
    cases role <;> cases holds
  obtain refused | ⟨word, keys, fields, known, member, length, read⟩ :=
    Schema.read?_gap (own .null) other
  · exact ⟨fun _ _ _ => by rw [refused, refused], fun _ _ => refused _⟩
  · have through := Role.through_part known holds member length
    simp only [read]
    exact through

/-- An item of an array shows in the list in the same way. -/
theorem through_item {α : Type} (read : Tree → Option α) (before after : List Tree) :
    Through read fun tree => list? read (.array (before ++ tree :: after)) where
  congr _ _ same := by simp [list?, List.mapM_append, same]
  refused _ refused := mapM_refused (List.mem_append_right _ (List.mem_cons_self ..)) refused

/-- Where structures of one role stand in a structure of another, as the function that puts a value
there. -/
inductive Place (inner : Role) : Role → (Tree → Tree) → Prop
  | here : Place inner inner id
  | one {role between : Role} {k : String} {gap : Gap} {fill : Tree → Tree}
    (holds : role.part? k = some (.one between))
    (own : ∀ tree, gap.key? (role.schema.keys (gap.fill tree)) = some k)
    (rest : Place inner between fill) : Place inner role fun tree => gap.fill (fill tree)
  | many {role between : Role} {k : String} {gap : Gap} {fill : Tree → Tree}
    (holds : role.part? k = some (.many between))
    (own : ∀ tree, gap.key? (role.schema.keys (gap.fill tree)) = some k)
    (before after : List Tree) (rest : Place inner between fill) :
    Place inner role fun tree => gap.fill (.array (before ++ fill tree :: after))

namespace Place

variable {inner role : Role} {fill : Tree → Tree}

theorem not_null (place : Place inner role fill) {tree : Tree} (something : tree ≠ .null) :
    fill tree ≠ .null := by
  cases place with
  | here => exact something
  | one => apply Gap.fill_not_null
  | many => apply Gap.fill_not_null

theorem through (place : Place inner role fill) :
    Through inner.schema.read? fun tree => role.schema.read? (fill tree) := by
  induction place with
  | here => exact ⟨fun _ _ same => same, fun _ refused => refused⟩
  | one holds own rest ih => exact ih.fill (Role.through_gap holds own) rest.not_null
  | @many role between _ _ _ holds own before after rest ih =>
    have listed := ih.fill (through_item between.schema.read? before after) rest.not_null
    exact listed.fill (Role.through_gap holds own) fun _ => nofun

end Place

end AstXml
