import Mathlib.Data.List.Nodup
import AstXml.Json.Fields
import AstXml.Proofs.Json.Trees

/-!
Printed structures. The fields of an object with distinct keys are those it was made from, and
what is written for a value reads as the value.
-/
namespace AstXml.Json

/-! Looking fields up by their keys. -/

theorem lookup_field (key first : String) (tree : Tree) (rest : List (String × Tree)) :
    ((first, tree) :: rest).lookup key = if key = first then some tree else rest.lookup key := by
  by_cases same : key = first
  · simp [same]
  · have differs : (key == first) = false := by simpa using same
    simp [List.lookup_cons, differs, same]

theorem lookup_of_mem {fields : List (String × Tree)} (distinct : (fields.map (·.1)).Nodup)
    {field : String × Tree} (member : field ∈ fields) : fields.lookup field.1 = some field.2 := by
  induction fields with
  | nil => cases member
  | cons first rest ih =>
    obtain ⟨fresh, later⟩ := List.nodup_cons.mp distinct
    rw [lookup_field]
    cases member with
    | head => simp
    | tail _ member =>
      have other : field.1 ≠ first.1 := by
        intro same
        exact fresh (List.mem_map.mpr ⟨field, member, same⟩)
      rw [if_neg other, ih later member]

theorem filter_key {fields : List (String × Tree)} (distinct : (fields.map (·.1)).Nodup)
    (key : String) : fields.filter (·.1 = key) = (fields.lookup key).toList.map (key, ·) := by
  induction fields with
  | nil => rfl
  | cons field rest ih =>
    obtain ⟨first, tree⟩ := field
    obtain ⟨fresh, later⟩ := List.nodup_cons.mp distinct
    by_cases same : first = key
    · subst same
      have unique : rest.filter (·.1 = first) = [] := by
        rw [List.filter_eq_nil_iff]
        intro other member equal
        exact fresh (List.mem_map.mpr ⟨other, member, by simpa using equal⟩)
      simp [unique]
    · simp [same, lookup_field, Ne.symm same, ih later]

theorem field?_ofFields (fields : List (String × Tree)) (distinct : (fields.map (·.1)).Nodup)
    (key : String) : field? key (fields.map fun field => (.ofString field.1, field.2)) =
      some (fields.lookup key) := by
  have named : (fields.map fun field => ((.ofString field.1, field.2) : Member)).filter
      (fun member => member.1.value? = some key) =
        (fields.filter (·.1 = key)).map fun field => (.ofString field.1, field.2) := by
    rw [List.filter_map]
    simp only [Function.comp_def, Text.value?_ofString, Option.some.injEq]
  unfold field?
  rw [named, filter_key distinct]
  cases fields.lookup key <;> rfl

/-- An object with some of the keys of a structure. -/
theorem fields?_ofFields (fields : List (String × Tree)) (distinct : (fields.map (·.1)).Nodup)
    {keys : List String} (among : fields.map (·.1) ⊆ keys) (foreign : Tree → Bool) :
    fields? keys foreign (ofFields fields) = some (keys.map fun key => fields.lookup key) := by
  have keyed : wellKeyed keys foreign
      (fields.map fun field => (.ofString field.1, field.2)) = true := by
    simp only [wellKeyed, List.all_map, List.all_eq_true, Function.comp_apply,
      Text.value?_ofString]
    intro field member
    have key : field.1 ∈ keys := among (List.mem_map_of_mem member)
    simp [key]
  simp only [fields?, ofFields, keyed, if_true, field?_ofFields fields distinct]
  exact List.mapM_pure ..

/-! Values and what is written for them. -/

@[simp] theorem word?_ofWord (w : UInt32) : word? (ofWord w) = some w := by
  have small : w.toNat < 4294967296 := w.toNat_lt
  simp [word?, ofWord, Numeral.natural?_ofNat, small]

@[simp] theorem string?_ofString (s : String) : string? (ofString s) = some s :=
  Text.value?_ofString s

@[simp] theorem keyword?_ofString (s : String) : keyword? (ofString s) = some s :=
  Text.value?_ofString s

@[simp] theorem looseKeyword?_ofString (s : String) : looseKeyword? (ofString s) = some s :=
  Text.value?_ofString s

variable {α : Type}

theorem list?_map {read : Tree → Option α} {write : α → Tree}
    (reads : ∀ x, read (write x) = some x) (xs : List α) :
    list? read (.array (xs.map write)) = some xs := by
  induction xs with
  | nil => rfl
  | cons x rest ih =>
    rw [list?] at ih ⊢
    simp [reads, ih]

theorem nullable_map {read : Tree → Option α} {write : α → Tree}
    (reads : ∀ x, read (write x) = some x) (proper : ∀ x, write x ≠ .null) (value : Option α) :
    nullable read (value.map write) = some value := by
  cases value with
  | none => rfl
  | some x =>
    have written := reads x
    have something := proper x
    rw [Option.map_some]
    generalize write x = tree at written something
    cases tree <;> simp_all [nullable]

theorem plain_ofWord (w : UInt32) : (ofWord w).Plain :=
  List.forall_mem_singleton.mpr (.number _)

theorem plain_ofString (s : String) : (ofString s).Plain :=
  List.forall_mem_singleton.mpr (.text _)

theorem plain_bool (b : Bool) : (Tree.bool b).Plain := List.forall_mem_singleton.mpr (.bool b)

theorem plain_ofFields {fields : List (String × Tree)} (plain : ∀ field ∈ fields, field.2.Plain) :
    (ofFields fields).Plain := by
  apply Tree.plain_object
  · intro member listed
    obtain ⟨field, _, rfl⟩ := List.mem_map.mp listed
    exact .text _
  · intro member listed
    obtain ⟨field, here, rfl⟩ := List.mem_map.mp listed
    exact plain field here

theorem plain_map {write : α → Tree} (plain : ∀ x, (write x).Plain) (xs : List α) :
    (Tree.array (xs.map write)).Plain := by
  apply Tree.plain_array
  intro item listed
  obtain ⟨x, _, rfl⟩ := List.mem_map.mp listed
  exact plain x

end AstXml.Json
