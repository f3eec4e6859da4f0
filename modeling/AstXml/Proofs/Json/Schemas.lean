import AstXml.Proofs.Json.Members

/-!
Readers of structures. The kind of a structure, if it has kinds, adds keys to the common ones; the
fields under all of them make the value. Such a reader skips foreign members, refuses a key of its
own that is given twice, and sees what is under one of its keys in that field alone.
-/
namespace AstXml.Json

/-- What a reader of structures goes by. The kind depends on the field `kind` only, which comes
first; the readers of structures without kinds find the same kind everywhere. -/
structure Schema (α : Type) where
  common : List String
  kind : Tree → Option String
  own : String → Option (List String)
  foreign : Tree → Bool
  build : String → List (Option Tree) → Option α
  distinct : ∀ {word keys}, own word = some keys → (common ++ keys).Nodup
  kind_object : ∀ {members members'},
    ("kind" ∈ common → field? "kind" members = field? "kind" members') →
      kind (.object members) = kind (.object members')
  kind_array : ∀ {before}, (common.head? = some "kind" → before ≠ []) → ∀ after tree tree',
    kind (.array (before ++ tree :: after)) = kind (.array (before ++ tree' :: after))

namespace Schema

variable {α : Type} (schema : Schema α)

/-- The keys of the structure that a tree stands for. -/
def keys (tree : Tree) : List String :=
  schema.common ++ ((schema.kind tree).bind schema.own).getD []

def read? (tree : Tree) : Option α :=
  (schema.kind tree).bind fun word => (schema.own word).bind fun own =>
    (fields? (schema.common ++ own) schema.foreign tree).bind (schema.build word)

variable {schema}

theorem keys_of_kind {tree : Tree} {word : String} {own : List String}
    (kind : schema.kind tree = some word) (known : schema.own word = some own) :
    schema.keys tree = schema.common ++ own := by
  simp [keys, kind, known]

theorem common_subset (tree : Tree) : schema.common ⊆ schema.keys tree :=
  List.subset_append_left ..

theorem read?_congr {tree tree' : Tree} (kind : schema.kind tree = schema.kind tree')
    (fields : fields? (schema.keys tree) schema.foreign tree =
      fields? (schema.keys tree) schema.foreign tree') :
    schema.read? tree = schema.read? tree' := by
  unfold read?
  rw [← kind]
  cases found : schema.kind tree with
  | none => rfl
  | some word =>
    cases known : schema.own word with
    | none => simp [known]
    | some own =>
      rw [keys_of_kind found known] at fields
      simp [known, fields]

theorem read?_refused {tree : Tree}
    (fields : fields? (schema.keys tree) schema.foreign tree = none) :
    schema.read? tree = none := by
  unfold read?
  cases found : schema.kind tree with
  | none => rfl
  | some word =>
    cases known : schema.own word with
    | none => simp [known]
    | some own =>
      rw [keys_of_kind found known] at fields
      simp [known, fields]

theorem kind_foreign {before after : List Member} {key : Text} {k : String}
    (named : key.value? = some k) (other : k ∉ schema.common) (value : Tree) :
    schema.kind (.object (before ++ (key, value) :: after)) =
      schema.kind (.object (before ++ after)) := by
  apply schema.kind_object
  intro kinded
  apply field?_other
  rw [named]
  rintro ⟨rfl⟩
  exact other kinded

/-- A member under a foreign key changes nothing if its value is acceptable. -/
theorem read?_foreign {before after : List Member} {key : Text} {k : String} {value : Tree}
    (named : key.value? = some k) (other : k ∉ schema.keys (.object (before ++ after)))
    (accepted : schema.foreign value = true) :
    schema.read? (.object (before ++ (key, value) :: after)) =
      schema.read? (.object (before ++ after)) := by
  have kind : schema.kind (.object (before ++ (key, value) :: after)) =
      schema.kind (.object (before ++ after)) :=
    kind_foreign named (fun common => other (schema.common_subset _ common)) value
  apply Eq.symm
  apply read?_congr kind.symm
  rw [fields?_foreign named other, if_pos accepted]

theorem read?_twice {members : List Member} {k : String}
    (own : k ∈ schema.keys (.object members)) (twice : Twice k members) :
    schema.read? (.object members) = none :=
  read?_refused (fields?_twice own schema.foreign twice)

/-- The kind does not depend on what is in a gap of another field. -/
theorem kind_gap {gap : Gap} {tree : Tree} {k : String}
    (own : gap.key? (schema.keys (gap.fill tree)) = some k) (other : k ≠ "kind") (tree' : Tree) :
    schema.kind (gap.fill tree') = schema.kind (gap.fill tree) := by
  cases gap with
  | item before after =>
    apply schema.kind_array
    rintro first rfl
    obtain ⟨rest, common⟩ := List.head?_eq_some_iff.mp first
    simp only [Gap.key?, keys, common, List.length_nil, List.cons_append, List.getElem?_cons_zero,
      Option.some.injEq] at own
    exact other own.symm
  | member before key after =>
    obtain ⟨named, _⟩ := Option.filter_eq_some_iff.mp own
    apply schema.kind_object
    intro _
    have differs : key.value? ≠ some "kind" := by
      rw [named]
      rintro ⟨rfl⟩
      exact other rfl
    rw [field?_other differs, field?_other differs]

/-- What is in the gap of a field shows in that field alone, and nowhere if the rest of the
structure is refused. -/
theorem read?_gap {gap : Gap} {tree : Tree} {k : String}
    (own : gap.key? (schema.keys (gap.fill tree)) = some k) (other : k ≠ "kind") :
    (∀ tree', schema.read? (gap.fill tree') = none) ∨
      ∃ (word : String) (keys : List String) (fields : List (Option Tree)),
        schema.own word = some keys ∧ k ∈ schema.common ++ keys ∧
        fields.length = (schema.common ++ keys).length ∧
        ∀ tree', schema.read? (gap.fill tree') =
          schema.build word (fields.set ((schema.common ++ keys).idxOf k) (some tree')) := by
  have kinds := kind_gap own other
  cases kind : schema.kind (gap.fill tree) with
  | none => exact .inl fun tree' => by rw [read?, kinds, kind]; rfl
  | some word =>
    cases known : schema.own word with
    | none => exact .inl fun tree' => by simp [read?, kinds, kind, known]
    | some keys =>
      rw [keys_of_kind kind known] at own
      obtain ⟨found, length, read⟩ := fields?_gap (schema.distinct known) schema.foreign own
      have reads : ∀ tree', schema.read? (gap.fill tree') =
          (found.map (·.set ((schema.common ++ keys).idxOf k) (some tree'))).bind
            (schema.build word) := by
        simp [read?, kinds, kind, known, read]
      cases found with
      | none => exact .inl reads
      | some fields =>
        have member : k ∈ schema.common ++ keys := by
          cases gap with
          | item => exact List.mem_of_getElem? own
          | member => simpa using (Option.filter_eq_some_iff.mp own).2
        exact .inr ⟨word, keys, fields, known, member, length fields rfl, reads⟩

end Schema

end AstXml.Json
