import Mathlib.Data.List.Forall2
import Mathlib.Logic.Relation
import AstXml.Proofs.Json.Schemas

/-!
Values whose objects have their members in another order. Readers do not see the order: neither
those of words and numbers, which take no arrays and objects, nor those of structures.
-/
namespace AstXml.Json

/-- One object, the value itself or any inside it, has its members in another order. -/
inductive Shuffled : Tree → Tree → Prop
  | members {members members' : List Member} (perm : members.Perm members') :
    Shuffled (.object members) (.object members')
  | inside (gap : Gap) {tree tree' : Tree} (inner : Shuffled tree tree') :
    Shuffled (gap.fill tree) (gap.fill tree')

theorem Shuffled.not_null {tree tree' : Tree} (shuffled : Shuffled tree tree') :
    tree ≠ .null ∧ tree' ≠ .null := by
  cases shuffled with
  | members => exact ⟨nofun, nofun⟩
  | inside gap => exact ⟨gap.fill_not_null _, gap.fill_not_null _⟩

variable {α β : Type}

/-- The reader finds the same whatever the order. -/
def Blind (read : Tree → β) : Prop :=
  ∀ ⦃tree tree' : Tree⦄, Shuffled tree tree' → read tree = read tree'

theorem Blind.steps {read : Tree → β} (blind : Blind read) {tree tree' : Tree}
    (shuffled : Relation.ReflTransGen Shuffled tree tree') : read tree = read tree' := by
  induction shuffled with
  | refl => rfl
  | tail _ last ih => exact ih.trans (blind last)

/-- A reader that takes no arrays and no objects. -/
theorem blind_of_flat {read : Tree → Option α} (array : ∀ items, read (.array items) = none)
    (object : ∀ members, read (.object members) = none) : Blind read := by
  intro tree tree' shuffled
  cases shuffled with
  | members => rw [object, object]
  | inside gap =>
    cases gap with
    | item => rw [Gap.fill, Gap.fill, array, array]
    | member => rw [Gap.fill, Gap.fill, object, object]

theorem blind_word : Blind word? := blind_of_flat (fun _ => rfl) fun _ => rfl

theorem blind_flag : Blind flag? := blind_of_flat (fun _ => rfl) fun _ => rfl

theorem blind_string : Blind string? := blind_of_flat (fun _ => rfl) fun _ => rfl

theorem Blind.comp {γ : Type} {read : Tree → β} (blind : Blind read) (f : β → γ) :
    Blind fun tree => f (read tree) :=
  fun _ _ shuffled => congrArg f (blind shuffled)

theorem Blind.list {read : Tree → Option α} (blind : Blind read) : Blind (list? read) := by
  intro tree tree' shuffled
  cases shuffled with
  | members => rfl
  | inside gap inner =>
    cases gap with
    | item before after => simp [Gap.fill, list?, List.mapM_append, blind inner]
    | member => rfl

/-! A word that is the only key of an object. -/

theorem keyword?_many {members : List Member} (many : members.length ≠ 1) :
    keyword? (.object members) = none := by
  match members with
  | [] => rfl
  | _ :: _ :: _ => simp [keyword?]

theorem looseKeyword?_many {members : List Member} (many : members.length ≠ 1) :
    looseKeyword? (.object members) = none := by
  match members with
  | [] => rfl
  | _ :: _ :: _ => simp [looseKeyword?, keyword?]

theorem keyword?_single (key : Text) {value : Tree} (something : value ≠ .null) :
    keyword? (.object [(key, value)]) = none := by
  cases value <;> first | rfl | exact absurd rfl something

theorem looseKeyword?_single (key : Text) {value : Tree} (something : value ≠ .null)
    (filled : value ≠ .object []) : looseKeyword? (.object [(key, value)]) = none := by
  unfold looseKeyword?
  split
  · rename_i same
    cases same
    exact absurd rfl filled
  · exact keyword?_single key something

theorem Shuffled.empty_iff {tree tree' : Tree} (shuffled : Shuffled tree tree') :
    tree = .object [] ↔ tree' = .object [] := by
  cases shuffled with
  | members perm =>
    rw [Tree.object.injEq, Tree.object.injEq, ← List.length_eq_zero_iff, perm.length_eq,
      List.length_eq_zero_iff]
  | inside gap => cases gap <;> simp [Gap.fill]

/-- A reader of words that may be the only key of an object. -/
theorem blind_of_single {read : Tree → Option α} (array : ∀ items, read (.array items) = none)
    (many : ∀ members : List Member, members.length ≠ 1 → read (.object members) = none)
    (single : ∀ key value value', Shuffled value value' →
      read (.object [(key, value)]) = read (.object [(key, value')])) : Blind read := by
  intro tree tree' shuffled
  cases shuffled with
  | @members members members' perm =>
    by_cases one : members.length = 1
    · obtain ⟨member, rfl⟩ := List.length_eq_one_iff.mp one
      rw [List.singleton_perm.mp perm]
    · rw [many _ one, many _ (perm.length_eq ▸ one)]
  | inside gap inner =>
    cases gap with
    | item => rw [Gap.fill, Gap.fill, array, array]
    | member before key after =>
      by_cases alone : before = [] ∧ after = []
      · obtain ⟨rfl, rfl⟩ := alone
        exact single key _ _ inner
      · have several : ∀ value, (before ++ (key, value) :: after).length ≠ 1 := by
          intro value one
          rw [List.length_append, List.length_cons] at one
          exact alone ⟨List.eq_nil_of_length_eq_zero (by omega),
            List.eq_nil_of_length_eq_zero (by omega)⟩
        rw [Gap.fill, Gap.fill, many _ (several _), many _ (several _)]

theorem blind_keyword : Blind keyword? := by
  apply blind_of_single (fun _ => rfl) (fun _ => keyword?_many)
  intro key value value' shuffled
  rw [keyword?_single key shuffled.not_null.1, keyword?_single key shuffled.not_null.2]

theorem blind_looseKeyword : Blind looseKeyword? := by
  apply blind_of_single (fun _ => rfl) (fun _ => looseKeyword?_many)
  intro key value value' shuffled
  by_cases empty : value = .object []
  · rw [empty, shuffled.empty_iff.mp empty]
  · have empty' := mt shuffled.empty_iff.mpr empty
    rw [looseKeyword?_single key shuffled.not_null.1 empty,
      looseKeyword?_single key shuffled.not_null.2 empty']

/-! Whether a value can be read. -/

namespace Tree

theorem itemsReadable_eq_all (level : Nat) (items : List Tree) :
    itemsReadable level items = items.all (isReadable level) := by
  induction items with
  | nil => rfl
  | cons item rest ih => rw [itemsReadable, List.all_cons, ih]

theorem membersReadable_eq_all (level : Nat) (members : List Member) :
    membersReadable level members =
      members.all fun member => member.1.value?.isSome && member.2.isReadable level := by
  induction members with
  | nil => rfl
  | cons member rest ih => rw [membersReadable, List.all_cons, ih]

end Tree

theorem blind_isReadable (level : Nat) : Blind (Tree.isReadable level) := by
  intro tree tree' shuffled
  induction shuffled generalizing level with
  | members perm =>
    rw [Tree.isReadable, Tree.isReadable, Tree.membersReadable_eq_all, Tree.membersReadable_eq_all,
      perm.all_eq]
  | inside gap _ ih =>
    cases gap with
    | item => simp [Gap.fill, Tree.isReadable, Tree.itemsReadable_eq_all, ih]
    | member => simp [Gap.fill, Tree.isReadable, Tree.membersReadable_eq_all, ih]

/-! Fields of a structure, and the structure itself. -/

/-- One field of two structures: the same, or in another order. -/
inductive Alike : Option Tree → Option Tree → Prop
  | refl (field : Option Tree) : Alike field field
  | shuffled {tree tree' : Tree} (shuffled : Shuffled tree tree') : Alike (some tree) (some tree')

theorem Alike.required {read : Tree → Option α} (blind : Blind read) {field field' : Option Tree}
    (alike : Alike field field') : required read field = required read field' := by
  cases alike with
  | refl => rfl
  | shuffled shuffled => exact blind shuffled

theorem Alike.withDefault {read : Tree → Option α} (blind : Blind read) {field field' : Option Tree}
    (alike : Alike field field') (default : α) :
    withDefault default read field = withDefault default read field' := by
  cases alike with
  | refl => rfl
  | shuffled shuffled => exact blind shuffled

theorem nullable_some {read : Tree → Option α} {tree : Tree} (something : tree ≠ .null) :
    nullable read (some tree) = (read tree).map some := by
  cases tree <;> first | rfl | exact absurd rfl something

theorem Alike.nullable {read : Tree → Option α} (blind : Blind read) {field field' : Option Tree}
    (alike : Alike field field') : nullable read field = nullable read field' := by
  cases alike with
  | refl => rfl
  | shuffled shuffled =>
    rw [nullable_some shuffled.not_null.1, nullable_some shuffled.not_null.2, blind shuffled]

/-- A required field of an object in another order. -/
theorem Blind.field {read : Tree → Option α} (blind : Blind read) {members members' : List Member}
    (shuffled : Shuffled (.object members) (.object members')) (k : String) :
    (field? k members).bind (Json.required read) =
      (field? k members').bind (Json.required read) := by
  generalize left : Tree.object members = tree at shuffled
  generalize right : Tree.object members' = tree' at shuffled
  cases shuffled with
  | members perm =>
    cases left
    cases right
    rw [field?_perm perm]
  | inside gap inner =>
    cases gap with
    | item => cases left
    | member before key after =>
      cases left
      cases right
      by_cases same : key.value? = some k
      · rw [field?_same same, field?_same same]
        cases field? k (before ++ after) with
        | none => rfl
        | some other =>
          cases other with
          | none => exact blind inner
          | some => rfl
      · rw [field?_other same, field?_other same]

theorem alike_refl (fields : List (Option Tree)) : List.Forall₂ Alike fields fields :=
  List.forall₂_same.mpr fun field _ => .refl field

theorem alike_set (fields : List (Option Tree)) (i : Nat) {tree tree' : Tree}
    (shuffled : Shuffled tree tree') :
    List.Forall₂ Alike (fields.set i (some tree)) (fields.set i (some tree')) := by
  induction fields generalizing i with
  | nil => exact .nil
  | cons field rest ih =>
    cases i with
    | zero => exact .cons (.shuffled shuffled) (alike_refl rest)
    | succ i => exact .cons (.refl field) (ih i)

/-- The fields of a structure in another order, if there are as many as keys. -/
structure SameFields (keys : List String) (fields fields' : List (Option Tree)) : Prop where
  length : fields.length = keys.length
  alike : List.Forall₂ Alike fields fields'

theorem rel_of_eq {keys : List String} {foreign : Tree → Bool} {tree tree' : Tree}
    (same : fields? keys foreign tree = fields? keys foreign tree') :
    Option.Rel (SameFields keys) (fields? keys foreign tree) (fields? keys foreign tree') := by
  rw [← same]
  cases found : fields? keys foreign tree with
  | none => exact .none
  | some fields => exact .some ⟨length_fields? found, alike_refl fields⟩

theorem fields?_shuffled {keys : List String} (distinct : keys.Nodup) {foreign : Tree → Bool}
    (blind : Blind foreign) {tree tree' : Tree} (shuffled : Shuffled tree tree') :
    Option.Rel (SameFields keys) (fields? keys foreign tree) (fields? keys foreign tree') := by
  cases shuffled with
  | members perm => exact rel_of_eq (fields?_perm perm keys foreign)
  | inside gap inner =>
    cases own : gap.key? keys with
    | none => exact rel_of_eq (fields?_outside own (blind inner))
    | some k =>
      obtain ⟨found, length, read⟩ := fields?_gap distinct foreign own
      rw [read, read]
      cases found with
      | none => exact .none
      | some fields =>
        exact .some ⟨by rw [List.length_set]; exact length fields rfl, alike_set fields _ inner⟩

theorem Schema.blind {schema : Schema α} (kind : Blind schema.kind) (foreign : Blind schema.foreign)
    (build : ∀ {word keys fields fields'}, schema.own word = some keys →
      SameFields (schema.common ++ keys) fields fields' →
        schema.build word fields = schema.build word fields') : Blind schema.read? := by
  intro tree tree' shuffled
  unfold read?
  rw [← kind shuffled]
  cases schema.kind tree with
  | none => rfl
  | some word =>
    cases known : schema.own word with
    | none => simp [known]
    | some keys =>
      have fields := fields?_shuffled (schema.distinct known) foreign shuffled
      simp only [Option.bind_some, known]
      generalize fields? _ _ tree = found at fields
      generalize fields? _ _ tree' = found' at fields
      cases fields with
      | none => rfl
      | some same => exact build known same

end AstXml.Json
