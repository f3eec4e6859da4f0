import AstXml.Document.Decode
import AstXml.Proofs.Json.Orders

/-!
The readers of a document and of the structures in it, each by its schema. None of them sees the
order of members.
-/
namespace AstXml
open Json

/-- A structure without kinds. -/
def Json.Schema.plain {α : Type} (keys : List String) (distinct : keys.Nodup)
    (foreign : Tree → Bool) (build : List (Option Tree) → Option α) : Schema α where
  common := keys
  kind _ := some ""
  own _ := some []
  foreign := foreign
  build _ := build
  distinct := by
    rintro _ _ ⟨rfl⟩
    rwa [List.append_nil]
  kind_object _ := rfl
  kind_array _ _ _ _ := rfl

def Position.schema : Schema Position :=
  .plain Position.keys (by decide) skipped Position.ofFields?

def Location.schema : Schema Location :=
  .plain Location.keys (by decide) skipped Location.ofFields?

def QualType.schema (foreign : Tree → Bool) : Schema QualType :=
  .plain QualType.keys (by decide) foreign QualType.ofFields?

def Document.schema : Schema Document :=
  .plain Document.keys (by decide) skipped Document.ofFields?

theorem kindWord?_object {members members' : List Member}
    (same : field? "kind" members = field? "kind" members') :
    kindWord? (.object members) = kindWord? (.object members') := by
  rw [kindWord?, kindWord?, same]

def TypeKind.schema (level : Nat) : Schema TypeKind where
  common := ["kind"]
  kind := kindWord?
  own := TypeKind.keys?
  foreign := Tree.isReadable (level + 1)
  build word
    | _ :: own => TypeKind.ofFields? (Tree.isReadable (level + 2)) word own
    | [] => none
  distinct := by
    intro word keys known
    unfold TypeKind.keys? at known
    split at known
    all_goals cases known
    all_goals decide
  kind_object same := kindWord?_object (same (List.mem_singleton.mpr rfl))
  kind_array {before} front after tree tree' := by
    cases before with
    | nil => exact absurd rfl (front rfl)
    | cons first rest => rfl

def Declaration.schema (level : Nat) : Schema Declaration where
  common := Declaration.keys
  kind := Declaration.kindWord?
  own := DeclKind.keys?
  foreign := Tree.isReadable (level + 1)
  build := Declaration.ofFields? level
  distinct := by
    intro word keys known
    unfold DeclKind.keys? at known
    split at known
    all_goals cases known
    all_goals decide
  kind_object same := by rw [kindWord?, kindWord?, same (List.mem_cons_self ..)]
  kind_array _ _ _ _ := rfl

/-! The readers are those of the schemas. -/

theorem Position.ofJson?_eq : Position.ofJson? = Position.schema.read? := rfl
theorem Location.ofJson?_eq : Location.ofJson? = Location.schema.read? := rfl
theorem QualType.read?_eq (foreign : Tree → Bool) :
    QualType.read? foreign = (QualType.schema foreign).read? := rfl
theorem Document.ofJson?_eq : Document.ofJson? = Document.schema.read? := rfl
theorem TypeKind.ofJson?_eq (level : Nat) :
    TypeKind.ofJson? level = (TypeKind.schema level).read? := rfl

theorem Declaration.ofJson?_eq (level : Nat) :
    Declaration.ofJson? level = (Declaration.schema level).read? := rfl

/-! No reader sees the order of members. -/

theorem blind_skipped : Blind skipped := fun _ _ _ => rfl

theorem Json.Schema.blind_plain {α : Type} {keys : List String} {distinct : keys.Nodup}
    {foreign : Tree → Bool} {build : List (Option Tree) → Option α} (unseen : Blind foreign)
    (alike : ∀ {fields fields'}, SameFields keys fields fields' → build fields = build fields') :
    Blind (plain keys distinct foreign build).read? := by
  apply Schema.blind (fun _ _ _ => rfl) unseen
  rintro _ _ fields fields' ⟨rfl⟩ same
  apply alike
  simpa [plain] using same

theorem DeclId.blind : Blind DeclId.ofJson? := blind_word.comp (Option.map DeclId.mk)
theorem TypeId.blind : Blind TypeId.ofJson? := blind_word.comp (Option.map TypeId.mk)
theorem FileId.blind : Blind FileId.ofJson? := blind_word.comp (Option.map FileId.mk)

theorem Access.blind : Blind Access.ofJson? := blind_keyword.comp (Option.bind · Access.ofWord?)

theorem ClassKey.blind : Blind ClassKey.read? :=
  blind_looseKeyword.comp (Option.bind · ClassKey.ofWord?)

theorem Position.blind : Blind Position.ofJson? := by
  rw [Position.ofJson?_eq, Position.schema]
  apply Schema.blind_plain blind_skipped
  intro fields fields' same
  obtain ⟨_, _, rfl⟩ := List.length_eq_two.mp same.length
  rcases same.alike with _ | ⟨file, _ | ⟨line, _ | _⟩⟩
  simp [Position.ofFields?, file.required FileId.blind, line.required blind_word]

theorem Location.blind : Blind Location.ofJson? := by
  rw [Location.ofJson?_eq, Location.schema]
  apply Schema.blind_plain blind_skipped
  intro fields fields' same
  obtain ⟨_, _, _, rfl⟩ := List.length_eq_three.mp same.length
  rcases same.alike with _ | ⟨file, _ | ⟨line, _ | ⟨expansion, _ | _⟩⟩⟩
  simp [Location.ofFields?, file.required FileId.blind, line.required blind_word,
    expansion.nullable Position.blind]

theorem QualType.blind {foreign : Tree → Bool} (unseen : Blind foreign) :
    Blind (QualType.read? foreign) := by
  rw [QualType.read?_eq, QualType.schema]
  apply Schema.blind_plain unseen
  intro fields fields' same
  obtain ⟨_, _, _, _, rfl⟩ := List.length_eq_four.mp same.length
  rcases same.alike with _ | ⟨type, _ | ⟨const, _ | ⟨volatile, _ | ⟨restrict, _ | _⟩⟩⟩⟩
  simp [QualType.ofFields?, type.required TypeId.blind, const.withDefault blind_flag,
    volatile.withDefault blind_flag, restrict.withDefault blind_flag]

theorem blind_kindWord : Blind kindWord? := by
  intro tree tree' shuffled
  cases shuffled with
  | members perm => exact blind_string.field (.members perm) "kind"
  | inside gap inner =>
    cases gap with
    | item before after =>
      cases before with
      | nil => exact blind_string inner
      | cons => rfl
    | member before key after =>
      exact blind_string.field (.inside (.member before key after) inner) "kind"

theorem TypeKind.blind (level : Nat) : Blind (TypeKind.ofJson? level) := by
  rw [TypeKind.ofJson?_eq]
  apply Schema.blind blind_kindWord (blind_isReadable _)
  intro word keys fields fields' known same
  have foreign : Blind (Tree.isReadable (level + 2)) := blind_isReadable _
  change TypeKind.keys? word = some keys at known
  unfold TypeKind.keys? at known
  split at known
  all_goals cases known
  all_goals
    obtain ⟨_, _, rfl⟩ := List.length_eq_two.mp same.length
    rcases same.alike with _ | ⟨_, _ | ⟨field, _ | _⟩⟩
    simp [TypeKind.schema, TypeKind.ofFields?, field.required blind_string,
      field.required DeclId.blind, field.required (QualType.blind foreign)]

theorem DeclKind.ofFields?_alike {word : String} {keys : List String}
    (known : DeclKind.keys? word = some keys) {foreign : Tree → Bool} (unseen : Blind foreign)
    {own own' : List (Option Tree)} (same : SameFields keys own own') :
    DeclKind.ofFields? foreign word own = DeclKind.ofFields? foreign word own' := by
  have type := QualType.blind unseen
  unfold DeclKind.keys? at known
  split at known
  all_goals cases known
  case h_1 | h_2 | h_3 =>
    obtain rfl := List.eq_nil_of_length_eq_zero same.length
    cases same.alike
    rfl
  case h_5 =>
    obtain ⟨_, _, _, rfl⟩ := List.length_eq_three.mp same.length
    rcases same.alike with _ | ⟨key, _ | ⟨isDefinition, _ | ⟨isInjectedName, _ | _⟩⟩⟩
    simp [DeclKind.ofFields?, key.required ClassKey.blind, isDefinition.withDefault blind_flag,
      isInjectedName.withDefault blind_flag]
  all_goals
    obtain ⟨_, rfl⟩ := List.length_eq_one_iff.mp same.length
    rcases same.alike with _ | ⟨field, _ | _⟩
    simp [DeclKind.ofFields?, field.required type, field.required blind_string]

theorem DeclKind.blind_wordOrNumber : Blind DeclKind.wordOrNumber? :=
  blind_of_flat (fun _ => rfl) fun _ => rfl

theorem Declaration.blind_kindWord : Blind Declaration.kindWord? := by
  intro tree tree' shuffled
  cases shuffled with
  | members perm => exact DeclKind.blind_wordOrNumber.field (.members perm) "kind"
  | inside gap inner =>
    cases gap with
    | item => rfl
    | member before key after =>
      exact DeclKind.blind_wordOrNumber.field (.inside (.member before key after) inner) "kind"

theorem Declaration.blind (level : Nat) : Blind (Declaration.ofJson? level) := by
  rw [Declaration.ofJson?_eq]
  apply Schema.blind Declaration.blind_kindWord (blind_isReadable _)
  intro word keys fields fields' known same
  have foreign : Blind (Tree.isReadable (level + 2)) := blind_isReadable _
  obtain ⟨length, alike⟩ := same
  rcases alike with _ | ⟨_, _ | ⟨name, _ | ⟨parent, _ | ⟨previous, _ | ⟨access, _ | ⟨location,
    _ | ⟨children, own⟩⟩⟩⟩⟩⟩⟩
  case cons =>
    have counted := length
    simp only [Declaration.schema, Declaration.keys, List.length_append, List.length_cons,
      List.length_nil] at counted
    have kind := DeclKind.ofFields?_alike known foreign ⟨by omega, own⟩
    simp only [Declaration.schema, Declaration.ofFields?, kind, name.withDefault blind_string,
      parent.nullable DeclId.blind, previous.nullable DeclId.blind,
      access.withDefault Access.blind, location.nullable Location.blind,
      children.withDefault DeclId.blind.list]
  all_goals rfl

theorem Document.blind : Blind Document.ofJson? := by
  rw [Document.ofJson?_eq, Document.schema]
  apply Schema.blind_plain blind_skipped
  intro fields fields' same
  obtain ⟨_, _, _, rfl⟩ := List.length_eq_three.mp same.length
  rcases same.alike with _ | ⟨files, _ | ⟨types, _ | ⟨decls, _ | _⟩⟩⟩
  simp [Document.ofFields?, files.withDefault blind_string.list,
    types.withDefault (TypeKind.blind 2).list, decls.withDefault (Declaration.blind 2).list]

end AstXml
