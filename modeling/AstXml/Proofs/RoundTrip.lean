import AstXml.Document.Decode
import AstXml.Document.Encode
import AstXml.Load
import AstXml.Proofs.Course
import AstXml.Proofs.Json.Structures

/-!
A printed document is read back as itself. Whatever a document holds, valid or not, its text leads
to the same verdict as the document.
-/
namespace AstXml
open Json

@[simp] theorem DeclId.ofJson?_toJson (d : DeclId) : DeclId.ofJson? d.toJson = some d := by
  simp [DeclId.ofJson?, DeclId.toJson]

@[simp] theorem TypeId.ofJson?_toJson (t : TypeId) : TypeId.ofJson? t.toJson = some t := by
  simp [TypeId.ofJson?, TypeId.toJson]

@[simp] theorem FileId.ofJson?_toJson (f : FileId) : FileId.ofJson? f.toJson = some f := by
  simp [FileId.ofJson?, FileId.toJson]

@[simp] theorem Access.ofWord?_json (a : Access) : Access.ofWord? a.json = some a := by
  cases a <;> rfl

@[simp] theorem ClassKey.ofWord?_json (k : ClassKey) : ClassKey.ofWord? k.json = some k := by
  cases k <;> rfl

/-! Fields that are written only now and then. -/

theorem keys_flagField (key : String) (b : Bool) :
    ((flagField key b).map (·.1)).Sublist [key] := by
  cases b <;> simp [flagField]

theorem lookup_flagField (key other : String) (b : Bool) :
    (flagField key b).lookup other =
      if other = key ∧ b = true then some (.bool true) else none := by
  cases b <;> simp [flagField, lookup_field]

theorem keys_optionField {α : Type} (key : String) (write : α → Tree) (value : Option α) :
    ((optionField key write value).map (·.1)).Sublist [key] := by
  cases value <;> simp [optionField]

theorem lookup_optionField {α : Type} (key other : String) (write : α → Tree) (value : Option α) :
    (optionField key write value).lookup other =
      if other = key then value.map write else none := by
  cases value <;> simp [optionField, lookup_field]

theorem withDefault_flag (b : Bool) :
    withDefault false flag? (if b = true then some (.bool true) else none) = some b := by
  cases b <;> rfl

theorem QualType.read?_toJson (foreign : Tree → Bool) (t : QualType) :
    QualType.read? foreign t.toJson = some t := by
  obtain ⟨type, ⟨c, v, r⟩⟩ := t
  have ordered : ((("type", type.toJson) :: (flagField "const" c ++ flagField "volatile" v
      ++ flagField "restrict" r)).map (·.1)).Sublist QualType.keys := by
    simp only [List.map_cons, List.map_append]
    have flags := ((keys_flagField "const" c).append (keys_flagField "volatile" v)).append
      (keys_flagField "restrict" r)
    exact flags.cons_cons "type"
  have read := fields?_ofFields _ (ordered.nodup (by decide)) ordered.subset foreign
  rw [QualType.read?, QualType.toJson, read]
  simp [QualType.keys, QualType.ofFields?, lookup_flagField, List.lookup_append, lookup_field,
    required, withDefault_flag]

/-! Types. -/

theorem kindWord?_ofFields (word : String) (fields : List (String × Tree))
    (distinct : ("kind" :: fields.map (·.1)).Nodup) :
    kindWord? (ofFields (("kind", ofString word) :: fields)) = some word := by
  have found := field?_ofFields (("kind", ofString word) :: fields) distinct "kind"
  rw [ofFields, kindWord?, found]
  simp [required]

/-- A kind of type is written as its word and one field. -/
theorem TypeKind.ofJson?_pair {word key : String} {tree : Tree} {type : TypeKind}
    (other : "kind" ≠ key) (known : TypeKind.keys? word = some [key])
    (read : ∀ foreign, TypeKind.ofFields? foreign word [some tree] = some type) (level : Nat) :
    TypeKind.ofJson? level (ofFields [("kind", ofString word), (key, tree)]) = some type := by
  have distinct : ["kind", key].Nodup := by simp [other]
  have kind := kindWord?_ofFields word [(key, tree)] distinct
  have fields := fields?_ofFields [("kind", ofString word), (key, tree)] distinct
    (List.Subset.refl ["kind", key]) (Tree.isReadable (level + 1))
  rw [TypeKind.ofJson?, kind]
  simp [known, fields, lookup_field, Ne.symm other, read]

theorem TypeKind.ofJson?_fields (level : Nat) (type : TypeKind) :
    TypeKind.ofJson? level (ofFields type.fields) = some type := by
  cases type with
  | pointer pointee =>
    have read := fun foreign => QualType.read?_toJson foreign pointee
    exact ofJson?_pair (by decide) rfl (by simp [ofFields?, required, read]) level
  | _ => exact ofJson?_pair (by decide) rfl (by simp [ofFields?, required]) level

/-! Declarations. -/

theorem Position.ofJson?_fields (p : Position) : Position.ofJson? (ofFields p.fields) = some p := by
  have read := fields?_ofFields p.fields (by simp [Position.fields])
    (List.Subset.refl Position.keys) skipped
  rw [Position.ofJson?, read]
  simp [Position.keys, Position.ofFields?, Position.fields, lookup_field, required]

theorem Location.ofJson?_toJson (l : Location) : Location.ofJson? l.toJson = some l := by
  obtain ⟨written, expansion⟩ := l
  have ordered : ((written.fields ++ optionField "expansion"
      (fun position => ofFields position.fields) expansion).map (·.1)).Sublist
        Location.keys := by
    rw [List.map_append]
    exact (List.Sublist.refl Position.keys).append (keys_optionField ..)
  have read := fields?_ofFields _ (ordered.nodup (by decide)) ordered.subset skipped
  have expanded := nullable_map Position.ofJson?_fields (fun _ same => nomatch same) expansion
  rw [Location.ofJson?, Location.toJson, read]
  generalize (fun position : Position => ofFields position.fields) = write at expanded ⊢
  simp [Location.keys, Location.ofFields?, Position.fields, lookup_field, lookup_optionField,
    required, expanded]

/-- The keys that every declaration shares. -/
def Declaration.commonKeys : List String :=
  ["name", "parent", "previous", "access", "location", "children"]

/-- The fields that stand beside those of the kind. -/
def Declaration.commonFields (d : Declaration) : List (String × Tree) :=
  (if d.name.isEmpty then [] else [("name", ofString d.name)])
    ++ optionField "parent" DeclId.toJson d.parent
    ++ optionField "previous" DeclId.toJson d.previous
    ++ [("access", ofString d.access.json)]
    ++ optionField "location" Location.toJson d.location
    ++ (if d.children.isEmpty then [] else [("children", .array (d.children.map DeclId.toJson))])

theorem Declaration.toJson_eq (d : Declaration) :
    d.toJson = ofFields (d.kind.fields ++ d.commonFields) := by
  simp [toJson, commonFields]

theorem keys_unless (key : String) (tree : Tree) (omitted : Bool) :
    ((if omitted = true then [] else [(key, tree)]).map (·.1)).Sublist [key] := by
  cases omitted <;> simp

theorem lookup_unless (key other : String) (tree : Tree) (omitted : Bool) :
    (if omitted = true then [] else [(key, tree)]).lookup other =
      if other = key ∧ omitted = false then some tree else none := by
  cases omitted <;> simp [lookup_field]

theorem Declaration.keys_commonFields (d : Declaration) :
    (d.commonFields.map (·.1)).Sublist commonKeys := by
  simp only [commonFields, List.map_append]
  have named := keys_unless "name" (ofString d.name) d.name.isEmpty
  have parented := keys_optionField "parent" DeclId.toJson d.parent
  have linked := keys_optionField "previous" DeclId.toJson d.previous
  have placed := keys_optionField "location" Location.toJson d.location
  have filled := keys_unless "children" (.array (d.children.map DeclId.toJson)) d.children.isEmpty
  exact ((((named.append parented).append linked).append (.refl ["access"])).append placed).append
    filled

/-- A kind is written as its word and its own fields, and these are what it is read from. -/
theorem DeclKind.fields_read (kind : DeclKind) : ∃ word own,
    kind.fields = ("kind", ofString word) :: own ∧ keys? word = some (own.map (·.1)) ∧
      ∀ foreign, ofFields? foreign word (own.map fun field => some field.2) = some kind := by
  have types := QualType.read?_toJson
  cases kind <;> refine ⟨_, _, rfl, rfl, fun foreign => ?_⟩ <;>
    simp [ofFields?, required, types, ClassKey.read?, withDefault, flag?]

theorem DeclKind.keys_distinct {word : String} {own : List String} (known : keys? word = some own) :
    ("kind" :: (own ++ Declaration.commonKeys)).Nodup := by
  unfold keys? at known
  split at known <;> cases known <;> decide

/-- Looking the common keys up in `fields` and reading what is there gives the data of `d`. -/
structure Declaration.HeldBy (fields : List (String × Tree)) (d : Declaration) : Prop where
  name : withDefault "" string? (fields.lookup "name") = some d.name
  parent : nullable DeclId.ofJson? (fields.lookup "parent") = some d.parent
  previous : nullable DeclId.ofJson? (fields.lookup "previous") = some d.previous
  access : withDefault .unspecified Access.ofJson? (fields.lookup "access") = some d.access
  location : nullable Location.ofJson? (fields.lookup "location") = some d.location
  children : withDefault [] (list? DeclId.ofJson?) (fields.lookup "children") = some d.children

theorem Declaration.heldBy_commonFields (d : Declaration) : d.HeldBy d.commonFields := by
  have linked := nullable_map DeclId.ofJson?_toJson (fun _ same => nomatch same)
  have placed := nullable_map Location.ofJson?_toJson (fun _ same => nomatch same) d.location
  have filled := list?_map DeclId.ofJson?_toJson d.children
  constructor <;>
    simp only [commonFields, List.lookup_append, lookup_unless, lookup_optionField, lookup_field]
  case name =>
    by_cases unnamed : d.name = ""
    · simp [unnamed, withDefault]
    · simp [unnamed, withDefault]
  case parent => simp [linked]
  case previous => simp [linked]
  case access => simp [withDefault, Access.ofJson?]
  case location => simp [placed]
  case children =>
    by_cases leaf : d.children = []
    · simp [leaf, withDefault]
    · simp [leaf, withDefault, filled]

/-- Fields of other keys in front are no obstacle. -/
theorem Declaration.HeldBy.append {front fields : List (String × Tree)} {d : Declaration}
    (held : d.HeldBy fields) (apart : ∀ key ∈ commonKeys, front.lookup key = none) :
    d.HeldBy (front ++ fields) := by
  have same : ∀ key ∈ commonKeys, (front ++ fields).lookup key = fields.lookup key := by
    intro key common
    rw [List.lookup_append, apart key common, Option.none_or]
  simp only [commonKeys, List.forall_mem_cons] at same
  obtain ⟨name, parent, previous, access, location, children, _⟩ := same
  constructor
  case name => rw [name, held.name]
  case parent => rw [parent, held.parent]
  case previous => rw [previous, held.previous]
  case access => rw [access, held.access]
  case location => rw [location, held.location]
  case children => rw [children, held.children]

theorem Declaration.HeldBy.ofJson? {fields : List (String × Tree)} {d : Declaration}
    (held : d.HeldBy fields) (distinct : (fields.map (·.1)).Nodup) {word : String}
    {own : List String} (named : fields.lookup "kind" = some (ofString word))
    (known : DeclKind.keys? word = some own) (among : fields.map (·.1) ⊆ keys ++ own)
    (read : ∀ foreign, DeclKind.ofFields? foreign word (own.map (List.lookup · fields)) =
      some d.kind) (level : Nat) :
    Declaration.ofJson? level (ofFields fields) = some d := by
  have kind : kindWord? (ofFields fields) = some word := by
    rw [ofFields, kindWord?, field?_ofFields fields distinct, named]
    exact string?_ofString word
  have found := fields?_ofFields fields distinct among (Tree.isReadable (level + 1))
  simp only [Declaration.ofJson?, kind, known, Option.bind_eq_bind, Option.bind_some, found]
  simp [keys, ofFields?, read, held.name, held.parent, held.previous, held.access, held.location,
    held.children]

theorem Declaration.ofJson?_toJson (level : Nat) (d : Declaration) :
    ofJson? level d.toJson = some d := by
  obtain ⟨word, own, written, known, read⟩ := d.kind.fields_read
  have all := DeclKind.keys_distinct known
  have ordered : ((d.kind.fields ++ d.commonFields).map (·.1)).Sublist
      ("kind" :: (own.map (·.1) ++ commonKeys)) := by
    rw [written, List.map_append]
    exact ((List.Sublist.refl _).append d.keys_commonFields).cons_cons _
  have distinct := ordered.nodup all
  have among : (d.kind.fields ++ d.commonFields).map (·.1) ⊆ keys ++ own.map (·.1) := by
    intro key member
    have listed := ordered.subset member
    simp only [keys, commonKeys, List.mem_cons, List.mem_append] at listed ⊢
    tauto
  have apart : ∀ key ∈ commonKeys, d.kind.fields.lookup key = none := by
    intro key common
    rw [List.lookup_eq_none_iff]
    intro field member
    have front : field.1 ∈ "kind" :: own.map (·.1) := by
      simpa [written] using List.mem_map_of_mem (f := (·.1)) member
    have differs := (List.nodup_append.mp all).2.2 field.1 front key common
    simpa using Ne.symm differs
  have ownFields : (own.map (·.1)).map (List.lookup · (d.kind.fields ++ d.commonFields)) =
      own.map fun field => some field.2 := by
    rw [List.map_map]
    apply List.map_congr_left
    intro field member
    exact lookup_of_mem distinct (by simp [written, member])
  rw [toJson_eq]
  apply (d.heldBy_commonFields.append apart).ofJson? distinct _ known among
  · intro foreign
    rw [ownFields, read]
  · rw [written]
    rfl

/-! Documents. -/

theorem Document.ofJson?_toJson (d : Document) : Document.ofJson? d.toJson = some d := by
  obtain ⟨⟨files⟩, ⟨types⟩, ⟨decls⟩⟩ := d
  have readFiles := list?_map string?_ofString files
  have readTypes := list?_map (TypeKind.ofJson?_fields 2) types
  have readDecls := list?_map (Declaration.ofJson?_toJson 2) decls
  have read := fun files types decls => fields?_ofFields
    [("files", files), ("types", types), ("decls", decls)] (by simp)
    (List.Subset.refl keys) skipped
  rw [ofJson?, toJson, read]
  simp [keys, ofFields?, lookup_field, withDefault, readFiles, readTypes, readDecls]

theorem QualType.plain_toJson (t : QualType) : t.toJson.Plain := by
  apply plain_ofFields
  have flags : ∀ key b, ∀ field ∈ flagField key b, field.2.Plain := by
    intro key b field member
    cases b with
    | false => cases member
    | true =>
      cases List.mem_singleton.mp member
      exact plain_bool true
  simp only [List.forall_mem_cons, List.forall_mem_append]
  exact ⟨plain_ofWord _, ⟨flags "const" _, flags "volatile" _⟩, flags "restrict" _⟩

theorem plain_unless {tree : Tree} (plain : tree.Plain) (key : String) (omitted : Bool) :
    ∀ field ∈ (if omitted = true then [] else [(key, tree)]), field.2.Plain := by
  cases omitted <;> simp [plain]

theorem plain_optionField {α : Type} {write : α → Tree} (plain : ∀ x, (write x).Plain)
    (key : String) (value : Option α) : ∀ field ∈ optionField key write value, field.2.Plain := by
  intro field member
  obtain ⟨x, _, rfl⟩ := List.mem_map.mp member
  exact plain x

theorem TypeKind.plain_fields (type : TypeKind) : (ofFields type.fields).Plain := by
  apply plain_ofFields
  cases type <;>
    simp [fields, plain_ofString, DeclId.toJson, plain_ofWord, QualType.plain_toJson]

theorem Position.plain_fields (p : Position) : ∀ field ∈ p.fields, field.2.Plain := by
  simp [fields, FileId.toJson, plain_ofWord]

theorem Location.plain_toJson (l : Location) : l.toJson.Plain := by
  apply plain_ofFields
  have positions := fun p : Position => plain_ofFields p.plain_fields
  exact List.forall_mem_append.mpr ⟨l.written.plain_fields, plain_optionField positions _ _⟩

theorem DeclKind.plain_fields (kind : DeclKind) : ∀ field ∈ kind.fields, field.2.Plain := by
  cases kind <;> simp [fields, plain_ofString, plain_bool, QualType.plain_toJson]

theorem DeclId.plain_toJson (d : DeclId) : d.toJson.Plain := plain_ofWord d.number

theorem Declaration.plain_toJson (d : Declaration) : d.toJson.Plain := by
  have children := plain_map DeclId.plain_toJson d.children
  apply plain_ofFields
  simp only [List.forall_mem_append, List.forall_mem_singleton]
  refine ⟨⟨⟨⟨⟨⟨d.kind.plain_fields, ?named⟩, ?parented⟩, ?linked⟩, plain_ofString _⟩, ?placed⟩,
    ?filled⟩
  case named => exact plain_unless (plain_ofString _) _ _
  case parented | linked => exact plain_optionField DeclId.plain_toJson _ _
  case placed => exact plain_optionField Location.plain_toJson _ _
  case filled => exact plain_unless children _ _

theorem Document.plain_toJson (d : Document) : d.toJson.Plain := by
  apply plain_ofFields
  simp only [List.forall_mem_cons]
  exact ⟨plain_map plain_ofString _, plain_map TypeKind.plain_fields _,
    plain_map Declaration.plain_toJson _, fun _ none => nomatch none⟩

theorem Document.parse?_print (d : Document) : Document.parse? d.print = some d := by
  rw [parse?, print, Tree.parse?_print d.plain_toJson, Option.bind_some, ofJson?_toJson]

theorem Snapshot.parse_print {d : Document} {s : Snapshot} (accepted : d.validate = .ok ())
    (indexed : Snapshot.ofDocument d = .ok s) : Snapshot.parse d.print = .ok s := by
  simp only [parse, d.parse?_print, accepted, indexed]

/-- The text of a document denotes that document. So it is loaded exactly where the document is
accepted, as the snapshot of the document, and else refused for what is wrong with the document. -/
theorem Document.print_loads (d : Document) :
    Document.parse? d.print = some d ∧
    ((∃ s, Snapshot.parse d.print = .ok s) ↔ d.validate = .ok ()) ∧
    (∀ s, Snapshot.parse d.print = .ok s ↔
      d.validate = .ok () ∧ Snapshot.ofDocument d = .ok s) ∧
    ∀ error, Snapshot.parse d.print = .error error ↔
      ∃ why, d.validate = .error why ∧ error = .invalid why := by
  have read := d.parse?_print
  cases verdict : d.validate with
  | error why =>
    have refused : Snapshot.parse d.print = .error (.invalid why) := by
      simp [Snapshot.parse, read, verdict]
    refine ⟨read, ?_, ?_, ?_⟩
    · simp [refused]
    · simp [refused]
    · simp [refused, eq_comm]
  | ok =>
    -- an accepted document never faults while it is indexed
    obtain ⟨s, indexed, _⟩ := Snapshot.ofDocument_sound (d.validate_ok_iff.mp verdict)
    have loaded := Snapshot.parse_print verdict indexed
    refine ⟨read, ?_, ?_, ?_⟩
    · simp [loaded]
    · simp [loaded, indexed]
    · simp [loaded]

end AstXml
