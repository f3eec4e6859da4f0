import AstXml.Proofs.Finished
import AstXml.Proofs.Identifiers

/-!
The references of a document. Every id occurs once, and what an element refers to is there.
-/
namespace AstXml

/-- The type that an attribute refers to, the number of a node and the letters after it. -/
def Attribute.type? {ν φ : Type} : Attribute ν φ → Option (ν × Qualifiers)
  | .type node quals => some (node, quals)
  | _ => none

namespace Element

/-- The value of the `id` attribute. -/
def id : Element → String
  | .node element => nodeId element.number
  | .qualified base quals => typeReference base quals
  | .file number _ => fileId number

def types : Element → List (Nat × Qualifiers)
  | .node element => element.attributes.filterMap (·.type?)
  | .qualified base _ => [(base, .none)]
  | .file .. => []

/-- The nodes that an element refers to, as its context, as members or as types without their
letters. -/
def references : Element → List Nat
  | .node element => element.attributes.flatMap (·.nodes)
  | .qualified base _ => [base]
  | .file .. => []

theorem attributeTexts_head (element : Element) :
    element.attributeTexts.head? = some (Xml.plainAttribute "id" element.id) := by
  cases element <;> rfl

end Element

namespace Report

variable (r : Report)

/-- The ids of the elements other than source files and qualified forms. -/
def nodeIds : List String := (r.elements.filter (·.node?.isSome)).map (·.id)

def formIds : List String := (r.elements.filter (·.form?.isSome)).map (·.id)

/-- Every reference of a document leads to exactly one element. -/
structure Closed (mode : QualifierMode) : Prop where
  shown : ∀ element ∈ r.elements,
    element.attributeTexts.head? = some (Xml.plainAttribute "id" element.id)
  distinct : (r.elements.map (·.id)).Nodup
  numbered : r.nodeIds.Perm ((List.range' 1 r.summary.nodeIds).map nodeId)
  resolved : ∀ element ∈ r.elements, ∀ number ∈ element.references,
    r.nodeIds.count (nodeId number) = 1
  qualified : mode = .element → ∀ element ∈ r.elements, ∀ type ∈ element.types,
    type.2.suffix ≠ "" → r.formIds.count (typeReference type.1 type.2) = 1
  plain : mode = .suffix → r.formIds = []

theorem nodeIds_eq : r.nodeIds = r.nodes.map fun element => nodeId element.number := by
  rw [nodeIds, nodes, List.map_filterMap, ← List.filterMap_eq_map, List.filterMap_filter]
  refine List.filterMap_congr fun element _ => ?_
  cases element <;> rfl

theorem formIds_eq : r.formIds = r.forms.map fun form => typeReference form.1 form.2 := by
  rw [formIds, forms, List.map_filterMap, ← List.filterMap_eq_map, List.filterMap_filter]
  refine List.filterMap_congr fun element _ => ?_
  cases element <;> rfl

end Report

namespace Run

theorem mem_resolve_nodes {run : Run} {a : DraftAttribute} {number : Nat} :
    number ∈ (run.resolve a).nodes ↔ ∃ m ∈ a.nodes, run.registry.numberOf m.entity = number := by
  cases a <;> simp [resolve, Attribute.nodes, Ascending.mem_ofList, eq_comm]

end Run

namespace Dump

/-- An id tells the item that its element was written for. -/
inductive Names (r : Registry) : WorkItem → String → Prop
  | entity {e number complete emitted}
      (found : r.nodes.get? e = some ⟨number, complete, emitted⟩) :
      Names r (.entity e) (nodeId number)
  | qualified {b q} (some : q ≠ .none) : Names r (.qualified b q) (typeReference b q)

theorem names_not_file {item : WorkItem} {r : Registry} (number : Nat) :
    ¬ Names r item (fileId number) := by
  generalize file : fileId number = id
  intro named
  cases named with
  | entity =>
    rw [← typeReference_none] at file
    exact fileId_ne_typeReference _ _ _ file
  | qualified => exact fileId_ne_typeReference _ _ _ file

namespace Course

variable {s : Snapshot} {options : Options} {report : Report} (course : Course s options report)
include course

theorem fileIds_nodup : (report.files.map (·.id)).Nodup := by
  have ids : report.files.map (·.id) = (report.last.files.unlisted.map (·.2)).map fileId := by
    rw [List.map_map]
    refine Outcome.map_mapM course.listed fun file element listed => ?_
    simp only [listFile, Outcome.bind_eq_ok, Outcome.pure_eq_ok] at listed
    obtain ⟨name, _, rfl⟩ := listed
    rfl
  have numbers : (report.last.files.unlisted.map (·.2)).Nodup := by
    rw [FileTable.unlisted, List.map_drop, List.zipIdx_map_snd]
    exact (List.drop_sublist ..).nodup List.nodup_range'
  exact ids ▸ numbers.map fun _ _ => fileId_inj

variable (sound : s.Sound)
include sound

theorem nodeIds_perm :
    report.nodeIds.Perm ((List.range' 1 report.summary.nodeIds).map nodeId) := by
  have numbers := (course.numbers_perm sound).map nodeId
  rw [List.map_map] at numbers
  exact report.nodeIds_eq ▸ numbers

theorem count_nodeId {number : Nat} (known : number ∈ report.last.registry.nodes.numbers) :
    report.nodeIds.count (nodeId number) = 1 := by
  rw [(course.finish sound).1.consistent.numbers] at known
  have distinct : ((List.range' 1 report.summary.nodeIds).map nodeId).Nodup :=
    List.Nodup.map (fun _ _ => nodeId_inj) List.nodup_range'
  rw [(course.nodeIds_perm sound).count_eq]
  exact List.count_eq_one_of_mem distinct (List.mem_map_of_mem known)

theorem numbered_of_reference {element : Element} (member : element ∈ report.elements)
    {number : Nat} (named : number ∈ element.references) :
    number ∈ report.last.registry.nodes.numbers := by
  have consistent := (course.finish sound).1.consistent
  cases element with
  | node element =>
    obtain ⟨draft, _, _, shown, covered⟩ := course.written sound (Report.mem_nodes.mpr member)
    obtain ⟨a, listed, named⟩ := List.mem_flatMap.mp named
    rw [shown] at listed
    obtain ⟨a, drafted, rfl⟩ := List.mem_map.mp listed
    obtain ⟨m, mentioned, rfl⟩ := Run.mem_resolve_nodes.mp named
    obtain ⟨node, found, _⟩ := (covered a drafted).nodes m mentioned
    rw [Registry.numberOf_eq found]
    exact (NodeTable.mem_numbers_iff consistent.keys).mpr ⟨_, node, found, rfl⟩
  | qualified b q =>
    obtain rfl := List.mem_singleton.mp named
    have asked := (course.mem_forms sound).mp (Report.mem_forms.mpr member)
    exact (consistent.bases number q asked).1
  | file => cases named

theorem formIds_nodup : report.formIds.Nodup := by
  rw [report.formIds_eq]
  refine (course.forms_nodup sound).map fun form form' same => ?_
  obtain ⟨bases, quals⟩ := typeReference_inj same
  exact Prod.ext bases quals

theorem mem_formIds {id : String} : id ∈ report.formIds ↔
    ∃ b q, (b, q) ∈ report.last.registry.qualified ∧ typeReference b q = id := by
  simp only [report.formIds_eq, List.mem_map, Prod.exists, course.mem_forms sound]

theorem asked_of_type (elements : options.qualifiers = .element) {element : Element}
    (member : element ∈ report.elements) {b : Nat} {q : Qualifiers}
    (named : (b, q) ∈ element.types) (some : q ≠ .none) :
    (b, q) ∈ report.last.registry.qualified := by
  refine (course.qualified_iff sound b q).mpr ⟨elements, some, ?_⟩
  cases element with
  | node element =>
    obtain ⟨a, listed, same⟩ := List.mem_filterMap.mp named
    refine ⟨element, Report.mem_nodes.mpr member, ?_⟩
    cases a with
    | type => cases same; exact listed
    | _ => cases same
  | qualified =>
    cases List.mem_singleton.mp named
    exact absurd rfl some
  | file => cases named

theorem formIds_suffix (letters : options.qualifiers = .suffix) : report.formIds = [] := by
  rw [report.formIds_eq, List.map_eq_nil_iff, List.eq_nil_iff_forall_not_mem]
  rintro ⟨b, q⟩ member
  have asked := (course.qualified_iff sound b q).mp ((course.mem_forms sound).mp member)
  cases letters.symm.trans asked.1

theorem names_of_turn {turn : Turn} (taken : turn ∈ report.turns) {element : Element}
    (wrote : turn.element = some element) : Names report.last.registry turn.item element.id := by
  have inv := (course.finish sound).1
  cases element with
  | node element =>
    obtain ⟨answers, _, found, _⟩ := (inv.written turn taken).inv_node wrote
    rw [answers, Element.id]
    exact .entity found
  | qualified b q =>
    have form : (b, q) ∈ report.forms := by
      rw [course.forms_eq, List.mem_filterMap]
      exact ⟨_, List.mem_filterMap.mpr ⟨turn, taken, wrote⟩, rfl⟩
    rw [(inv.written turn taken).inv_form wrote, Element.id]
    exact .qualified (inv.consistent.bases b q ((course.mem_forms sound).mp form)).2
  | file number name => exact absurd wrote ((inv.written turn taken).not_file number name)

theorem item_of_id {item item' : WorkItem} {id : String}
    (here : Names report.last.registry item id) (there : Names report.last.registry item' id) :
    item = item' := by
  have consistent := (course.finish sound).1.consistent
  have distinct := consistent.numbers.symm ▸ List.nodup_range'
  generalize same : id = id' at there
  cases here with
  | entity found =>
    cases there with
    | entity found' =>
      rw [NodeTable.key_unique consistent.keys distinct found found' (nodeId_inj same)]
    | qualified some =>
      rw [← typeReference_none] at same
      exact absurd (typeReference_inj same).2.symm some
  | qualified some =>
    cases there with
    | entity =>
      rw [← typeReference_none] at same
      exact absurd (typeReference_inj same).2 some
    | qualified =>
      obtain ⟨rfl, rfl⟩ := typeReference_inj same
      rfl

theorem ids_nodup : (report.elements.map (·.id)).Nodup := by
  rw [Report.elements_eq, List.map_append, List.nodup_append]
  refine ⟨?_, course.fileIds_nodup, ?_⟩
  · have items := course.items_nodup sound
    rw [List.Nodup, List.pairwise_map] at items ⊢
    rw [List.pairwise_filterMap]
    refine items.imp_of_mem fun here there differ element wrote element' wrote' same => ?_
    exact differ (course.item_of_id sound (course.names_of_turn sound here wrote)
      (same ▸ course.names_of_turn sound there wrote'))
  · intro id named id' filed same
    obtain ⟨element, member, rfl⟩ := List.mem_map.mp named
    obtain ⟨turn, taken, wrote⟩ := List.mem_filterMap.mp member
    obtain ⟨file, listed, rfl⟩ := List.mem_map.mp filed
    obtain ⟨number, name, rfl⟩ := course.file_of_listed listed
    exact names_not_file number (same ▸ course.names_of_turn sound taken wrote)

end Course

end Dump

/-- In the dump of an accepted document all ids are distinct, the nodes are numbered without gaps,
and every reference leads to exactly one element. -/
theorem dump_closed (d : Document) (accepted : d.validate = .ok ()) (options : Options) :
    ∃ s report, Snapshot.ofDocument d = .ok s ∧ dump s options = .ok report ∧
      report.Closed options.qualifiers := by
  obtain ⟨s, report, indexed, sound, ⟨course⟩⟩ := Dump.course_of_accepted accepted options
  refine ⟨s, report, indexed, course.dumped sound, ?_⟩
  constructor
  case shown => exact fun element _ => element.attributeTexts_head
  case distinct => exact course.ids_nodup sound
  case numbered => exact course.nodeIds_perm sound
  case resolved =>
    exact fun element member number named =>
      course.count_nodeId sound (course.numbered_of_reference sound member named)
  case qualified =>
    intro elements element member type named letters
    have asked := course.asked_of_type sound elements member named
      (Qualifiers.suffix_ne_empty.mp letters)
    exact List.count_eq_one_of_mem (course.formIds_nodup sound)
      ((course.mem_formIds sound).mpr ⟨_, _, asked, rfl⟩)
  case plain => exact course.formIds_suffix sound

theorem opaquePointer_closed : Document.opaquePointer.validate = .ok () ∧
    ∃ s report, Snapshot.ofDocument .opaquePointer = .ok s ∧ dump s ⟨[], .element⟩ = .ok report ∧
      report.Closed .element :=
  ⟨rfl, dump_closed .opaquePointer rfl ⟨[], .element⟩⟩

end AstXml
