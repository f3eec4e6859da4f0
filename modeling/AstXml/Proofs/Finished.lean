import AstXml.Proofs.Course

/-!
The elements of a finished dump. Nothing waits at the end, so every node that was numbered and
every qualified form that was asked for has its one element.
-/
namespace AstXml

/-- The node that an element stands for. -/
def Element.node? : Element → Option NodeElement
  | .node element => some element
  | _ => none

/-- The node and the qualifiers that an element puts together. -/
def Element.form? : Element → Option (Nat × Qualifiers)
  | .qualified base quals => some (base, quals)
  | _ => none

theorem Element.mem_filterMap_node {elements : List Element} {element : NodeElement} :
    element ∈ elements.filterMap (·.node?) ↔ .node element ∈ elements := by
  rw [List.mem_filterMap]
  constructor
  · rintro ⟨wrote, member, same⟩
    cases wrote <;> cases same
    exact member
  · exact fun member => ⟨_, member, rfl⟩

namespace Report

def turns (r : Report) : List Turn := r.whole ++ r.stubs

def nodes (r : Report) : List NodeElement := r.elements.filterMap (·.node?)

def forms (r : Report) : List (Nat × Qualifiers) := r.elements.filterMap (·.form?)

theorem mem_nodes {r : Report} {element : NodeElement} :
    element ∈ r.nodes ↔ .node element ∈ r.elements :=
  Element.mem_filterMap_node

theorem mem_forms {r : Report} {b : Nat} {q : Qualifiers} :
    (b, q) ∈ r.forms ↔ .qualified b q ∈ r.elements := by
  rw [forms, List.mem_filterMap]
  constructor
  · rintro ⟨wrote, member, same⟩
    cases wrote <;> cases same
    exact member
  · exact fun member => ⟨_, member, rfl⟩

theorem elements_eq (r : Report) : r.elements = r.turns.filterMap (·.element) ++ r.files := by
  simp only [elements, wholeElements, stubElements, turns, List.filterMap_append]

end Report

namespace WorkItem

def entity? : WorkItem → Option Entity
  | .entity e => some e
  | .qualified .. => none

def form? : WorkItem → Option (Nat × Qualifiers)
  | .entity _ => none
  | .qualified b q => some (b, q)

end WorkItem

namespace Run

theorem mentionAll_qualified (ms : List Mention) (run : Run) :
    (mentionAll ms run).2.registry.qualified = run.registry.qualified := by
  induction ms generalizing run with
  | nil => rfl
  | cons m rest ih => exact ih (run.mention m).2

theorem number_qualified (mode : QualifierMode) (a : DraftAttribute) (run : Run) (b : Nat)
    (q : Qualifiers) :
    (b, q) ∈ (run.number mode a).2.registry.qualified ↔ (b, q) ∈ run.registry.qualified ∨
      mode = .element ∧ q ≠ .none ∧ (run.number mode a).1 = .type b q := by
  cases a with
  | type m quals =>
    simp only [number_eq, mentionQualified_eq]
    split
    · rename_i none
      have none := (Qualifiers.isNone_iff quals).mp none
      simp only [Attribute.type.injEq]
      refine ⟨.inl, fun member => member.elim id ?_⟩
      rintro ⟨_, some, _, rfl⟩
      exact absurd none some
    · rename_i some
      have some : quals ≠ .none := fun none => some ((Qualifiers.isNone_iff quals).mpr none)
      cases mode with
      | suffix => simp [mention_eq, Registry.register]
      | element =>
        simp only [Registry.mem_registerQualified, Attribute.type.injEq, true_and]
        refine or_congr Iff.rfl ⟨?_, ?_⟩
        · rintro ⟨rfl, rfl⟩
          exact ⟨some, rfl, rfl⟩
        · rintro ⟨_, rfl, rfl⟩
          exact ⟨rfl, rfl⟩
  | members ms => simp [number_eq, mentionAll_qualified]
  | context m => simp [number_eq, mention_eq, Registry.register]
  | _ => simp [number_eq]

/-- The qualified forms that an element asks for are those of its type attributes. -/
theorem numberAll_qualified (mode : QualifierMode) (as : List DraftAttribute) (run : Run)
    (b : Nat) (q : Qualifiers) :
    (b, q) ∈ (numberAll mode as run).2.registry.qualified ↔ (b, q) ∈ run.registry.qualified ∨
      mode = .element ∧ q ≠ .none ∧ .type b q ∈ (numberAll mode as run).1 := by
  induction as generalizing run with
  | nil => simp [numberAll_nil]
  | cons a rest ih =>
    simp only [numberAll_cons, ih, number_qualified, List.mem_cons,
      eq_comm (a := Attribute.type b q)]
    tauto

end Run

namespace Dump

variable {s : Snapshot} {mode : QualifierMode} {run run' : Run} {turn : Turn}

/-- The turn wrote the element of a node, with the given attribute. -/
def Shows (turn : Turn) (a : Attribute Nat Nat) : Prop :=
  ∃ element, turn.element = some (.node element) ∧ a ∈ element.attributes

theorem step_qualified (step : Step s mode run turn run') (b : Nat) (q : Qualifiers) :
    (b, q) ∈ run'.registry.qualified ↔ (b, q) ∈ run.registry.qualified ∨
      mode = .element ∧ q ≠ .none ∧ Shows turn (.type b q) := by
  cases step with
  | qualified front =>
    obtain ⟨queue, _, rfl⟩ := Registry.next?_eq_some front
    simp [Shows]
  | entity front =>
    obtain ⟨queue, _, rfl⟩ := Registry.next?_eq_some front
    rw [Run.numberAll_qualified]
    simp [Shows, Registry.claim]

/-- A turn asks for the qualified forms that it shows. -/
theorem step_shown (step : Step s mode run turn run') {turns : List Turn} {b : Nat}
    {q : Qualifiers} (before : (b, q) ∈ run.registry.qualified ↔ mode = .element ∧ q ≠ .none ∧
      ∃ turn ∈ turns, Shows turn (.type b q)) :
    (b, q) ∈ run'.registry.qualified ↔ mode = .element ∧ q ≠ .none ∧
      ∃ other ∈ turns ++ [turn], Shows other (.type b q) := by
  rw [step_qualified step, before]
  simp only [List.mem_append, List.mem_singleton, or_and_right, exists_or, exists_eq_left,
    and_or_left]

theorem Written.inv_node (h : Written s run turn) {element : NodeElement}
    (wrote : turn.element = some (.node element)) :
    turn.item = .entity element.entity ∧ ∃ draft,
      run.registry.nodes.get? element.entity = some ⟨element.number, element.complete, true⟩ ∧
      s.draft element.entity element.complete = .ok draft ∧ element.tag = draft.tag ∧
      element.attributes = draft.attributes.map run.resolve ∧
      ∀ a ∈ draft.attributes, run.CoversAll a := by
  cases h with
  | qualified => simp at wrote
  | node found drafted tag shown covered =>
    simp only [Option.some.injEq, Element.node.injEq] at wrote
    subst wrote
    exact ⟨rfl, _, found, drafted, tag, shown, covered⟩

theorem Written.inv_form (h : Written s run turn) {b : Nat} {q : Qualifiers}
    (wrote : turn.element = some (.qualified b q)) : turn.item = .qualified b q := by
  cases h <;> simp_all

theorem Written.form_of_item (h : Written s run turn) {b : Nat} {q : Qualifiers}
    (item : turn.item = .qualified b q) : turn.element = some (.qualified b q) := by
  cases h <;> simp_all

theorem Written.not_file (h : Written s run turn) (number : Nat) (name : String) :
    turn.element ≠ some (.file number name) := by
  cases h <;> simp

theorem entities_of_written {turns : List Turn} (written : ∀ turn ∈ turns, Written s run turn) :
    ((turns.filterMap (·.element)).filterMap (·.node?)).map (·.entity) =
      (turns.map (·.item)).filterMap (·.entity?) := by
  simp only [List.filterMap_filterMap, List.filterMap_map, List.map_filterMap]
  refine List.filterMap_congr fun turn member => ?_
  cases written turn member <;> rfl

theorem forms_of_written {turns : List Turn} (written : ∀ turn ∈ turns, Written s run turn) :
    (turns.filterMap (·.element)).filterMap (·.form?) =
      (turns.map (·.item)).filterMap (·.form?) := by
  simp only [List.filterMap_filterMap, List.filterMap_map]
  refine List.filterMap_congr fun turn member => ?_
  cases written turn member <;> rfl

namespace Course

variable {options : Options} {report : Report} (course : Course s options report)
include course

theorem file_of_listed {element : Element} (member : element ∈ report.files) :
    ∃ number name, element = .file number name := by
  obtain ⟨file, _, listed⟩ := (Outcome.mem_mapM course.listed element).mp member
  simp only [listFile, Outcome.bind_eq_ok, Outcome.pure_eq_ok] at listed
  obtain ⟨name, _, same⟩ := listed
  exact ⟨_, _, same.symm⟩

theorem filterMap_elements {α : Type} {view : Element → Option α}
    (skips : ∀ number name, view (.file number name) = none) :
    report.elements.filterMap view = (report.turns.filterMap (·.element)).filterMap view := by
  rw [Report.elements_eq, List.filterMap_append, List.append_right_eq_self,
    List.filterMap_eq_nil_iff]
  intro element member
  obtain ⟨number, name, rfl⟩ := course.file_of_listed member
  exact skips number name

theorem nodes_eq : report.nodes = (report.turns.filterMap (·.element)).filterMap (·.node?) :=
  course.filterMap_elements fun _ _ => rfl

theorem forms_eq : report.forms = (report.turns.filterMap (·.element)).filterMap (·.form?) :=
  course.filterMap_elements fun _ _ => rfl

theorem mem_nodes {element : NodeElement} :
    element ∈ report.nodes ↔ ∃ turn ∈ report.turns, turn.element = some (.node element) := by
  rw [course.nodes_eq]
  simp only [List.mem_filterMap]
  constructor
  · rintro ⟨wrote, ⟨turn, member, same⟩, found⟩
    cases wrote with
    | node => exact ⟨turn, member, same.trans (by cases found; rfl)⟩
    | _ => cases found
  · rintro ⟨turn, member, wrote⟩
    exact ⟨_, ⟨turn, member, wrote⟩, rfl⟩

variable (sound : s.Sound)
include sound

theorem finish : Invariant s report.turns report.last ∧
    report.last.registry.phase = .acceptIncomplete :=
  course.last_invariant sound

theorem kept : (Run.mentionAll course.seeds .start).2.Keeps report.last := by
  obtain ⟨seeded, early⟩ := seed_invariant sound course.seeded
  obtain ⟨middle, first, _, phase⟩ := turns_invariant sound seeded course.whole
  obtain ⟨accepted, second, _⟩ := acceptStubs_invariant middle course.drained (phase.trans early)
  obtain ⟨_, third, _⟩ := turns_invariant sound accepted course.stubs
  exact (first.trans second).trans third

/-- Every node of the document is written as its draft has it, by the numbers of the end. -/
theorem written {element : NodeElement} (member : element ∈ report.nodes) : ∃ draft,
    s.draft element.entity element.complete = .ok draft ∧ element.tag = draft.tag ∧
      element.attributes = draft.attributes.map report.last.resolve ∧
      ∀ a ∈ draft.attributes, report.last.CoversAll a := by
  obtain ⟨turn, taken, wrote⟩ := course.mem_nodes.mp member
  obtain ⟨_, draft, _, written⟩ := ((course.finish sound).1.written _ taken).inv_node wrote
  exact ⟨draft, written⟩

theorem registered {element : NodeElement} (member : element ∈ report.nodes) :
    report.last.registry.nodes.get? element.entity =
      some ⟨element.number, element.complete, true⟩ := by
  obtain ⟨turn, taken, wrote⟩ := course.mem_nodes.mp member
  obtain ⟨_, draft, found, _⟩ := ((course.finish sound).1.written _ taken).inv_node wrote
  exact found

theorem entities_eq : report.nodes.map (·.entity) =
    (report.turns.map (·.item)).filterMap (·.entity?) := by
  rw [course.nodes_eq, entities_of_written (course.finish sound).1.written]

theorem items_nodup : (report.turns.map (·.item)).Nodup :=
  (List.nodup_append.mp (course.finish sound).1.consistent.distinct).1

theorem entities_nodup : (report.nodes.map (·.entity)).Nodup := by
  rw [course.entities_eq sound]
  refine (course.items_nodup sound).filterMap fun a a' e here there => ?_
  cases a <;> cases a' <;> simp_all [WorkItem.entity?]

theorem mem_entities {e : Entity} :
    e ∈ report.nodes.map (·.entity) ↔ ∃ node, report.last.registry.nodes.get? e = some node := by
  obtain ⟨inv, late⟩ := course.finish sound
  have taken : e ∈ report.nodes.map (·.entity) ↔ report.last.registry.Emitted e := by
    rw [course.entities_eq sound, ← inv.consistent.taken_iff, List.mem_filterMap]
    constructor
    · rintro ⟨item, member, same⟩
      cases item with
      | entity => cases same; exact member
      | qualified => cases same
    · exact fun member => ⟨_, member, rfl⟩
  rw [taken]
  constructor
  · exact fun ⟨node, found, _⟩ => ⟨node, found⟩
  · rintro ⟨node, found⟩
    cases claimed : node.emitted with
    | true => exact ⟨node, found, claimed⟩
    | false =>
      have waiting := (inv.consistent.queued_iff e).mpr ⟨node, found, claimed, .inr late⟩
      rw [course.finished] at waiting
      cases waiting

theorem node_of_entity {e : Entity} {node : Node}
    (found : report.last.registry.nodes.get? e = some node) :
    ∃ element ∈ report.nodes, element.entity = e ∧ element.number = node.number ∧
      element.complete = node.complete := by
  obtain ⟨element, member, rfl⟩ := List.mem_map.mp ((course.mem_entities sound).mpr ⟨node, found⟩)
  cases found.symm.trans (course.registered sound member)
  exact ⟨element, member, rfl, rfl, rfl⟩

theorem entity_of_number {element : NodeElement} (wrote : element ∈ report.nodes) {e : Entity}
    {node : Node} (found : report.last.registry.nodes.get? e = some node)
    (same : element.number = node.number) : element.entity = e := by
  have consistent := (course.finish sound).1.consistent
  exact NodeTable.key_unique consistent.keys (consistent.numbers ▸ List.nodup_range')
    (course.registered sound wrote) found same

/-- The numbers of the nodes are those from 1 to the number of nodes, in some order. -/
theorem numbers_perm :
    (report.nodes.map (·.number)).Perm (List.range' 1 report.last.registry.count) := by
  have consistent := (course.finish sound).1.consistent
  have distinct : report.last.registry.nodes.numbers.Nodup :=
    consistent.numbers.symm ▸ List.nodup_range'
  rw [← consistent.numbers, List.perm_ext_iff_of_nodup _ distinct]
  · intro number
    rw [NodeTable.mem_numbers_iff consistent.keys, List.mem_map]
    constructor
    · rintro ⟨element, member, rfl⟩
      exact ⟨_, _, course.registered sound member, rfl⟩
    · rintro ⟨e, node, found, rfl⟩
      obtain ⟨element, member, _, number, _⟩ := course.node_of_entity sound found
      exact ⟨element, member, number⟩
  · refine List.Nodup.map_on ?_ (course.entities_nodup sound).of_map
    intro a here b there same
    refine List.inj_on_of_nodup_map (course.entities_nodup sound) here there ?_
    exact NodeTable.key_unique consistent.keys distinct (course.registered sound here)
      (course.registered sound there) same

theorem length_nodes : report.nodes.length = report.summary.nodeIds := by
  have numbers := (course.numbers_perm sound).length_eq
  rwa [List.length_map, List.length_range'] at numbers

theorem mem_forms {b : Nat} {q : Qualifiers} :
    (b, q) ∈ report.forms ↔ (b, q) ∈ report.last.registry.qualified := by
  have inv := (course.finish sound).1
  rw [course.forms_eq, forms_of_written inv.written, ← inv.consistent.qualified_iff,
    course.finished, List.append_nil, List.mem_filterMap]
  constructor
  · rintro ⟨item, member, same⟩
    cases item with
    | entity => cases same
    | qualified => cases same; exact member
  · exact fun member => ⟨_, member, rfl⟩

theorem forms_nodup : report.forms.Nodup := by
  rw [course.forms_eq, forms_of_written (course.finish sound).1.written]
  refine (course.items_nodup sound).filterMap fun a a' form here there => ?_
  cases a <;> cases a' <;> grind [WorkItem.form?]

/-- The qualified forms asked for are those of the type attributes written, if forms have
elements. -/
theorem qualified_iff (b : Nat) (q : Qualifiers) :
    (b, q) ∈ report.last.registry.qualified ↔ options.qualifiers = .element ∧ q ≠ .none ∧
      ∃ element ∈ report.nodes, .type b q ∈ element.attributes := by
  have shown : (b, q) ∈ report.last.registry.qualified ↔ options.qualifiers = .element ∧
      q ≠ .none ∧ ∃ turn ∈ report.turns, Shows turn (.type b q) := by
    refine course.induction sound (P := fun turns run => (b, q) ∈ run.registry.qualified ↔
      options.qualifiers = .element ∧ q ≠ .none ∧ ∃ turn ∈ turns, Shows turn (.type b q))
      ?_ ?_ ?_
    · simp [Run.mentionAll_qualified, Run.start, Registry.empty]
    · exact fun _ _ _ _ _ step before => step_shown step before
    · exact fun _ _ before => before
  rw [shown]
  refine and_congr_right fun _ => and_congr_right fun _ => ⟨?_, ?_⟩
  · rintro ⟨turn, taken, element, wrote, member⟩
    exact ⟨element, course.mem_nodes.mpr ⟨turn, taken, wrote⟩, member⟩
  · rintro ⟨element, here, member⟩
    obtain ⟨turn, taken, wrote⟩ := course.mem_nodes.mp here
    exact ⟨turn, taken, element, wrote, member⟩

end Course

end Dump

end AstXml
