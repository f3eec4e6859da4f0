import AstXml.Proofs.References

/-!
The two forms of qualifiers. Leaving the qualified forms out of a run gives the run without
elements for them: such an item changes nothing but the queue, and it is queued beside the
entities without moving them.
-/
namespace AstXml

def WorkItem.isEntity (item : WorkItem) : Bool := item.entity?.isSome

namespace WorkQueue

/-- The entities of a queue. -/
def plain (queue : WorkQueue) : WorkQueue := ⟨queue.items.filter (·.isEntity)⟩

theorem push_plain (queue : WorkQueue) (e : Entity) :
    queue.plain.push (.entity e) = (queue.push (.entity e)).plain := by
  simp [push, plain, WorkItem.isEntity, WorkItem.entity?]

theorem pushIf_plain (queue : WorkQueue) (condition : Bool) (e : Entity) :
    queue.plain.pushIf condition (.entity e) = (queue.pushIf condition (.entity e)).plain := by
  cases condition
  · rfl
  · exact queue.push_plain e

theorem pushAll_plain (queue : WorkQueue) (es : List Entity) :
    es.foldl (fun queue e => queue.push (.entity e)) queue.plain =
      (es.foldl (fun queue e => queue.push (.entity e)) queue).plain := by
  induction es generalizing queue with
  | nil => rfl
  | cons e rest ih => rw [List.foldl_cons, push_plain, ih, List.foldl_cons]

theorem push_qualified_plain (queue : WorkQueue) (b : Nat) (q : Qualifiers) :
    (queue.push (.qualified b q)).plain = queue.plain := by
  simp [push, plain, WorkItem.isEntity, WorkItem.entity?]

end WorkQueue

namespace Registry

/-- The registry without qualified forms. -/
def plain (r : Registry) : Registry := { r with qualified := [], queue := r.queue.plain }

theorem register_plain (r : Registry) (e : Entity) (complete : Bool) :
    r.plain.register e complete = ((r.register e complete).1, (r.register e complete).2.plain) := by
  simp only [register, plain, WorkQueue.pushIf_plain]

theorem registerQualified_plain (r : Registry) (b : Nat) (q : Qualifiers) :
    (r.registerQualified b q).2.plain = r.plain := by
  unfold registerQualified
  split
  · rfl
  · simp only [plain, WorkQueue.push_qualified_plain]

theorem acceptIncomplete_plain (r : Registry) :
    r.plain.acceptIncomplete.2 = r.acceptIncomplete.2.plain := by
  simp only [acceptIncomplete, plain, WorkQueue.pushAll_plain]

/-- An entity at the front is at the front without the qualified forms. -/
theorem next?_entity_plain {r rest : Registry} {e : Entity}
    (front : r.next? = some (.entity e, rest)) : r.plain.next? = some (.entity e, rest.plain) := by
  obtain ⟨queue, items, rfl⟩ := next?_eq_some front
  simp [next?, plain, WorkQueue.plain, items, WorkItem.isEntity, WorkItem.entity?, WorkQueue.pop?]

theorem next?_qualified_plain {r rest : Registry} {b : Nat} {q : Qualifiers}
    (front : r.next? = some (.qualified b q, rest)) : rest.plain = r.plain := by
  obtain ⟨queue, items, rfl⟩ := next?_eq_some front
  simp [plain, WorkQueue.plain, items, WorkItem.isEntity, WorkItem.entity?]

end Registry

namespace Run

def plain (run : Run) : Run := { run with registry := run.registry.plain }

theorem mention_plain (m : Mention) (run : Run) :
    run.plain.mention m = ((run.mention m).1, (run.mention m).2.plain) := by
  simp only [mention_eq, plain, Registry.register_plain]

theorem mentionAll_plain (ms : List Mention) (run : Run) :
    mentionAll ms run.plain = ((mentionAll ms run).1, (mentionAll ms run).2.plain) := by
  induction ms generalizing run with
  | nil => rfl
  | cons m rest ih => simp only [mentionAll_cons, mention_plain, ih]

theorem mentionQualified_plain (mode : QualifierMode) (b : Nat) (q : Qualifiers) (run : Run) :
    run.plain.mentionQualified .suffix b q = (run.mentionQualified mode b q).plain := by
  rw [mentionQualified_eq, mentionQualified_eq]
  split
  · rfl
  · cases mode with
    | suffix => rfl
    | element => simp only [plain, Registry.registerQualified_plain]

theorem number_plain (mode : QualifierMode) (a : DraftAttribute) (run : Run) :
    run.plain.number .suffix a = ((run.number mode a).1, (run.number mode a).2.plain) := by
  cases a with
  | type m quals => simp only [number_eq, mention_plain, mentionQualified_plain mode]
  | context m => simp only [number_eq, mention_plain]
  | members ms => simp only [number_eq, mentionAll_plain]
  | _ => rfl

/-- An element is numbered the same, whether qualified forms are asked for or not. -/
theorem numberAll_plain (mode : QualifierMode) (as : List DraftAttribute) (run : Run) :
    numberAll .suffix as run.plain =
      ((numberAll mode as run).1, (numberAll mode as run).2.plain) := by
  induction as generalizing run with
  | nil => rfl
  | cons a rest ih => simp only [numberAll_cons, number_plain mode, ih]

end Run

namespace Dump

variable {s : Snapshot} {mode : QualifierMode} {run run' last : Run}

/-- Without the qualified forms a step is the same step or none at all. -/
theorem step_plain {turn : Turn} (step : Step s mode run turn run') :
    turn.item.isEntity = false ∧ run'.plain = run.plain ∨
      turn.item.isEntity = true ∧ Step s .suffix run.plain turn run'.plain := by
  cases step with
  | qualified front =>
    refine .inl ⟨rfl, ?_⟩
    simp only [Run.plain, Registry.next?_qualified_plain front]
  | @entity rest e node draft front found drafted =>
    have numbered := Run.numberAll_plain mode draft.attributes { run with registry := rest.claim e }
    have step : Step s .suffix run.plain _ _ :=
      .entity (Registry.next?_entity_plain front) found drafted
    refine .inr ⟨rfl, ?_⟩
    change Run.numberAll .suffix draft.attributes
      { run.plain with registry := rest.plain.claim e } = _ at numbered
    rwa [numbered] at step

theorem turns_plain {later : List Turn} (steps : Turns s mode run later last) :
    Turns s .suffix run.plain (later.filter (·.item.isEntity)) last.plain := by
  induction steps with
  | done run => exact .done run.plain
  | next step _ ih =>
    rcases step_plain step with ⟨form, same⟩ | ⟨entity, step⟩
    · rw [List.filter_cons, if_neg (by simp [form])]
      exact same ▸ ih
    · rw [List.filter_cons, if_pos entity]
      exact .next step ih

end Dump

/-- The report without the qualified forms. -/
def Report.plain (r : Report) : Report where
  whole := r.whole.filter (·.item.isEntity)
  stubs := r.stubs.filter (·.item.isEntity)
  files := r.files
  last := r.last.plain

namespace Dump.Course

variable {s : Snapshot} {options : Options} {report : Report}

/-- The course of a dump without elements for qualified forms, from that of any dump. -/
def plain (course : Course s options report) :
    Course s ⟨options.startNames, .suffix⟩ report.plain where
  start := course.start
  seeds := course.seeds
  middle := course.middle.plain
  resolved := course.resolved
  seeded := course.seeded
  whole := by
    have seeded := congrArg (·.2) (Run.mentionAll_plain course.seeds .start)
    exact seeded.symm ▸ turns_plain course.whole
  drained := by
    rw [Run.plain, Registry.plain, WorkQueue.plain, course.drained, List.filter_nil]
  stubs := by
    have accepted : acceptStubs course.middle.plain = (acceptStubs course.middle).plain := by
      simp only [acceptStubs, Run.plain, Registry.acceptIncomplete_plain]
    exact accepted.symm ▸ turns_plain course.stubs
  finished := by
    rw [Report.plain, Run.plain, Registry.plain, WorkQueue.plain, course.finished, List.filter_nil]
  listed := course.listed

variable (course : Course s options report) (sound : s.Sound)
include course sound

theorem elements_plain :
    report.elements.filter (·.form?.isNone) = report.plain.elements := by
  have kept : report.plain.turns = report.turns.filter (·.item.isEntity) :=
    (List.filter_append ..).symm
  have files : report.files.filter (·.form?.isNone) = report.files := by
    rw [List.filter_eq_self]
    intro element listed
    obtain ⟨number, name, rfl⟩ := course.file_of_listed listed
    rfl
  rw [Report.elements_eq, Report.elements_eq, List.filter_append, files, kept,
    List.filter_filterMap, List.filterMap_filter]
  refine congrArg (· ++ report.files) (List.filterMap_congr fun turn taken => ?_)
  cases (course.finish sound).1.written turn taken <;> rfl

end Dump.Course

namespace Qualifiers

/-- The attribute for a letter of a suffix. -/
def letterText : Char → String
  | 'c' => Xml.plainAttribute "const" "1"
  | 'v' => Xml.plainAttribute "volatile" "1"
  | _ => Xml.plainAttribute "restrict" "1"

theorem texts_eq (q : Qualifiers) : q.texts = q.suffix.toList.map letterText := by
  obtain ⟨c, v, r⟩ := q
  revert c v r
  decide

end Qualifiers

/-- The document with an element for every qualified form, beside the one without: it has the forms
of its own types in addition, each once, and nothing else. -/
structure Report.Extends (full plain : Report) : Prop where
  kept : full.elements.filter (·.form?.isNone) = plain.elements
  text : plain.text = String.join (Xml.startDocument ::
    ((full.elements.filter (·.form?.isNone)).flatMap (·.pieces) ++ [Xml.endDocument]))
  nodeIds : full.summary.nodeIds = plain.summary.nodeIds
  files : full.summary.files = plain.summary.files
  distinct : full.formIds.Nodup
  forms : ∀ id, id ∈ full.formIds ↔ ∃ element ∈ full.elements, ∃ type ∈ element.types,
    type.2.suffix ≠ "" ∧ typeReference type.1 type.2 = id
  written : ∀ element ∈ full.elements, ∀ b q, element.form? = some (b, q) →
    element.id = typeReference b q ∧ element.pieces =
      Xml.openElement "CvQualifiedType" :: Xml.plainAttribute "id" (typeReference b q) ::
        Xml.plainAttribute "type" (nodeId b) ::
          (q.suffix.toList.map Qualifiers.letterText ++ [Xml.closeElement])

theorem Dump.Course.mem_formIds_iff {s : Snapshot} {options : Options} {report : Report}
    (course : Dump.Course s options report) (sound : s.Sound)
    (elements : options.qualifiers = .element) (id : String) :
    id ∈ report.formIds ↔ ∃ element ∈ report.elements, ∃ type ∈ element.types,
      type.2.suffix ≠ "" ∧ typeReference type.1 type.2 = id := by
  rw [course.mem_formIds sound]
  constructor
  · rintro ⟨b, q, asked, same⟩
    obtain ⟨_, some, element, member, shown⟩ := (course.qualified_iff sound b q).mp asked
    exact ⟨_, Report.mem_nodes.mp member, (b, q), List.mem_filterMap.mpr ⟨_, shown, rfl⟩,
      Qualifiers.suffix_ne_empty.mpr some, same⟩
  · rintro ⟨element, member, ⟨b, q⟩, named, letters, same⟩
    exact ⟨b, q, course.asked_of_type sound elements member named
      (Qualifiers.suffix_ne_empty.mp letters), same⟩

/-- Elements for qualified forms are a conservative extension. -/
theorem dump_extends (d : Document) (accepted : d.validate = .ok ()) (names : List String) :
    ∃ s plain full, Snapshot.ofDocument d = .ok s ∧ dump s ⟨names, .suffix⟩ = .ok plain ∧
      dump s ⟨names, .element⟩ = .ok full ∧ full.Extends plain := by
  obtain ⟨s, full, indexed, sound, ⟨course⟩⟩ :=
    Dump.course_of_accepted accepted ⟨names, .element⟩
  have kept := course.elements_plain sound
  refine ⟨s, full.plain, full, indexed, course.plain.dumped sound, course.dumped sound, ?_⟩
  constructor
  case kept => exact kept
  case text => rw [kept, Report.text, Report.pieces]
  case nodeIds => rfl
  case files => rfl
  case distinct => exact course.formIds_nodup sound
  case forms => exact course.mem_formIds_iff sound rfl
  case written =>
    intro element _ b q form
    cases element <;> cases form
    exact ⟨rfl, by rw [← Qualifiers.texts_eq]; rfl⟩

theorem opaquePointer_extended : Document.opaquePointer.validate = .ok () ∧
    ∃ s plain full, Snapshot.ofDocument .opaquePointer = .ok s ∧
      dump s ⟨[], .suffix⟩ = .ok plain ∧ dump s ⟨[], .element⟩ = .ok full ∧ full.Extends plain :=
  ⟨rfl, dump_extends .opaquePointer rfl []⟩

end AstXml
