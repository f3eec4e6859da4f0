import AstXml.Proofs.FirstMention

/-!
The second phase in order. When stubs are accepted the queue is empty, and exactly the nodes that
are not complete enter it, in the order of their numbers. From then on an entity enters the queue
when it gets its number, which is the next one. So the numbers written and those that still wait
always make up one ascending list.
-/
namespace AstXml

namespace Registry

variable {r : Registry} {taken : List WorkItem}

/-- The numbers of the entities in the queue, from front to back. -/
def awaited (r : Registry) : List Nat := (r.queue.items.filterMap (·.entity?)).map r.numberOf

/-- The numbers of the nodes that are not complete, in the order of registration. -/
def stubNumbers (r : Registry) : List Nat :=
  (r.nodes.entries.filter (!·.2.complete)).map (·.2.number)

theorem stubNumbers_sublist (r : Registry) : r.stubNumbers.Sublist r.nodes.numbers :=
  List.filter_sublist.map _

/-- The entities of the queue have their numbers, which nothing changes. -/
theorem awaited_keeps {r' : Registry} (h : r.Consistent taken) (kept : r.Keeps r') :
    (r.queue.items.filterMap (·.entity?)).map r'.numberOf = r.awaited := by
  refine List.map_congr_left fun e member => ?_
  obtain ⟨item, queued, same⟩ := List.mem_filterMap.mp member
  cases item with
  | qualified => cases same
  | entity other =>
    cases same
    obtain ⟨node, found, _⟩ := (h.queued_iff e).mp queued
    exact numberOf_keeps kept found

/-- Where stubs are accepted, a mention without a wish for the whole element queues its entity
exactly if it gives it a number. -/
theorem awaited_register (h : r.Consistent taken) (late : r.phase = .acceptIncomplete)
    (e : Entity) : (r.register e false).2.awaited =
      r.awaited ++ List.range' (r.count + 1) ((r.register e false).2.count - r.count) := by
  rcases r.register_cases e false with
    ⟨node, found, _, same⟩ | ⟨_, _, wanted, _, _⟩ | ⟨fresh, same⟩
  · simp [same]
  · cases wanted
  · have kept := awaited_keeps h (keeps_extend fresh false)
    have entry : (r.extend e false).nodes.get? e = some ⟨r.count + 1, false, false⟩ := by
      simp [get?_extend fresh]
    have own : (r.extend e false).numberOf e = r.count + 1 := numberOf_eq entry
    have items : (r.extend e false).queue.items = r.queue.items ++ [.entity e] := by
      simp [extend, late, WorkQueue.items_pushIf]
    have count : (r.extend e false).count = r.count + 1 := rfl
    rw [same, awaited, items, List.filterMap_append, List.map_append, kept, count,
      Nat.add_sub_cancel_left, List.range'_one]
    simp [WorkItem.entity?, own]

theorem awaited_registerQualified (r : Registry) (b : Nat) (q : Qualifiers) :
    (r.registerQualified b q).2.awaited = r.awaited := by
  unfold registerQualified
  split
  · rfl
  · simp only [awaited, WorkQueue.items_push, List.filterMap_append]
    exact congrArg (List.map r.numberOf) (List.append_nil _)

/-- A form at the front of the queue has nobody waiting for it. -/
theorem awaited_next_qualified {b : Nat} {q : Qualifiers} {rest : Registry}
    (front : r.next? = some (.qualified b q, rest)) : rest.awaited = r.awaited := by
  obtain ⟨queue, items, rfl⟩ := next?_eq_some front
  simp only [awaited, items, List.filterMap_cons, WorkItem.entity?]
  rfl

theorem awaited_claim (h : r.Consistent taken) {e : Entity} {rest : Registry}
    (front : r.next? = some (.entity e, rest)) :
    r.awaited = r.numberOf e :: (rest.claim e).awaited := by
  obtain ⟨queue, items, rfl⟩ := next?_eq_some front
  obtain ⟨node, found, _⟩ := (h.queued_iff e).mp (by simp [items])
  have kept : r.Keeps (claim { r with queue } e) := keeps_claim { r with queue } e
  rw [← awaited_keeps h kept, items, List.filterMap_cons, ← numberOf_keeps kept found]
  rfl

/-- Where stubs are accepted in a registry in which nothing waits, exactly the stubs do. -/
theorem awaited_acceptIncomplete (keys : r.nodes.keys.Nodup) (drained : r.queue.items = []) :
    r.acceptIncomplete.2.awaited = r.stubNumbers := by
  have entities : ∀ es : List Entity, (es.map WorkItem.entity).filterMap (·.entity?) = es := by
    intro es
    rw [List.filterMap_map]
    exact List.filterMap_some
  rw [awaited, items_acceptIncomplete, drained, List.nil_append, entities, NodeTable.stubs,
    stubNumbers, List.map_map]
  refine List.map_congr_left fun entry member => ?_
  have listed := (List.mem_filter.mp member).1
  exact numberOf_eq ((NodeTable.get?_eq_some_iff keys).mpr listed)

/-- The numbers handed out between two states. -/
def between (r r' : Registry) : List Nat := List.range' (r.count + 1) (r'.count - r.count)

theorem between_trans {a b c : Registry} (first : a.count ≤ b.count) (second : b.count ≤ c.count) :
    a.between b ++ b.between c = a.between c := by
  have start : b.count + 1 = a.count + 1 + (b.count - a.count) := by omega
  have length : b.count - a.count + (c.count - b.count) = c.count - a.count := by omega
  rw [between, between, start, List.range'_append_1, length, between]

/-- `r'` comes from `r` by registrations where stubs are accepted: what was numbered in between
waits at the end of the queue, in the order of the numbers. -/
structure Lengthens (taken : List WorkItem) (r r' : Registry) : Prop where
  consistent : r'.Consistent taken
  late : r'.phase = .acceptIncomplete
  counted : r.count ≤ r'.count
  awaited : r'.awaited = r.awaited ++ r.between r'

theorem Lengthens.refl (h : r.Consistent taken) (late : r.phase = .acceptIncomplete) :
    Lengthens taken r r :=
  ⟨h, late, Nat.le_refl _, by simp [between]⟩

theorem Lengthens.register {r' : Registry} (h : Lengthens taken r r') (e : Entity) :
    Lengthens taken r (r'.register e false).2 where
  consistent := register_consistent h.consistent e fun _ => rfl
  late := h.late
  counted := h.counted.trans (count_le_register r' e false)
  awaited := by
    have here := awaited_register h.consistent h.late e
    rw [here, h.awaited, List.append_assoc]
    exact congrArg _ (between_trans h.counted (count_le_register r' e false))

theorem Lengthens.qualify {r' : Registry} (h : Lengthens taken r r') {b : Nat} {q : Qualifiers}
    (numbered : b ∈ r'.nodes.numbers) (qualified : q ≠ .none) :
    Lengthens taken r (r'.registerQualified b q).2 where
  consistent := registerQualified_consistent h.consistent numbered qualified
  late := (phase_registerQualified r' b q).trans h.late
  counted := h.counted.trans (count_registerQualified r' b q).ge
  awaited := by
    rw [awaited_registerQualified, h.awaited, between, between, count_registerQualified]

end Registry

namespace Dump

variable {s : Snapshot} {mode : QualifierMode} {turns : List Turn} {run run' : Run} {turn : Turn}

theorem numberAll_lengthens (mode : QualifierMode) (run : Run) {taken : List WorkItem}
    (h : run.registry.Consistent taken) (late : run.registry.phase = .acceptIncomplete)
    {as : List DraftAttribute} (stubs : ∀ m ∈ as.flatMap (·.nodes), m.complete = false) :
    Registry.Lengthens taken run.registry (Run.numberAll mode as run).2.registry := by
  refine Run.numberAll_induction ?_ ?_ run (.refl h late)
  · exact fun _ _ _ _ before numbered qualified => before.qualify numbered qualified
  · exact fun m member _ before => stubs m member ▸ before.register m.entity

/-- The numbers of the nodes written in a series of turns. -/
def nodeNumbers (turns : List Turn) : List Nat :=
  ((turns.filterMap (·.element)).filterMap (·.node?)).map (·.number)

theorem nodeNumbers_append (turns turns' : List Turn) :
    nodeNumbers (turns ++ turns') = nodeNumbers turns ++ nodeNumbers turns' := by
  simp only [nodeNumbers, List.filterMap_append, List.map_append]

/-- In the second phase a turn writes the node that has waited longest, and whatever gets a number
waits behind all others. -/
theorem step_lengthens (sound : s.Sound) (inv : Invariant s turns run)
    (late : run.registry.phase = .acceptIncomplete) (step : Step s mode run turn run') :
    run.registry.count ≤ run'.registry.count ∧ nodeNumbers [turn] ++ run'.registry.awaited =
      run.registry.awaited ++ run.registry.between run'.registry := by
  cases step with
  | @qualified rest b q front =>
    have same := Registry.awaited_next_qualified front
    obtain ⟨queue, _, rfl⟩ := Registry.next?_eq_some front
    have none : run.registry.between { run.registry with queue } = [] := by
      simp [Registry.between, Registry.count]
    refine ⟨Nat.le_refl run.registry.count, ?_⟩
    rw [none, List.append_nil, ← same]
    rfl
  | @entity rest e node draft front found drafted =>
    have behind := Registry.awaited_claim inv.consistent front
    have claimed := (claim_front inv front found).1
    have late' : (rest.claim e).phase = .acceptIncomplete := (phase_front front).trans late
    -- the item has left the queue before its attributes queue others
    obtain ⟨_, _, counted, awaited⟩ := numberAll_lengthens mode
      { run with registry := rest.claim e } claimed late'
      (mentions_late sound inv front found drafted late')
    obtain ⟨queue, _, rfl⟩ := Registry.next?_eq_some front
    refine ⟨counted, ?_⟩
    rw [awaited, behind, Registry.numberOf_eq found]
    rfl

/-- What has been written in the second phase and what still waits are the stubs of the first one
and all that was numbered since. -/
structure Swept (accepted : Registry) (whole turns : List Turn) (run : Run) : Prop where
  late : run.registry.phase = .acceptIncomplete
  counted : accepted.count ≤ run.registry.count
  numbers : nodeNumbers turns ++ run.registry.awaited =
    nodeNumbers whole ++ (accepted.awaited ++ accepted.between run.registry)

theorem Swept.step (sound : s.Sound) {accepted : Registry} {whole : List Turn}
    (h : Swept accepted whole turns run) (inv : Invariant s turns run)
    (step : Step s mode run turn run') : Swept accepted whole (turns ++ [turn]) run' := by
  obtain ⟨counted, numbers⟩ := step_lengthens sound inv h.late step
  refine ⟨(step_invariant sound inv step).2.2.2.trans h.late, h.counted.trans counted, ?_⟩
  rw [nodeNumbers_append, List.append_assoc, numbers, ← List.append_assoc, h.numbers,
    List.append_assoc, List.append_assoc, Registry.between_trans h.counted counted]

namespace Course

variable {options : Options} {report : Report} (course : Course s options report)
  (sound : s.Sound)
include course sound

theorem swept : Swept (acceptStubs course.middle).registry report.whole
    (report.whole ++ report.stubs) report.last := by
  have accepted := course.accepted_invariant sound
  refine turns_induction sound (fun _ _ _ _ inv step before => before.step sound inv step)
    accepted ⟨rfl, Nat.le_refl _, ?_⟩ course.stubs
  simp [Registry.between]

/-- The second phase writes the stubs of the first one, and then all that gets a number in it. -/
theorem stub_numbers : nodeNumbers report.stubs = course.middle.registry.stubNumbers ++
    course.middle.registry.between report.last.registry := by
  have waits : report.last.registry.awaited = [] := by
    rw [Registry.awaited, course.finished]
    rfl
  have keys := (course.middle_invariant sound).1.consistent.keys
  have numbers := (course.swept sound).numbers
  rw [nodeNumbers_append, waits, List.append_nil] at numbers
  rw [List.append_cancel_left numbers]
  exact congrArg (· ++ _) (Registry.awaited_acceptIncomplete keys course.drained)

theorem stub_numbers_ascending : (nodeNumbers report.stubs).Pairwise (· < ·) := by
  have numbered := (course.middle_invariant sound).1.consistent.toNumbered
  rw [course.stub_numbers sound, List.pairwise_append]
  refine ⟨?_, List.pairwise_lt_range', fun early member late member' => ?_⟩
  · have all : course.middle.registry.nodes.numbers.Pairwise (· < ·) :=
      numbered.numbers ▸ List.pairwise_lt_range'
    exact all.sublist (Registry.stubNumbers_sublist _)
  · -- a stub of the first phase was numbered before that phase ended
    have counted := numbered.counted ((Registry.stubNumbers_sublist _).subset member)
    rw [Registry.between, List.mem_range'_1] at member'
    omega

end Course

end Dump

/-! The lines of a document by what they are for. -/

namespace Xml.Line

def isFile (line : Line) : Bool := line.tag == "File"

/-- The line of a node, rather than of a source file or a qualified form. -/
def isNode (line : Line) : Bool := !line.isFile && line.tag != "CvQualifiedType"

/-- The number in the id of a line. -/
def number? (line : Line) : Option Nat :=
  (line.attributes.lookup "id").bind fun id => nodeNumber? id.toList

end Xml.Line

namespace Element

theorem line_isFile (element : Element) : element.line.isFile = true ↔
    ∃ number name, element = .file number name := by
  cases element with
  | node element =>
    cases tag : element.tag with
    | record key => cases key <;> simp [line, Xml.Line.isFile, tag, Tag.text, ClassKey.element]
    | _ => simp [line, Xml.Line.isFile, tag, Tag.text]
  | _ => simp [line, Xml.Line.isFile]

theorem line_isNode (element : Element) : element.line.isNode = element.node?.isSome := by
  cases element with
  | node element =>
    cases tag : element.tag with
    | record key =>
      cases key <;> simp [line, node?, Xml.Line.isNode, Xml.Line.isFile, tag, Tag.text,
        ClassKey.element]
    | _ => simp [line, node?, Xml.Line.isNode, Xml.Line.isFile, tag, Tag.text]
  | _ => simp [line, node?, Xml.Line.isNode, Xml.Line.isFile]

theorem line_number (element : NodeElement) :
    (Element.node element).line.number? = some element.number := by
  rw [Xml.Line.number?, line, List.lookup_cons_self, Option.bind_some, ← typeReference_none,
    nodeNumber?_typeReference]

/-- The lines of nodes show their numbers. -/
theorem lines_numbers (elements : List Element) :
    ((elements.map (·.line)).filter (·.isNode)).map (·.number?) =
      ((elements.filterMap (·.node?)).map (·.number)).map some := by
  induction elements with
  | nil => rfl
  | cons element rest ih =>
    rw [List.map_cons]
    cases element with
    | node element =>
      rw [List.filter_cons_of_pos (line_isNode _), List.map_cons, line_number, ih]
      rfl
    | _ => rwa [List.filter_cons_of_neg (by simp [line_isNode, node?])]

end Element

/-- How a dump goes on from the state between its phases: the stubs are queued, they are written in
the order of their numbers, and then come the source files. -/
structure Report.Sweeps (r : Report) (middle : Run) : Prop where
  drained : middle.registry.queue.items = []
  queued : ∀ item, item ∈ (Dump.acceptStubs middle).registry.queue.items ↔
    ∃ e node, item = .entity e ∧ middle.registry.nodes.get? e = some node ∧ node.complete = false
  once : (Dump.acceptStubs middle).registry.queue.items.Nodup
  numbers : ((r.stubElements.map (·.line)).filter (·.isNode)).map (·.number?) =
    (middle.registry.stubNumbers ++ middle.registry.between r.last.registry).map some
  ascending :
    (middle.registry.stubNumbers ++ middle.registry.between r.last.registry).Pairwise (· < ·)
  parts : Xml.read? r.text = some (r.wholeElements.map (·.line) ++ r.stubElements.map (·.line) ++
    r.files.map (·.line))
  files : (∀ line ∈ r.files.map (·.line), line.isFile = true) ∧
    ∀ line ∈ r.wholeElements.map (·.line) ++ r.stubElements.map (·.line), line.isFile = false

namespace Dump.Course

variable {s : Snapshot} {options : Options} {report : Report} (course : Course s options report)
  (sound : s.Sound)
include course sound

theorem queued_iff (item : WorkItem) :
    item ∈ (acceptStubs course.middle).registry.queue.items ↔ ∃ e node, item = .entity e ∧
      course.middle.registry.nodes.get? e = some node ∧ node.complete = false := by
  have keys := (course.middle_invariant sound).1.consistent.keys
  have items := Registry.items_acceptIncomplete course.middle.registry
  rw [course.drained, List.nil_append] at items
  simp only [acceptStubs, items, List.mem_map, NodeTable.mem_stubs keys]
  constructor
  · rintro ⟨e, ⟨node, found, stub⟩, rfl⟩
    exact ⟨e, node, rfl, found, stub⟩
  · rintro ⟨e, node, rfl, found, stub⟩
    exact ⟨e, ⟨node, found, stub⟩, rfl⟩

/-- Only source files are listed as such. -/
theorem not_file_of_turn {element : Element}
    (member : element ∈ report.wholeElements ++ report.stubElements) :
    element.line.isFile = false := by
  rw [Bool.eq_false_iff, ne_eq, Element.line_isFile]
  rintro ⟨number, name, rfl⟩
  rw [Report.wholeElements, Report.stubElements, ← List.filterMap_append] at member
  obtain ⟨turn, taken, wrote⟩ := List.mem_filterMap.mp member
  exact ((course.finish sound).1.written turn taken).not_file number name wrote

theorem sweeps : report.Sweeps course.middle := by
  have accepted := (course.accepted_invariant sound).consistent
  constructor
  case drained => exact course.drained
  case queued => exact course.queued_iff sound
  case once => exact (List.nodup_append.mp accepted.distinct).2.1
  case numbers =>
    rw [Element.lines_numbers, ← course.stub_numbers sound]
    rfl
  case ascending => exact course.stub_numbers sound ▸ course.stub_numbers_ascending sound
  case parts =>
    rw [report.read, Report.elements, List.map_append, List.map_append]
  case files =>
    constructor
    · intro line member
      obtain ⟨element, listed, rfl⟩ := List.mem_map.mp member
      exact element.line_isFile.mpr (course.file_of_listed listed)
    · intro line member
      rw [← List.map_append] at member
      obtain ⟨element, listed, rfl⟩ := List.mem_map.mp member
      exact course.not_file_of_turn sound listed

end Dump.Course

/-- The second phase is in the order of the numbers, behind the first one and before the files. -/
theorem dump_sweeps (d : Document) (accepted : d.validate = .ok ()) (options : Options) :
    ∃ s start middle report, Snapshot.ofDocument d = .ok s ∧
      Dump.seed s options.startNames = .ok start ∧
      Dump.drain s options.qualifiers (Dump.turnLimit s) start = .ok (report.whole, middle) ∧
      Dump.drain s options.qualifiers (Dump.turnLimit s) (Dump.acceptStubs middle) =
        .ok (report.stubs, report.last) ∧
      dump s options = .ok report ∧ report.Sweeps middle := by
  obtain ⟨s, report, indexed, sound, ⟨course⟩⟩ := Dump.course_of_accepted accepted options
  exact ⟨s, _, course.middle, report, indexed, Dump.seed_eq course.resolved course.seeded,
    course.drain_whole sound, course.drain_stubs sound, course.dumped sound, course.sweeps sound⟩

theorem opaquePointer_sweeps : Document.opaquePointer.validate = .ok () ∧
    ∃ s start middle report, Snapshot.ofDocument .opaquePointer = .ok s ∧
      Dump.seed s ["p"] = .ok start ∧
      Dump.drain s .suffix (Dump.turnLimit s) start = .ok (report.whole, middle) ∧
      Dump.drain s .suffix (Dump.turnLimit s) (Dump.acceptStubs middle) =
        .ok (report.stubs, report.last) ∧
      dump s ⟨["p"], .suffix⟩ = .ok report ∧ report.Sweeps middle :=
  ⟨rfl, dump_sweeps .opaquePointer rfl ⟨["p"], .suffix⟩⟩

end AstXml
