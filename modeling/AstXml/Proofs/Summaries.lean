import AstXml.Proofs.Streaming
import AstXml.Proofs.StubOrder

/-!
What the summary of a dump counts. The counters are kept by the drains and the ids are handed out
by the registry; they describe the document because no turn passes without an element and every
number that is handed out gets one.
-/
namespace AstXml

namespace Element

theorem countP_isNode (elements : List Element) :
    (elements.map (·.line)).countP (·.isNode) = (elements.filterMap (·.node?)).length := by
  have lengths := congrArg List.length (lines_numbers elements)
  rwa [List.length_map, List.length_map, List.length_map, ← List.countP_eq_length_filter]
    at lengths

end Element

namespace Dump

variable {s : Snapshot} {run : Run}

/-- No turn passes without an element. -/
theorem length_of_written {turns : List Turn} (written : ∀ turn ∈ turns, Written s run turn) :
    (turns.filterMap (·.element)).length = turns.length := by
  rw [List.filterMap_length_eq_length]
  intro turn member
  cases written turn member <;> rfl

namespace Course

variable {options : Options} {report : Report} (course : Course s options report)
  (sound : s.Sound)
include course sound

/-- The entries of the registry at the end are the nodes written. -/
theorem entries_perm : report.last.registry.nodes.entries.Perm
    (report.nodes.map fun element =>
      (element.entity, ⟨element.number, element.complete, true⟩)) := by
  have keys := (course.finish sound).1.consistent.keys
  have distinct := course.entities_nodup sound
  rw [List.perm_ext_iff_of_nodup (.of_map Prod.fst keys)
    (.of_map Prod.fst (by rwa [List.map_map]))]
  rintro ⟨e, node⟩
  rw [← NodeTable.get?_eq_some_iff keys, List.mem_map]
  constructor
  · intro found
    obtain ⟨element, member, rfl, _⟩ := course.node_of_entity sound found
    cases found.symm.trans (course.registered sound member)
    exact ⟨element, member, rfl⟩
  · rintro ⟨element, member, same⟩
    cases same
    exact course.registered sound member

/-- Where qualified forms have no elements, all that the turns write are nodes. -/
theorem length_of_suffix (suffix : options.qualifiers = .suffix) {elements : List Element}
    (turned : elements ⊆ report.wholeElements ++ report.stubElements) :
    (elements.filterMap (·.node?)).length = elements.length := by
  rw [List.filterMap_length_eq_length]
  intro element member
  cases element with
  | node => rfl
  | qualified b q =>
    have written : .qualified b q ∈ report.elements := List.mem_append_left _ (turned member)
    have form := (course.mem_forms sound).mp (Report.mem_forms.mpr written)
    have asked := ((course.qualified_iff sound b q).mp form).1
    cases suffix.symm.trans asked
  | file number name =>
    have never := course.not_file_of_turn sound (turned member)
    cases never.symm.trans ((Element.line_isFile _).mpr ⟨number, name, rfl⟩)

omit sound in
theorem nodes_split : report.nodes = report.wholeElements.filterMap (·.node?) ++
    report.stubElements.filterMap (·.node?) := by
  rw [course.nodes_eq, Report.turns, List.filterMap_append, List.filterMap_append]
  rfl

/-- The flags of the nodes tell which phase wrote them. -/
theorem countP_complete :
    report.last.registry.nodes.entries.countP (·.2.complete) =
        (report.wholeElements.filterMap (·.node?)).length ∧
      report.last.registry.nodes.entries.countP (!·.2.complete) =
        (report.stubElements.filterMap (·.node?)).length := by
  have whole : ∀ element ∈ report.wholeElements.filterMap (·.node?), element.complete = true :=
    fun element member =>
      ((course.mem_wholeElements_node sound).mp (Element.mem_filterMap_node.mp member)).2
  have stubs : ∀ element ∈ report.stubElements.filterMap (·.node?), element.complete = false := by
    intro element member
    obtain ⟨turn, taken, wrote⟩ :=
      List.mem_filterMap.mp (Element.mem_filterMap_node.mp member)
    exact course.incomplete_of_stub sound taken wrote
  -- both counts run over the two phases, each of which has one flag throughout
  have counts : ∀ p : Bool → Bool,
      report.last.registry.nodes.entries.countP (p ·.2.complete) =
        (report.wholeElements.filterMap (·.node?)).countP (p ·.complete) +
          (report.stubElements.filterMap (·.node?)).countP (p ·.complete) := by
    intro p
    rw [(course.entries_perm sound).countP_eq, course.nodes_split, List.countP_map,
      List.countP_append]
    rfl
  constructor
  · refine (counts id).trans ?_
    rw [List.countP_eq_length.mpr, List.countP_eq_zero.mpr, Nat.add_zero]
    · exact fun element member => by simp [stubs element member]
    · exact whole
  · refine (counts not).trans ?_
    rw [List.countP_eq_zero.mpr, List.countP_eq_length.mpr, Nat.zero_add]
    · exact fun element member => by simp [stubs element member]
    · exact fun element member => by simp [whole element member]

end Course

end Dump

/-- The summary of a dump tells what its document holds: `lines` are those of the document. -/
structure Report.Counts (r : Report) (mode : QualifierMode) (lines : List Xml.Line)
    (summary : Summary) : Prop where
  nodeIds : summary.nodeIds = lines.countP (·.isNode)
  elements : summary.complete + summary.incomplete = lines.countP (!·.isFile)
  files : summary.files = lines.countP (·.isFile)
  whole : lines.take summary.complete = r.wholeElements.map (·.line)
  turns : summary.complete = r.whole.length ∧ summary.incomplete = r.stubs.length
  flags : mode = .suffix →
    summary.complete = r.last.registry.nodes.entries.countP (·.2.complete) ∧
    summary.incomplete = r.last.registry.nodes.entries.countP (!·.2.complete)

theorem Dump.Course.counts {s : Snapshot} {options : Options} {report : Report}
    (course : Course s options report) (sound : s.Sound) :
    report.Counts options.qualifiers (report.elements.map (·.line)) report.summary := by
  have written := (course.finish sound).1.written
  have turned := (course.sweeps sound).files
  have split : report.elements.map (·.line) = report.wholeElements.map (·.line) ++
      report.stubElements.map (·.line) ++ report.files.map (·.line) := by
    rw [Report.elements, List.map_append, List.map_append]
  constructor
  case nodeIds =>
    rw [Element.countP_isNode]
    exact (course.length_nodes sound).symm
  case elements =>
    rw [split, List.countP_append, List.countP_eq_length.mpr fun line member => by
        rw [turned.2 line member]; rfl,
      List.countP_eq_zero.mpr fun line member => by simp [turned.1 line member]]
    simp [Report.summary]
  case files =>
    rw [split, List.countP_append, List.countP_eq_zero.mpr fun line member => by
        simp [turned.2 line member],
      List.countP_eq_length.mpr turned.1]
    simp [Report.summary]
  case whole =>
    rw [split, List.append_assoc]
    exact List.take_left' (List.length_map _)
  case turns =>
    exact ⟨length_of_written fun turn taken => written turn (List.mem_append_left _ taken),
      length_of_written fun turn taken => written turn (List.mem_append_right _ taken)⟩
  case flags =>
    intro suffix
    obtain ⟨whole, stubs⟩ := course.countP_complete sound
    rw [whole, stubs, course.length_of_suffix sound suffix (List.subset_append_left _ _),
      course.length_of_suffix sound suffix (List.subset_append_right _ _)]
    exact ⟨rfl, rfl⟩

/-- Whenever a dump into a writer succeeds, the writer has been given the document, and the summary
describes it. -/
theorem dump_counts (d : Document) (accepted : d.validate = .ok ()) (options : Options) :
    ∃ s start middle report lines, Snapshot.ofDocument d = .ok s ∧
      Dump.seed s options.startNames = .ok start ∧
      Dump.drain s options.qualifiers (Dump.turnLimit s) start = .ok (report.whole, middle) ∧
      dump s options = .ok report ∧ Xml.read? report.text = some lines ∧
      dumpInto Sink.writer s options .unlimited =
        (.ok report.summary, ⟨none, false, report.text.toUTF8⟩) ∧
      ∀ {ε σ : Type} (out : Writer ε σ) (first last : σ) (summary : Summary),
        dumpInto out s options first = (.ok summary, last) →
          out.serve report.requests first = (none, last) ∧
          report.Counts options.qualifiers lines summary := by
  obtain ⟨s, report, indexed, sound, ⟨course⟩⟩ := Dump.course_of_accepted accepted options
  have dumped := course.dumped sound
  refine ⟨s, _, course.middle, report, _, indexed, Dump.seed_eq course.resolved course.seeded,
    course.drain_whole sound, dumped, report.read, ?_, ?_⟩
  · rw [dumpInto_sink dumped, Sink.unlimited, Sink.writeAll_endless, report.join_writes]
    simp [Report.ended, Sink.flush]
  · intro ε σ out first last summary succeeded
    rw [dumpInto_eq out dumped] at succeeded
    cases served : out.serve report.requests first with
    | mk refused after =>
    rw [served] at succeeded
    cases refused with
    | some why => cases succeeded
    | none =>
      cases succeeded
      exact ⟨rfl, course.counts sound⟩

theorem redeclared_counts : Document.redeclared.validate = .ok () ∧
    ∃ s start middle report lines, Snapshot.ofDocument .redeclared = .ok s ∧
      Dump.seed s ["S::a", "s"] = .ok start ∧
      Dump.drain s .suffix (Dump.turnLimit s) start = .ok (report.whole, middle) ∧
      dump s ⟨["S::a", "s"], .suffix⟩ = .ok report ∧ Xml.read? report.text = some lines ∧
      dumpInto Sink.writer s ⟨["S::a", "s"], .suffix⟩ .unlimited =
        (.ok report.summary, ⟨none, false, report.text.toUTF8⟩) ∧
      ∀ {ε σ : Type} (out : Writer ε σ) (first last : σ) (summary : Summary),
        dumpInto out s ⟨["S::a", "s"], .suffix⟩ first = (.ok summary, last) →
          out.serve report.requests first = (none, last) ∧
          report.Counts .suffix lines summary :=
  ⟨rfl, dump_counts .redeclared rfl ⟨["S::a", "s"], .suffix⟩⟩

end AstXml
