import Mathlib.Data.Set.Function
import Mathlib.Order.Interval.Set.Basic
import AstXml.Proofs.Contents
import AstXml.Proofs.Coverage
import AstXml.Proofs.Renumbering

/-!
What a dump writes depends on the set of entities it starts from, and not on the order, the
repetition or the spelling of the names that lead to them. Only the numbers differ, and with them
the order of elements and members.
-/
namespace AstXml

/-- Lists without repeats that two maps take to each other, each undoing the other. -/
theorem perm_of_inverse {α : Type} {xs ys : List α} {f g : α → α} (distinct : xs.Nodup)
    (distinct' : ys.Nodup) (there : ∀ x ∈ xs, f x ∈ ys ∧ g (f x) = x)
    (back : ∀ y ∈ ys, g y ∈ xs ∧ f (g y) = y) : (xs.map f).Perm ys := by
  have injective : ∀ x ∈ xs, ∀ y ∈ xs, f x = f y → x = y := by
    intro x here y there' same
    rw [← (there x here).2, ← (there y there').2, same]
  rw [List.perm_ext_iff_of_nodup (distinct.map_on injective) distinct']
  intro y
  rw [List.mem_map]
  constructor
  · rintro ⟨x, member, rfl⟩
    exact (there x member).1
  · intro member
    exact ⟨g y, back y member⟩

namespace Snapshot

variable {s : Snapshot} {start start' : List DeclId}

/-- The canonical declarations of a start set. -/
def Starts (s : Snapshot) (start : List DeclId) (c : DeclId) : Prop :=
  ∃ d ∈ start, s.canonical d = .ok c

theorem Wanted.transfer (same : ∀ c, s.Starts start c → s.Starts start' c) {e : Entity}
    (wanted : s.Wanted start e) : s.Wanted start' e := by
  induction wanted with
  | start listed canonical =>
    obtain ⟨d, listed', canonical'⟩ := same _ ⟨_, listed, canonical⟩
    exact .start listed' canonical'
  | member _ edge ih => exact .member ih edge
  | type _ edge ih => exact .type ih edge

theorem Reached.transfer (same : ∀ c, s.Starts start c → s.Starts start' c) {e : Entity}
    (reached : s.Reached start e) : s.Reached start' e := by
  induction reached with
  | wanted here => exact .wanted (here.transfer same)
  | scope _ edge ih => exact .scope ih edge
  | type _ edge ih => exact .type ih edge
  | pointee _ edge ih => exact .pointee ih edge

end Snapshot

namespace Report

theorem whole_sublist (r : Report) : r.wholeElements.Sublist r.elements :=
  (List.sublist_append_left ..).trans (List.sublist_append_left ..)

theorem stubs_sublist (r : Report) : r.stubElements.Sublist r.elements :=
  (List.sublist_append_right ..).trans (List.sublist_append_left ..)

theorem files_sublist (r : Report) : r.files.Sublist r.elements := List.sublist_append_right ..

end Report

/-- From the numbers of one report to those of another one. -/
abbrev Report.into (r r' : Report) : Renumbering := .between r.last r'.last

/-- A renumbering that takes every part of one report into the same part of another one, and that
`ρ'` undoes. -/
structure Report.Carried (ρ ρ' : Renumbering) (r r' : Report) : Prop where
  elements : ∀ x ∈ r.elements, x.renumber ρ ∈ r'.elements ∧ (x.renumber ρ).renumber ρ' = x
  whole : ∀ x ∈ r.wholeElements, x.renumber ρ ∈ r'.wholeElements
  files : ∀ x ∈ r.files, x.renumber ρ ∈ r'.files

namespace Report.Carried

variable {ρ ρ' : Renumbering} {r r' : Report}

theorem stubs (there : Carried ρ ρ' r r') (back : Carried ρ' ρ r' r)
    (distinct : r.elements.Nodup) : ∀ x ∈ r.stubElements, x.renumber ρ ∈ r'.stubElements := by
  intro x stub
  obtain ⟨landed, undone⟩ := there.elements x (r.stubs_sublist.subset stub)
  have apart := List.nodup_append.mp distinct
  rcases List.mem_append.mp landed with written | filed
  · rcases List.mem_append.mp written with whole | stub'
    · have returned := undone ▸ back.whole _ whole
      exact absurd rfl ((List.nodup_append.mp apart.1).2.2 x returned x stub)
    · exact stub'
  · have returned := undone ▸ back.files _ filed
    exact absurd rfl (apart.2.2 x (List.mem_append_right _ stub) x returned)

/-- A part that is taken into a part of the other report, and back, is that part. -/
theorem part_perm (there : Carried ρ ρ' r r') (back : Carried ρ' ρ r' r)
    (distinct : r.elements.Nodup) (distinct' : r'.elements.Nodup) {xs ys : List Element}
    (part : xs.Sublist r.elements) (part' : ys.Sublist r'.elements)
    (lands : ∀ x ∈ xs, x.renumber ρ ∈ ys) (returns : ∀ y ∈ ys, y.renumber ρ' ∈ xs) :
    (xs.map (·.renumber ρ)).Perm ys := by
  apply perm_of_inverse (part.nodup distinct) (part'.nodup distinct')
  · exact fun x member => ⟨lands x member, (there.elements x (part.subset member)).2⟩
  · exact fun y member => ⟨returns y member, (back.elements y (part'.subset member)).2⟩

end Report.Carried

namespace Dump.Course

variable {s : Snapshot} {options options' : Options} {report report' : Report}
  (course : Course s options report) (course' : Course s options' report') (sound : s.Sound)

section Single

include course sound

theorem complete_iff {element : NodeElement} (member : element ∈ report.nodes) :
    element.complete = true ↔ s.Wanted course.start element.entity := by
  rw [← course.wanted_iff sound]
  constructor
  · exact fun whole => ⟨element, member, rfl, whole⟩
  · rintro ⟨other, member', same, whole⟩
    have unique := List.inj_on_of_nodup_map (course.entities_nodup sound) member' member same
    exact unique ▸ whole

theorem mem_numbers {number : Nat} : number ∈ Set.Icc 1 report.summary.nodeIds ↔
    ∃ element ∈ report.nodes, element.number = number := by
  have listed := (course.numbers_perm sound).mem_iff (a := number)
  rw [List.mem_map, List.mem_range'_1] at listed
  rw [listed, Set.mem_Icc]
  simp only [Report.summary]
  omega

theorem base_counted {b : Nat} {q : Qualifiers} (member : .qualified b q ∈ report.elements) :
    b ∈ Set.Icc 1 report.summary.nodeIds := by
  have consistent := (course.finish sound).1.consistent
  have asked := (course.mem_forms sound).mp (Report.mem_forms.mpr member)
  exact consistent.toNumbered.counted (consistent.bases b q asked).1

theorem mem_fileNumbers {number : Nat} : number ∈ Set.Icc 1 report.summary.files ↔
    ∃ file ∈ report.last.files.known, report.last.files.numberOf file = number := by
  rw [(course.gathering sound).numbers, ← course.files_length sound]
  exact Set.mem_Icc

end Single

variable (same : ∀ c, s.Starts course.start c ↔ s.Starts course'.start c)
include sound same

/-- Every entity has the same part in both dumps. -/
theorem counterpart {element : NodeElement} (member : element ∈ report.nodes) :
    ∃ other ∈ report'.nodes, other.entity = element.entity ∧ other.complete = element.complete := by
  have reached := (course.reached_iff sound element.entity).mp ⟨element, member, rfl⟩
  have reached' := reached.transfer fun c => (same c).mp
  obtain ⟨other, here, entity⟩ := (course'.reached_iff sound element.entity).mpr reached'
  refine ⟨other, here, entity, ?_⟩
  rw [Bool.eq_iff_iff, course.complete_iff sound member, course'.complete_iff sound here, entity]
  constructor
  · exact fun wanted => wanted.transfer fun c => (same c).mpr
  · exact fun wanted => wanted.transfer fun c => (same c).mp

/-- Under the numbers of the other dump an element is that of the other dump. -/
theorem renumber_mem {element : NodeElement} (member : element ∈ report.nodes) :
    element.renumber (report.into report') ∈ report'.nodes := by
  obtain ⟨other, here, entity, complete⟩ := course.counterpart course' sound same member
  have numbered := (course.finish sound).1.consistent.toNumbered
  obtain ⟨draft, drafted, tag, shown, covered⟩ := course.written sound member
  obtain ⟨draft', drafted', tag', shown', _⟩ := course'.written sound here
  rw [entity, complete] at drafted'
  cases drafted.symm.trans drafted'
  have number : (report.into report').node element.number = other.number := by
    have registered := course'.registered sound here
    rw [Renumbering.between_node numbered (course.registered sound member), ← entity,
      Registry.numberOf_eq registered]
  have attributes : element.attributes.map (·.renumber (report.into report')) =
      other.attributes := by
    rw [shown, shown', List.map_map]
    apply List.map_congr_left
    intro a listed
    exact Renumbering.between_resolve numbered (covered a listed)
  have renumbered : element.renumber (report.into report') = other := by
    obtain ⟨e, c, n, t, as⟩ := other
    simp only [NodeElement.renumber, NodeElement.mk.injEq]
    exact ⟨entity.symm, complete.symm, number, tag.trans tag'.symm, attributes⟩
  exact renumbered ▸ here

theorem renumber_back {element : NodeElement} (member : element ∈ report.nodes) :
    (element.renumber (report.into report')).renumber (report'.into report) = element := by
  have there := course.renumber_mem course' sound same member
  have back := course'.renumber_mem course sound (fun c => (same c).symm) there
  exact List.inj_on_of_nodup_map (course.entities_nodup sound) back member rfl

theorem known_of_known {file : FileId} (known : file ∈ report.last.files.known) :
    file ∈ report'.last.files.known := by
  obtain ⟨element, member, draft, drafted, located⟩ := (course.known_iff sound).mp known
  obtain ⟨other, here, entity, complete⟩ := course.counterpart course' sound same member
  rw [← entity, ← complete] at drafted
  exact (course'.known_iff sound).mpr ⟨other, here, draft, drafted, located⟩

/-- Node numbers are taken to node numbers, and back to what they were. -/
theorem node_back (number : Nat) (counted : number ∈ Set.Icc 1 report.summary.nodeIds) :
    (report.into report').node number ∈ Set.Icc 1 report'.summary.nodeIds ∧
      (report'.into report).node ((report.into report').node number) = number := by
  obtain ⟨element, member, rfl⟩ := (course.mem_numbers sound).mp counted
  have there := course.renumber_mem course' sound same member
  have back := course.renumber_back course' sound same member
  exact ⟨(course'.mem_numbers sound).mpr ⟨_, there, rfl⟩, congrArg NodeElement.number back⟩

/-- The same for the numbers of source files. -/
theorem file_back (number : Nat) (counted : number ∈ Set.Icc 1 report.summary.files) :
    (report.into report').file number ∈ Set.Icc 1 report'.summary.files ∧
      (report'.into report).file ((report.into report').file number) = number := by
  obtain ⟨file, known, rfl⟩ := (course.mem_fileNumbers sound).mp counted
  have known' := course.known_of_known course' sound same known
  rw [Renumbering.between_file known, Renumbering.between_file known']
  exact ⟨(course'.mem_fileNumbers sound).mpr ⟨file, known', rfl⟩, rfl⟩

theorem file_renumber_mem {number : Nat} {name : String}
    (member : .file number name ∈ report.files) :
    .file ((report.into report').file number) name ∈ report'.files ∧
      (report'.into report).file ((report.into report').file number) = number := by
  obtain ⟨file, known, rfl, named⟩ := (course.mem_files sound).mp member
  have known' := course.known_of_known course' sound same known
  have counted := (course.mem_fileNumbers sound).mpr ⟨file, known, rfl⟩
  have there : report'.last.files.numberOf file =
      (report.into report').file (report.last.files.numberOf file) :=
    (Renumbering.between_file known).symm
  exact ⟨(course'.mem_files sound).mpr ⟨file, known', there, named⟩,
    (course.file_back course' sound same _ counted).2⟩

variable (mode : options.qualifiers = options'.qualifiers)

include mode in
/-- A qualified form is asked for by an element, and in the other dump by the same element. -/
theorem form_renumber_mem {b : Nat} {q : Qualifiers} (member : .qualified b q ∈ report.elements) :
    .qualified ((report.into report').node b) q ∈ report'.elements := by
  have asked := (course.mem_forms sound).mp (Report.mem_forms.mpr member)
  obtain ⟨elements, some, element, listed, shown⟩ := (course.qualified_iff sound b q).mp asked
  have there := course.renumber_mem course' sound same listed
  have asked' := (course'.qualified_iff sound _ q).mpr
    ⟨mode ▸ elements, some, _, there, List.mem_map_of_mem shown⟩
  exact Report.mem_forms.mp ((course'.mem_forms sound).mpr asked')

theorem whole_node_renumber_mem {element : NodeElement}
    (member : .node element ∈ report.wholeElements) :
    .node (element.renumber (report.into report')) ∈ report'.wholeElements := by
  obtain ⟨listed, whole⟩ := (course.mem_wholeElements_node sound).mp member
  have there := course.renumber_mem course' sound same listed
  exact (course'.mem_wholeElements_node sound).mpr ⟨there, whole⟩

include mode in
theorem whole_form_renumber_mem {b : Nat} {q : Qualifiers}
    (member : .qualified b q ∈ report.wholeElements) :
    .qualified ((report.into report').node b) q ∈ report'.wholeElements := by
  obtain ⟨elements, some, element, listed, shown⟩ :=
    (course.mem_wholeElements_form sound).mp member
  have there := course.whole_node_renumber_mem course' sound same listed
  exact (course'.mem_wholeElements_form sound).mpr
    ⟨mode ▸ elements, some, _, there, List.mem_map_of_mem shown⟩

include mode in
theorem carried :
    Report.Carried (report.into report') (report'.into report) report report' where
  elements := by
    intro x member
    cases x with
    | node element =>
      have listed := Report.mem_nodes.mpr member
      have there := course.renumber_mem course' sound same listed
      have back := course.renumber_back course' sound same listed
      exact ⟨Report.mem_nodes.mp there, congrArg Element.node back⟩
    | qualified b q =>
      have there := course.form_renumber_mem course' sound same mode member
      have back := (course.node_back course' sound same b (course.base_counted sound member)).2
      exact ⟨there, congrArg (Element.qualified · q) back⟩
    | file number name =>
      have listed := (course.mem_elements_file sound).mp member
      obtain ⟨there, back⟩ := course.file_renumber_mem course' sound same listed
      exact ⟨(course'.mem_elements_file sound).mpr there, congrArg (Element.file · name) back⟩
  whole := by
    intro x member
    cases x with
    | node element => exact course.whole_node_renumber_mem course' sound same member
    | qualified b q => exact course.whole_form_renumber_mem course' sound same mode member
    | file number name =>
      obtain ⟨turn, taken, wrote⟩ := List.mem_filterMap.mp member
      have written := (course.finish sound).1.written turn (List.mem_append_left _ taken)
      exact absurd wrote (written.not_file number name)
  files := by
    intro x member
    obtain ⟨number, name, rfl⟩ := course.file_of_listed member
    exact (course.file_renumber_mem course' sound same member).1

end Dump.Course

/-- Two reports say the same by the numbers that `ρ` gives to nodes and files: part by part, they
have the same elements in some order. -/
structure Report.Agrees (ρ : Renumbering) (r r' : Report) : Prop where
  summary : r.summary = r'.summary
  nodes : Set.BijOn ρ.node (Set.Icc 1 r.summary.nodeIds) (Set.Icc 1 r'.summary.nodeIds)
  files : Set.BijOn ρ.file (Set.Icc 1 r.summary.files) (Set.Icc 1 r'.summary.files)
  whole : (r.wholeElements.map (·.renumber ρ)).Perm r'.wholeElements
  stubs : (r.stubElements.map (·.renumber ρ)).Perm r'.stubElements
  listed : (r.files.map (·.renumber ρ)).Perm r'.files

namespace Dump.Course

variable {s : Snapshot} {options options' : Options} {report report' : Report}
  (course : Course s options report) (course' : Course s options' report') (sound : s.Sound)
  (same : ∀ c, s.Starts course.start c ↔ s.Starts course'.start c)
include sound same

theorem nodes_length : report.summary.nodeIds = report'.summary.nodeIds := by
  have entities : (report.nodes.map (·.entity)).Perm (report'.nodes.map (·.entity)) := by
    rw [List.perm_ext_iff_of_nodup (course.entities_nodup sound) (course'.entities_nodup sound)]
    intro e
    simp only [List.mem_map, course.reached_iff sound, course'.reached_iff sound]
    constructor
    · exact fun reached => reached.transfer fun c => (same c).mp
    · exact fun reached => reached.transfer fun c => (same c).mpr
  have counted := (course.numbers_perm sound).length_eq
  have counted' := (course'.numbers_perm sound).length_eq
  have lengths := entities.length_eq
  simp only [List.length_map, List.length_range'] at counted counted' lengths
  simp only [Report.summary]
  omega

theorem nodes_bijOn : Set.BijOn (report.into report').node
    (Set.Icc 1 report.summary.nodeIds) (Set.Icc 1 report'.summary.nodeIds) := by
  have there := course.node_back course' sound same
  have back := course'.node_back course sound fun c => (same c).symm
  have inverse : Set.InvOn (report'.into report).node (report.into report').node
      (Set.Icc 1 report.summary.nodeIds) (Set.Icc 1 report'.summary.nodeIds) :=
    ⟨fun number counted => (there number counted).2, fun number counted => (back number counted).2⟩
  exact inverse.bijOn (fun number counted => (there number counted).1)
    fun number counted => (back number counted).1

theorem files_bijOn : Set.BijOn (report.into report').file
    (Set.Icc 1 report.summary.files) (Set.Icc 1 report'.summary.files) := by
  have there := course.file_back course' sound same
  have back := course'.file_back course sound fun c => (same c).symm
  have inverse : Set.InvOn (report'.into report).file (report.into report').file
      (Set.Icc 1 report.summary.files) (Set.Icc 1 report'.summary.files) :=
    ⟨fun number counted => (there number counted).2, fun number counted => (back number counted).2⟩
  exact inverse.bijOn (fun number counted => (there number counted).1)
    fun number counted => (back number counted).1

theorem agrees (mode : options.qualifiers = options'.qualifiers) :
    Report.Agrees (report.into report') report report' := by
  have there := course.carried course' sound same mode
  have back := course'.carried course sound (fun c => (same c).symm) mode.symm
  have distinct := course.elements_nodup sound
  have distinct' := course'.elements_nodup sound
  have whole := there.part_perm back distinct distinct' report.whole_sublist
    report'.whole_sublist there.whole back.whole
  have stubs := there.part_perm back distinct distinct' report.stubs_sublist
    report'.stubs_sublist (there.stubs back distinct) (back.stubs there distinct')
  have listed := there.part_perm back distinct distinct' report.files_sublist
    report'.files_sublist there.files back.files
  have ids := course.nodes_length course' sound same
  have complete := whole.length_eq
  have incomplete := stubs.length_eq
  have files := listed.length_eq
  rw [List.length_map] at complete incomplete files
  constructor
  case summary =>
    simp only [Report.summary, Summary.mk.injEq]
    exact ⟨ids, complete, incomplete, files⟩
  case nodes => exact course.nodes_bijOn course' sound same
  case files => exact course.files_bijOn course' sound same
  case whole => exact whole
  case stubs => exact stubs
  case listed => exact listed

end Dump.Course

/-- The canonical declarations that a list of names leads to. -/
def Snapshot.StartsFrom (s : Snapshot) (names : List String) (c : DeclId) : Prop :=
  ∃ start, Dump.startDecls s names = .ok start ∧ s.Starts start c

theorem Dump.Course.startsFrom_iff {s : Snapshot} {options : Options} {report : Report}
    (course : Course s options report) (c : DeclId) :
    s.StartsFrom options.startNames c ↔ s.Starts course.start c := by
  constructor
  · rintro ⟨start, resolved, starts⟩
    cases resolved.symm.trans course.resolved
    exact starts
  · exact fun starts => ⟨course.start, course.resolved, starts⟩

/-- Names that lead to the same entities give the same dump up to its numbers. -/
theorem dump_reordered {d : Document} (accepted : d.validate = .ok ()) {s : Snapshot}
    (indexed : Snapshot.ofDocument d = .ok s) (mode : QualifierMode) {names names' : List String}
    (same : ∀ c, s.StartsFrom names c ↔ s.StartsFrom names' c) :
    ∃ report report' ρ, dump s ⟨names, mode⟩ = .ok report ∧ dump s ⟨names', mode⟩ = .ok report' ∧
      report.Agrees ρ report' := by
  obtain ⟨s', indexed', _, sound⟩ := Snapshot.ofDocument_sound (d.validate_ok_iff.mp accepted)
  cases indexed.symm.trans indexed'
  obtain ⟨report, ⟨course⟩⟩ := Dump.course_total sound ⟨names, mode⟩
  obtain ⟨report', ⟨course'⟩⟩ := Dump.course_total sound ⟨names', mode⟩
  have starts : ∀ c, s.Starts course.start c ↔ s.Starts course'.start c := by
    intro c
    rw [← course.startsFrom_iff c, ← course'.startsFrom_iff c]
    exact same c
  have agrees := course.agrees course' sound starts rfl
  exact ⟨report, report', _, course.dumped sound, course'.dumped sound, agrees⟩

theorem redeclared_reordered : Document.redeclared.validate = .ok () ∧
    Snapshot.ofDocument .redeclared = .ok .redeclared ∧
    (∀ c, Snapshot.redeclared.StartsFrom ["S", "s"] c ↔
      Snapshot.redeclared.StartsFrom ["s", "S", "s"] c) ∧
    ∃ report report' ρ, dump .redeclared ⟨["S", "s"], .element⟩ = .ok report ∧
      dump .redeclared ⟨["s", "S", "s"], .element⟩ = .ok report' ∧ report.Agrees ρ report' := by
  have accepted : Document.redeclared.validate = .ok () := rfl
  have indexed : Snapshot.ofDocument .redeclared = .ok .redeclared := rfl
  have same : ∀ c, Snapshot.redeclared.StartsFrom ["S", "s"] c ↔
      Snapshot.redeclared.StartsFrom ["s", "S", "s"] c := by
    intro c
    have first : Dump.startDecls .redeclared ["S", "s"] = .ok [⟨1⟩, ⟨2⟩, ⟨4⟩] := rfl
    have second : Dump.startDecls .redeclared ["s", "S", "s"] = .ok [⟨4⟩, ⟨1⟩, ⟨2⟩, ⟨4⟩] := rfl
    simp only [Snapshot.StartsFrom, first, second, Except.ok.injEq, exists_eq_left',
      Snapshot.Starts, List.mem_cons, List.not_mem_nil, or_false]
    refine exists_congr fun d => and_congr_left fun _ => ?_
    tauto
  exact ⟨accepted, indexed, same, dump_reordered accepted indexed .element same⟩

end AstXml
