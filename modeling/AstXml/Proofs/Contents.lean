import AstXml.Proofs.Phases
import AstXml.Proofs.References

/-!
What each part of a finished dump contains: the whole elements and the qualified forms they ask
for, and the source files that its elements are located in.
-/
namespace AstXml
open Outcome

namespace FileTable

/-- Nothing is listed yet, and every file is known once. -/
structure Gathering (t : FileTable) : Prop where
  listed : t.listed = 0
  distinct : t.known.Nodup

theorem Gathering.register {t : FileTable} (h : t.Gathering) (file : FileId) :
    (t.register file).2.Gathering := by
  unfold FileTable.register
  cases found : t.known.idxOf? file with
  | some i => exact h
  | none =>
    have fresh : file ∉ t.known := List.idxOf?_eq_none_iff.mp found
    refine ⟨h.listed, ?_⟩
    rw [← List.concat_eq_append]
    exact h.distinct.concat fresh

/-- The files still to be listed are those known, each with its number. -/
theorem Gathering.mem_unlisted {t : FileTable} (h : t.Gathering) {file : FileId} {number : Nat} :
    (file, number) ∈ t.unlisted ↔ file ∈ t.known ∧ t.numberOf file = number := by
  rw [unlisted, h.listed, List.drop_zero, List.mk_mem_zipIdx_iff_le_and_getElem?_sub]
  constructor
  · rintro ⟨positive, entry⟩
    have known : file ∈ t.known := List.mem_of_getElem? entry
    obtain ⟨i, entry', counted⟩ := numberOf_known known
    obtain ⟨inside, here⟩ := List.getElem?_eq_some_iff.mp entry
    obtain ⟨inside', here'⟩ := List.getElem?_eq_some_iff.mp entry'
    have position : number - 1 = i := h.distinct.getElem_inj_iff.mp (here.trans here'.symm)
    exact ⟨known, by omega⟩
  · rintro ⟨known, rfl⟩
    obtain ⟨i, entry, counted⟩ := numberOf_known known
    rw [counted]
    exact ⟨by omega, entry⟩

/-- The numbers of the known files are those from 1 to the number of files. -/
theorem Gathering.numbers {t : FileTable} (h : t.Gathering) {number : Nat} :
    (∃ file ∈ t.known, t.numberOf file = number) ↔ 1 ≤ number ∧ number ≤ t.known.length := by
  simp only [← h.mem_unlisted]
  simp only [unlisted, h.listed, List.drop_zero, List.mk_mem_zipIdx_iff_le_and_getElem?_sub]
  constructor
  · rintro ⟨file, positive, entry⟩
    have inside := (List.getElem?_eq_some_iff.mp entry).1
    exact ⟨positive, by omega⟩
  · rintro ⟨positive, within⟩
    have inside : number - 1 < t.known.length := by omega
    exact ⟨t.known[number - 1], positive, List.getElem?_eq_getElem inside⟩

end FileTable

namespace Run

theorem number_gathering (mode : QualifierMode) (a : DraftAttribute) {run : Run}
    (h : run.files.Gathering) : (run.number mode a).2.files.Gathering := by
  cases a with
  | type m quals =>
    simp only [number_eq, mentionQualified_files]
    exact h
  | members ms =>
    simp only [number_eq, mentionAll_files]
    exact h
  | location file line => exact h.register file
  | _ => exact h

theorem numberAll_gathering (mode : QualifierMode) (as : List DraftAttribute) {run : Run}
    (h : run.files.Gathering) : (numberAll mode as run).2.files.Gathering := by
  induction as generalizing run with
  | nil => exact h
  | cons a rest ih => exact ih (number_gathering mode a h)

end Run

namespace Dump

variable {s : Snapshot} {mode : QualifierMode} {run run' : Run} {turn : Turn}

theorem step_gathering (step : Step s mode run turn run') (h : run.files.Gathering) :
    run'.files.Gathering := by
  cases step with
  | qualified => exact h
  | entity _ _ drafted => exact Run.numberAll_gathering mode _ h

/-- The turn wrote an element that is located in `file`. -/
def Locates (s : Snapshot) (turn : Turn) (file : FileId) : Prop :=
  ∃ element draft, turn.element = some (.node element) ∧
    s.draft element.entity element.complete = .ok draft ∧ file ∈ draft.files

theorem step_files (step : Step s mode run turn run') {file : FileId}
    (known : file ∈ run'.files.known) : file ∈ run.files.known ∨ Locates s turn file := by
  cases step with
  | qualified => exact .inl known
  | entity _ _ drafted =>
    exact (Run.numberAll_files mode _ _ file known).imp_right
      fun located => ⟨_, _, rfl, drafted, located⟩

namespace Course

variable {options : Options} {report : Report} (course : Course s options report)
  (sound : s.Sound)
include course sound

theorem elements_nodup : report.elements.Nodup := (course.ids_nodup sound).of_map

theorem complete_of_whole {turn : Turn} (taken : turn ∈ report.whole) {element : NodeElement}
    (wrote : turn.element = some (.node element)) : element.complete = true := by
  obtain ⟨seeded, early⟩ := seed_invariant sound course.seeded
  have written := (course.finish sound).1.written turn (List.mem_append_left _ taken)
  obtain ⟨other, wrote', _, complete_iff⟩ :=
    turns_complete sound seeded course.whole taken (written.inv_node wrote).1
  cases wrote.symm.trans wrote'
  exact complete_iff.mpr early

theorem incomplete_of_stub {turn : Turn} (taken : turn ∈ report.stubs) {element : NodeElement}
    (wrote : turn.element = some (.node element)) : element.complete = false := by
  have written := (course.finish sound).1.written turn (List.mem_append_right _ taken)
  obtain ⟨other, wrote', _, complete_iff⟩ := turns_complete sound (course.accepted_invariant sound)
    course.stubs taken (written.inv_node wrote).1
  cases wrote.symm.trans wrote'
  exact Bool.eq_false_iff.mpr fun done => nomatch complete_iff.mp done

theorem mem_wholeElements_node {element : NodeElement} :
    .node element ∈ report.wholeElements ↔ element ∈ report.nodes ∧ element.complete = true := by
  rw [Report.wholeElements, List.mem_filterMap, course.mem_nodes]
  constructor
  · rintro ⟨turn, taken, wrote⟩
    exact ⟨⟨turn, List.mem_append_left _ taken, wrote⟩, course.complete_of_whole sound taken wrote⟩
  · rintro ⟨⟨turn, taken, wrote⟩, whole⟩
    rcases List.mem_append.mp taken with early | late
    · exact ⟨turn, early, wrote⟩
    · cases whole.symm.trans (course.incomplete_of_stub sound late wrote)

theorem middle_qualified_iff {b : Nat} {q : Qualifiers} :
    (b, q) ∈ course.middle.registry.qualified ↔ options.qualifiers = .element ∧ q ≠ .none ∧
      ∃ turn ∈ report.whole, Shows turn (.type b q) := by
  have seeded := (seed_invariant sound course.seeded).1
  refine turns_induction sound (P := fun turns run => (b, q) ∈ run.registry.qualified ↔
    options.qualifiers = .element ∧ q ≠ .none ∧ ∃ turn ∈ turns, Shows turn (.type b q))
    (fun _ _ _ _ _ step before => step_shown step before) seeded ?_ course.whole
  simp [Run.mentionAll_qualified, Run.start, Registry.empty]

/-- Nothing waits between the phases, so all forms asked for in the first one are written in it. -/
theorem whole_form_iff_asked {b : Nat} {q : Qualifiers} :
    .qualified b q ∈ report.wholeElements ↔ (b, q) ∈ course.middle.registry.qualified := by
  have inv := (course.middle_invariant sound).1
  rw [← inv.consistent.qualified_iff, course.drained, List.append_nil, Report.wholeElements,
    List.mem_filterMap, List.mem_map]
  constructor
  · rintro ⟨turn, taken, wrote⟩
    exact ⟨turn, taken, (inv.written turn taken).inv_form wrote⟩
  · rintro ⟨turn, taken, item⟩
    exact ⟨turn, taken, (inv.written turn taken).form_of_item item⟩

/-- The qualified forms of the first phase are those that whole elements show. -/
theorem mem_wholeElements_form {b : Nat} {q : Qualifiers} :
    .qualified b q ∈ report.wholeElements ↔ options.qualifiers = .element ∧ q ≠ .none ∧
      ∃ element, .node element ∈ report.wholeElements ∧ .type b q ∈ element.attributes := by
  rw [course.whole_form_iff_asked sound, course.middle_qualified_iff sound]
  refine and_congr_right fun _ => and_congr_right fun _ => ?_
  simp only [Shows, Report.wholeElements, List.mem_filterMap]
  constructor
  · rintro ⟨turn, taken, element, wrote, member⟩
    exact ⟨element, ⟨turn, taken, wrote⟩, member⟩
  · rintro ⟨element, ⟨turn, taken, wrote⟩, member⟩
    exact ⟨turn, taken, element, wrote, member⟩

theorem gathering : report.last.files.Gathering := by
  refine course.induction sound (P := fun _ run => run.files.Gathering) ?_ ?_ ?_
  · rw [Run.mentionAll_files]
    exact ⟨rfl, .nil⟩
  · exact fun _ _ _ _ _ step before => step_gathering step before
  · exact fun _ _ before => before

/-- The source files that get a number are those in which elements are located. -/
theorem known_iff {file : FileId} : file ∈ report.last.files.known ↔
    ∃ element ∈ report.nodes, ∃ draft,
      s.draft element.entity element.complete = .ok draft ∧ file ∈ draft.files := by
  constructor
  · intro known
    have located : ∀ file ∈ report.last.files.known,
        ∃ turn ∈ report.turns, Locates s turn file := by
      refine course.induction sound (P := fun turns run =>
        ∀ file ∈ run.files.known, ∃ turn ∈ turns, Locates s turn file) ?_ ?_ ?_
      · rw [Run.mentionAll_files]
        intro file known
        cases known
      · intro turns run turn run' _ step before file known
        rcases step_files step known with earlier | here
        · obtain ⟨other, taken, located⟩ := before file earlier
          exact ⟨other, List.mem_append_left _ taken, located⟩
        · exact ⟨turn, by simp, here⟩
      · exact fun _ _ before => before
    obtain ⟨turn, taken, element, draft, wrote, drafted, member⟩ := located file known
    exact ⟨element, course.mem_nodes.mpr ⟨turn, taken, wrote⟩, draft, drafted, member⟩
  · rintro ⟨element, member, draft, drafted, located⟩
    obtain ⟨draft', drafted', _, _, covered⟩ := course.written sound member
    cases drafted.symm.trans drafted'
    obtain ⟨a, listed, here⟩ := List.mem_flatMap.mp located
    exact (covered a listed).files file here

theorem mem_files {number : Nat} {name : String} : .file number name ∈ report.files ↔
    ∃ file ∈ report.last.files.known, report.last.files.numberOf file = number ∧
      s.fileName file = .ok name := by
  have gathered := course.gathering sound
  rw [mem_mapM course.listed]
  simp only [listFile, bind_eq_ok, pure_eq_ok, Element.file.injEq, Prod.exists,
    gathered.mem_unlisted]
  constructor
  · rintro ⟨file, _, ⟨known, counted⟩, _, named, rfl, rfl⟩
    exact ⟨file, known, counted, named⟩
  · rintro ⟨file, known, counted, named⟩
    exact ⟨file, number, ⟨known, counted⟩, name, named, rfl, rfl⟩

theorem files_length : report.files.length = report.last.files.known.length := by
  have lengths := (mapM_eq_ok.mp course.listed).length_eq
  have gathered := course.gathering sound
  rw [← lengths, FileTable.unlisted, gathered.listed, List.drop_zero, List.length_zipIdx]

theorem not_file_of_written {element : Element}
    (wrote : element ∈ report.turns.filterMap (·.element)) (number : Nat) (name : String) :
    element ≠ .file number name := by
  rintro rfl
  obtain ⟨turn, taken, wrote⟩ := List.mem_filterMap.mp wrote
  exact ((course.finish sound).1.written turn taken).not_file number name wrote

theorem mem_elements_file {number : Nat} {name : String} :
    .file number name ∈ report.elements ↔ .file number name ∈ report.files := by
  rw [Report.elements_eq, List.mem_append]
  exact or_iff_right fun wrote => course.not_file_of_written sound wrote number name rfl

end Course

end Dump

end AstXml
