import AstXml.Proofs.Audit
import AstXml.Proofs.FirstMention
import AstXml.Proofs.Sources

/-!
How far the counters of a dump go. Numbers are handed out one by one, to entities and to source
files, and in words of a limited range a counter could run over. A dump that checks its counters at
every number it hands out is the dump itself: only proper entities are numbered, each once, and
only the files of the document.
-/
namespace AstXml
open Outcome

namespace Snapshot

variable (s : Snapshot)

/-- The declarations that are their own canonical ones. -/
def ownDecls : List DeclId :=
  ((List.range s.document.decls.size).map .ofIndex).filter fun d => s.canonical d = .ok d

/-- The types that name no declaration. -/
def plainTypes : List TypeId :=
  ((List.range s.document.types.size).map .ofIndex).filter fun t =>
    ((s.type t).map (·.decl?)) = .ok none

theorem ownDecls_length_le : s.ownDecls.length ≤ s.document.decls.size := by
  have le := List.length_filter_le (fun d => decide (s.canonical d = .ok d))
    ((List.range s.document.decls.size).map .ofIndex)
  simpa [ownDecls] using le

theorem plainTypes_length_le : s.plainTypes.length ≤ s.document.types.size := by
  have le := List.length_filter_le (fun t => decide (((s.type t).map (·.decl?)) = .ok none))
    ((List.range s.document.types.size).map .ofIndex)
  simpa [plainTypes] using le

variable {s}

/-- Only these declarations and types have nodes of their own. -/
theorem mem_of_proper (sound : s.Sound) {e : Entity} (proper : s.Proper e) :
    e ∈ s.ownDecls.map .decl ++ s.plainTypes.map fun t => .type (.plain t) := by
  rw [List.mem_append, List.mem_map, List.mem_map]
  cases e with
  | decl d =>
    refine .inl ⟨d, List.mem_filter.mpr ⟨List.mem_map.mpr ⟨d.index, ?_, d.ofIndex_index⟩, ?_⟩, rfl⟩
    · exact List.mem_range.mpr (sound.hasDecl_of_canonical proper)
    · exact decide_eq_true proper
  | type t =>
    obtain ⟨plain, type, found, unnamed⟩ := proper
    have inside := (Array.getElem?_eq_some_iff.mp (type_eq_ok.mp found)).1
    have same : TypeId.ofIndex t.type.index = t.type := by simp [TypeId.ofIndex, TypeId.index]
    refine .inr ⟨t.type, List.mem_filter.mpr ⟨List.mem_map.mpr ⟨_, ?_, same⟩, ?_⟩, by rw [← plain]⟩
    · exact List.mem_range.mpr inside
    · simp [found, Except.map, unnamed]

end Snapshot

namespace Report

variable (r : Report) (s : Snapshot) (options : Options)

/-- The counters of a dump. As many numbers as there are declarations and types to be numbered, and
as many as there are files with one to spare, are enough for every step of it. -/
structure Counters : Prop where
  nodes : r.last.registry.count ≤ s.ownDecls.length + s.plainTypes.length
  files : r.last.files.size ≤ s.document.files.size
  numbers : ∀ element ∈ r.elements, ∀ n ∈ element.numbers, 1 ≤ n ∧ n ≤ r.last.registry.count
  fileNumbers : ∀ element ∈ r.elements, ∀ n ∈ element.files, 1 ≤ n ∧ n ≤ r.last.files.size
  listed : ∀ n name, .file n name ∈ r.elements → 1 ≤ n ∧ n ≤ r.last.files.size
  within : ∀ limits : Limits, s.ownDecls.length + s.plainTypes.length ≤ limits.nodes →
    s.document.files.size < limits.files → dumpWithin limits s options = .ok r
  words : s.document.decls.size + s.document.types.size ≤ Limits.words.nodes →
    s.document.files.size < Limits.words.files → dumpWithin .words s options = .ok r

end Report

namespace Dump.Course

variable {s : Snapshot} {options : Options} {report : Report} (course : Course s options report)
  (sound : s.Sound)
include course sound

theorem count_le_proper :
    report.last.registry.count ≤ s.ownDecls.length + s.plainTypes.length := by
  have inv := (course.finish sound).1
  have within : report.last.registry.nodes.keys ⊆
      s.ownDecls.map .decl ++ s.plainTypes.map fun t => .type (.plain t) := by
    intro e known
    obtain ⟨node, found⟩ := NodeTable.mem_keys_iff.mp known
    exact Snapshot.mem_of_proper sound (inv.proper e node found)
  have bound := (List.subperm_of_subset inv.consistent.keys within).length_le
  rwa [← inv.consistent.toNumbered.count_eq, List.length_append, List.length_map,
    List.length_map] at bound

theorem files_le : report.last.files.size ≤ s.document.files.size := by
  have distinct : (report.last.files.known.map (·.index)).Nodup := by
    refine (course.gathering sound).distinct.map fun f f' same => ?_
    cases f
    cases f'
    exact congrArg FileId.mk (UInt32.toNat.inj same)
  have within : report.last.files.known.map (·.index) ⊆ List.range s.document.files.size := by
    intro i listed
    obtain ⟨file, known, rfl⟩ := List.mem_map.mp listed
    exact List.mem_range.mpr ((course.finish sound).1.files file known)
  have bound := (List.subperm_of_subset distinct within).length_le
  rwa [List.length_map, List.length_range] at bound

theorem counters : report.Counters s options := by
  have bound := course.count_le_proper sound
  have known := course.files_le sound
  have within : ∀ limits : Limits, s.ownDecls.length + s.plainTypes.length ≤ limits.nodes →
      s.document.files.size < limits.files → dumpWithin limits s options = .ok report :=
    fun limits nodes files =>
      dumpWithin_eq (course.dumped sound) ⟨bound.trans nodes, known.trans_lt files⟩
  constructor
  case nodes => exact bound
  case files => exact known
  case numbers =>
    intro element member n named
    have introduced := (course.mentions sound).introduced
    rw [← course.mentioned_eq] at introduced
    have here := List.mem_flatMap.mpr ⟨element, member, named⟩
    exact ⟨introduced.positive n here, introduced.le_last n here⟩
  case fileNumbers =>
    intro element member n named
    have introduced := course.locates sound
    have here := List.mem_flatMap.mpr ⟨element, member, named⟩
    exact ⟨introduced.positive n here, introduced.le_last n here⟩
  case listed =>
    intro n name member
    obtain ⟨file, known, counted, _⟩ :=
      (course.mem_files sound).mp ((course.mem_elements_file sound).mp member)
    exact (course.gathering sound).numbers.mp ⟨file, known, counted⟩
  case within => exact within
  case words =>
    intro nodes files
    have own := s.ownDecls_length_le
    have plain := s.plainTypes_length_le
    exact within .words (by omega) files

end Dump.Course

/-- The numbers of a dump stay in range. It hands out no more numbers than there are canonical
declarations and types that name none, and no more than there are files, and so it does not notice
limits that leave room for these. -/
theorem dump_counters (d : Document) (accepted : d.validate = .ok ()) (options : Options) :
    ∃ s report, Snapshot.ofDocument d = .ok s ∧ s.document = d ∧ dump s options = .ok report ∧
      report.Counters s options := by
  obtain ⟨s, indexed, same, sound⟩ := Snapshot.ofDocument_sound (d.validate_ok_iff.mp accepted)
  obtain ⟨report, ⟨course⟩⟩ := Dump.course_total sound options
  exact ⟨s, report, indexed, same, course.dumped sound, course.counters sound⟩

theorem redeclared_counters : Document.redeclared.validate = .ok () ∧
    ∃ s report, Snapshot.ofDocument .redeclared = .ok s ∧ s.document = .redeclared ∧
      dump s ⟨[], .element⟩ = .ok report ∧ report.Counters s ⟨[], .element⟩ :=
  ⟨rfl, dump_counters .redeclared rfl ⟨[], .element⟩⟩

/-- The bound is met: four declarations and one type of that document are numbered. -/
example : Snapshot.redeclared.ownDecls.length + Snapshot.redeclared.plainTypes.length = 5 ∧
    (dumpWithin ⟨4, 3⟩ .redeclared ⟨[], .element⟩).map (·.summary) = .error .nodes := by
  decide +kernel

end AstXml
