import AstXml.Proofs.FirstMention
import AstXml.Proofs.Scopes
import AstXml.Proofs.Streaming

/-!
Source files. The numbers of files come from the size of a table, and the lines that list them from
its entries; both drains go on with the same table. So the files of a document are those that its
elements are located in, numbered as they are met and listed in that order.
-/
namespace AstXml
open Outcome

/-- Where the element of an entity is located: a record where its body is if it has one, a typedef,
a field or a variable where it is declared, and all else nowhere. -/
def Snapshot.position (s : Snapshot) : Entity → Except Fault (Option Position)
  | .type _ => return none
  | .decl d => do
    let decl ← s.decl d
    if decl.kind.isRecord || decl.kind.type?.isSome then
      let shown ← s.decl ((← s.definition d).getD d)
      return shown.location.map (·.shown)
    else return none

namespace Attribute

variable {ν : Type}

def places : Attribute ν FileId → List Position
  | .location file line => [⟨file, line⟩]
  | _ => []

theorem places_eq_nil {as : List (Attribute ν FileId)} (none : as.flatMap (·.files) = []) :
    as.flatMap (·.places) = [] := by
  rw [List.flatMap_eq_nil_iff] at none ⊢
  intro a member
  have here := none a member
  cases a <;> simp_all [files, places]

theorem file_of_place {a : Attribute ν FileId} {p : Position} (here : p ∈ a.places) :
    p.file ∈ a.files := by
  cases a <;> simp_all [places, files]

theorem values_file (a : Attribute Nat Nat) : a.values "file" = a.files.map fileId := by
  cases a with
  | members numbers => cases numbers <;> simp [values, pairs, files]
  | _ => simp [values, pairs, files]

end Attribute

namespace Snapshot

variable {s : Snapshot} {complete : Bool} {draft : Draft}

theorem places_location (decl : Declaration) :
    (draftLocation decl).flatMap (·.places) = (decl.location.map (·.shown)).toList := by
  unfold draftLocation
  cases decl.location <;> rfl

theorem position_decl {d : DeclId} {decl shown : Declaration} (found : s.decl d = .ok decl)
    (placed : (decl.kind.isRecord || decl.kind.type?.isSome) = true) {body : Option DeclId}
    (defined : s.definition d = .ok body) (known : s.decl (body.getD d) = .ok shown) :
    s.position (.decl d) = .ok (shown.location.map (·.shown)) := by
  simp only [position, found, ok_bind, placed, if_true, defined, known]
  rfl

/-- An element is drafted with the position of its entity, if that has one. -/
theorem position_of_draft {e : Entity} (drafted : s.draft e complete = .ok draft) :
    ∃ place, s.position e = .ok place ∧ draft.attributes.flatMap (·.places) = place.toList := by
  -- scopes and markers are placed nowhere, what has a type at itself, a record at its body
  cases draft_eq_ok.mp drafted with
  | space found kind around listed =>
    refine ⟨none, ?_, ?_⟩
    · rcases kind with ⟨kind, _⟩ | ⟨kind, _⟩ <;>
        simp only [position, found, ok_bind, kind] <;> rfl
    · rw [List.flatMap_cons, List.flatMap_append, Attribute.places_eq_nil around.files,
        Attribute.places_eq_nil listed.files]
      rfl
  | typed found typed _ around =>
    have own := definition_of_unlike found (DeclKind.isRecord_of_typed typed)
    refine ⟨_, position_decl found (by simp [typed]) own found, ?_⟩
    rw [List.flatMap_cons, List.flatMap_cons, List.flatMap_append,
      Attribute.places_eq_nil around.files, places_location]
    rfl
  | bodiless found record around undefined =>
    refine ⟨_, position_decl found (by simp [record]) undefined found, ?_⟩
    rw [List.flatMap_cons, List.flatMap_append, List.flatMap_append,
      Attribute.places_eq_nil around.files, places_location]
    exact List.append_nil _
  | record found record around defined body listed =>
    refine ⟨_, position_decl found (by simp [record]) defined body, ?_⟩
    rw [List.flatMap_cons, List.flatMap_append, List.flatMap_append,
      Attribute.places_eq_nil around.files, Attribute.places_eq_nil listed.files, places_location]
    exact List.append_nil _
  | marker found kind =>
    refine ⟨none, ?_, rfl⟩
    rcases kind with kind | ⟨name, kind⟩ <;> simp only [position, found, ok_bind, kind] <;> rfl
  | _ => exact ⟨none, rfl, rfl⟩

end Snapshot

/-- What a line says about its place, with the files numbered in the order of a list. -/
inductive Xml.Line.Stands (line : Line) (sources : List FileId) : Option Position → Prop
  | nowhere (location : line.values "location" = []) (file : line.values "file" = [])
      (number : line.values "line" = []) : Stands line sources none
  | placed {p i} (source : sources[i]? = some p.file)
      (location : line.values "location" = [fileId (i + 1) ++ ":" ++ toString p.line.toNat])
      (file : line.values "file" = [fileId (i + 1)])
      (number : line.values "line" = [toString p.line.toNat]) : Stands line sources (some p)

/-- Lines of one document show the same file where they stand in the same file. -/
theorem Xml.Line.Stands.file_iff {line line' : Line} {sources : List FileId} {p p' : Position}
    (distinct : sources.Nodup) (h : line.Stands sources (some p))
    (h' : line'.Stands sources (some p')) :
    line.values "file" = line'.values "file" ↔ p.file = p'.file := by
  cases h with
  | @placed _ i source _ file _ =>
    cases h' with
    | @placed _ i' source' _ file' _ =>
      rw [file, file', List.singleton_inj]
      constructor
      · intro same
        obtain rfl : i = i' := Nat.succ_inj.mp (fileId_inj same)
        exact Option.some.inj (source.symm.trans source')
      · intro same
        obtain ⟨inside, _⟩ := List.getElem?_eq_some_iff.mp source
        rw [(List.getElem?_inj inside distinct).mp (source.trans (same ▸ source'.symm))]

/-- Under the names of a location the attributes of a draft show its places. -/
theorem Run.shown_places (run : Run) (as : List DraftAttribute) {key : String}
    (place : key ∈ ["location", "file", "line"]) :
    run.shown as key = (as.flatMap (·.places)).flatMap fun p =>
      (Attribute.location (run.files.numberOf p.file) p.line).values key := by
  rw [Run.shown, List.flatMap_assoc]
  refine List.flatMap_congr fun a _ => ?_
  cases a with
  | location file line => exact (List.append_nil _).symm
  | _ =>
    refine Attribute.values_eq_nil ?_
    rw [run.keys_resolve]
    simp only [List.mem_cons, List.not_mem_nil, or_false] at place
    rcases place with rfl | rfl | rfl <;> simp [Attribute.keys]

namespace Element

def files : Element → List Nat
  | .node element => element.attributes.flatMap (·.files)
  | _ => []

theorem line_files (element : Element) :
    element.line.values "file" = element.files.map fileId := by
  cases element with
  | node element =>
    rw [element.line_values (by decide), files, List.map_flatMap]
    exact List.flatMap_congr fun a _ => a.values_file
  | qualified b q => exact values_form b q (by decide)
  | file => rfl

theorem stands_nowhere {element : Element} (other : ∀ node, element ≠ .node node)
    (sources : List FileId) : element.line.Stands sources none := by
  cases element with
  | node element => exact absurd rfl (other element)
  | qualified b q =>
    exact .nowhere (values_form b q (by decide)) (values_form b q (by decide))
      (values_form b q (by decide))
  | file => exact .nowhere rfl rfl rfl

end Element

/-! The numbers of files, as they are met. -/

theorem FileTable.register_introduces (t : FileTable) (file : FileId) :
    Introduces t.size [(t.register file).1] (t.register file).2.size := by
  unfold register
  cases found : t.known.idxOf? file with
  | some i =>
    obtain ⟨inside, _⟩ := List.idxOf?_eq_some_iff.mp found
    exact .known (Nat.succ_pos i) inside (.done _)
  | none =>
    simp only [size, List.length_append, List.length_singleton]
    exact .next (.done _)

namespace Run

theorem number_locates (mode : QualifierMode) (a : DraftAttribute) (run : Run) :
    Introduces run.files.size (run.number mode a).1.files (run.number mode a).2.files.size := by
  cases a with
  | type m quals =>
    simp only [number_eq, mentionQualified_files]
    exact .done _
  | members ms =>
    simp only [number_eq, mentionAll_files]
    exact .done _
  | location file line => exact run.files.register_introduces file
  | _ => exact .done _

theorem numberAll_locates (mode : QualifierMode) (as : List DraftAttribute) (run : Run) :
    Introduces run.files.size ((numberAll mode as run).1.flatMap (·.files))
      (numberAll mode as run).2.files.size := by
  induction as generalizing run with
  | nil => exact .done _
  | cons a rest ih => exact (number_locates mode a run).append (ih _)

end Run

namespace Dump

variable {s : Snapshot}

theorem step_locates {mode : QualifierMode} {run run' : Run} {turn : Turn}
    (step : Step s mode run turn run') :
    Introduces run.files.size (turn.element.toList.flatMap (·.files)) run'.files.size := by
  cases step with
  | qualified => exact .done _
  | @entity rest e node draft =>
    rw [Option.toList_some, List.flatMap_singleton]
    exact Run.numberAll_locates mode draft.attributes { run with registry := rest.claim e }

/-- The lines in which files are listed, with the names that they have. -/
theorem names_of_listed {sources : List FileId} {start : Nat} {files : List Element}
    (listed : (sources.zipIdx start).mapM (listFile s) = .ok files) :
    ∃ names, List.Forall₂ (fun file name => s.fileName file = .ok name) sources names ∧
      files = (names.zipIdx start).map fun (name, number) => .file number name := by
  induction sources generalizing start files with
  | nil =>
    cases listed
    exact ⟨[], .nil, rfl⟩
  | cons file rest ih =>
    simp only [List.zipIdx_cons, List.mapM_cons, listFile, bind_eq_ok, pure_eq_ok] at listed
    obtain ⟨_, ⟨name, named, rfl⟩, others, later, rfl⟩ := listed
    obtain ⟨names, all, rfl⟩ := ih later
    exact ⟨name :: names, .cons named all, rfl⟩

namespace Course

variable {options : Options} {report : Report} (course : Course s options report)
  (sound : s.Sound)
include course sound

theorem locates :
    Introduces 0 (report.elements.flatMap (·.files)) report.last.files.size := by
  rw [course.flatMap_elements fun _ _ => rfl]
  refine course.induction sound (P := fun turns run =>
    Introduces 0 ((turns.filterMap (·.element)).flatMap (·.files)) run.files.size) ?_ ?_ ?_
  · rw [Run.mentionAll_files]
    exact .done 0
  · intro turns run turn run' _ step before
    rw [flatMap_written]
    exact before.append (step_locates step)
  · -- the second drain goes on with the table of the first
    exact fun _ _ before => before

theorem stands {element : NodeElement} (wrote : element ∈ report.nodes) :
    ∃ place, s.position element.entity = .ok place ∧
      (Element.node element).line.Stands report.last.files.known place := by
  obtain ⟨draft, drafted, _, shown, covered⟩ := course.written sound wrote
  obtain ⟨place, placed, places⟩ := Snapshot.position_of_draft drafted
  have values : ∀ key ∈ ["location", "file", "line"], (Element.node element).line.values key =
      place.toList.flatMap fun p =>
        (Attribute.location (report.last.files.numberOf p.file) p.line).values key := by
    intro key member
    rw [element.line_values (Snapshot.apart_of_place key member).1, shown, List.flatMap_map,
      ← places]
    exact report.last.shown_places draft.attributes member
  have location := values "location" (by simp)
  have file := values "file" (by simp)
  have number := values "line" (by simp)
  refine ⟨place, placed, ?_⟩
  cases place with
  | none => exact .nowhere location file number
  | some p =>
    have here : p ∈ draft.attributes.flatMap (·.places) := by simp [places]
    obtain ⟨a, listed, among⟩ := List.mem_flatMap.mp here
    have known := (covered a listed).files p.file (Attribute.file_of_place among)
    obtain ⟨i, entry, counted⟩ := FileTable.numberOf_known known
    rw [Option.toList_some, List.flatMap_singleton, counted] at location file number
    exact .placed entry location file number

end Course

end Dump

theorem Element.text_file (number : Nat) (name : String) :
    String.join (Element.file number name).pieces =
      "  <File id=\"" ++ fileId number ++ "\" name=\"" ++ Xml.escape name ++ "\"/>\n" := by
  rw [← String.toList_inj]
  simp [pieces, attributeTexts, tagText, Xml.openElement, Xml.plainAttribute, Xml.textAttribute,
    Xml.closeElement]

/-- How a report presents the source files of a document, in the order of their numbers. -/
structure Report.Sources (r : Report) (s : Snapshot) (sources : List FileId) : Prop where
  distinct : sources.Nodup
  counted : r.summary.files = sources.length
  order : (r.elements.flatMap (·.line.values "file")).eraseDups =
    (List.range' 1 r.summary.files).map fileId
  nodes : ∀ element, .node element ∈ r.elements → ∃ place,
    s.position element.entity = .ok place ∧ (Element.node element).line.Stands sources place
  others : ∀ element ∈ r.elements, (∀ node, element ≠ .node node) →
    element.line.Stands sources none
  same : ∀ element element' p p', .node element ∈ r.elements → .node element' ∈ r.elements →
    s.position element.entity = .ok (some p) → s.position element'.entity = .ok (some p') →
    ((Element.node element).line.values "file" = (Element.node element').line.values "file" ↔
      p.file = p'.file)
  listed : ∃ before names, List.Forall₂ (fun file name => s.fileName file = .ok name) sources names ∧
    r.elements = before ++ (names.zipIdx 1).map (fun (name, number) => .file number name) ∧
    (∀ element ∈ before, ∀ number name, element ≠ .file number name) ∧
    r.text = String.join (Xml.startDocument :: before.flatMap (·.pieces)) ++
      String.join ((names.zipIdx 1).map fun (name, number) =>
        "  <File id=\"" ++ fileId number ++ "\" name=\"" ++ Xml.escape name ++ "\"/>\n") ++
      Xml.endDocument

theorem Dump.Course.sources {s : Snapshot} {options : Options} {report : Report}
    (course : Course s options report) (sound : s.Sound) :
    report.Sources s report.last.files.known := by
  have gathered := course.gathering sound
  have counted : report.summary.files = report.last.files.known.length := course.files_length sound
  have stands : ∀ element, .node element ∈ report.elements → ∃ place,
      s.position element.entity = .ok place ∧
        (Element.node element).line.Stands report.last.files.known place :=
    fun element member => course.stands sound (Report.mem_nodes.mpr member)
  constructor
  case distinct => exact gathered.distinct
  case counted => exact counted
  case nodes => exact stands
  case others => exact fun element _ other => Element.stands_nowhere other _
  case order =>
    have values : report.elements.flatMap (·.line.values "file") =
        (report.elements.flatMap (·.files)).map fileId := by
      rw [List.map_flatMap]
      exact List.flatMap_congr fun element _ => element.line_files
    rw [values, Registry.eraseDups_map (fun _ _ => fileId_inj), (course.locates sound).all, counted]
    rfl
  case same =>
    intro element element' p p' wrote wrote' placed placed'
    obtain ⟨_, found, here⟩ := stands element wrote
    obtain ⟨_, found', here'⟩ := stands element' wrote'
    cases placed.symm.trans found
    cases placed'.symm.trans found'
    exact here.file_iff gathered.distinct here'
  case listed =>
    have listed := course.listed
    rw [FileTable.unlisted, gathered.listed, List.drop_zero] at listed
    obtain ⟨names, named, files⟩ := Dump.names_of_listed listed
    refine ⟨report.turns.filterMap (·.element), names, named, files ▸ report.elements_eq,
      fun element wrote => course.not_file_of_written sound wrote, ?_⟩
    rw [Report.text, Report.pieces, report.elements_eq, files, List.flatMap_append,
      List.append_assoc, ← List.cons_append, String.join_append, String.join_append, join_flatMap,
      List.map_map, String.append_assoc]
    simp only [Function.comp_def, Element.text_file, String.join_cons, String.join_nil,
      String.append_empty]

/-- The source files of a document are numbered as its elements are met, every element that has a
position shows it by these numbers, and the files are listed last in their order. -/
theorem dump_sources (d : Document) (accepted : d.validate = .ok ()) (options : Options) :
    ∃ s report sources, Snapshot.ofDocument d = .ok s ∧ dump s options = .ok report ∧
      Xml.read? report.text = some (report.elements.map (·.line)) ∧ report.Sources s sources := by
  obtain ⟨s, report, indexed, sound, ⟨course⟩⟩ := Dump.course_of_accepted accepted options
  exact ⟨s, report, _, indexed, course.dumped sound, report.read, course.sources sound⟩

/-- The document of `int a; M(c)` in one file, where `M` is a macro of another that has `int d;` as
well. -/
def Document.expanded : Document where
  files := #["second.h", "first & <main>.h"]
  types := #[.builtin "int"]
  decls := #[
    { Declaration.bare .translationUnit "" none with children := [⟨1⟩, ⟨2⟩, ⟨3⟩] },
    { Declaration.bare (.variable (.plain ⟨0⟩)) "a" (some .root) with
      location := some ⟨⟨⟨1⟩, 2⟩, none⟩ },
    { Declaration.bare (.variable (.plain ⟨0⟩)) "c" (some .root) with
      location := some ⟨⟨⟨0⟩, 8⟩, some ⟨⟨1⟩, 11⟩⟩ },
    { Declaration.bare (.variable (.plain ⟨0⟩)) "d" (some .root) with
      location := some ⟨⟨⟨0⟩, 5⟩, none⟩ }]

theorem expanded_sources : Document.expanded.validate = .ok () ∧
    ∃ s report sources, Snapshot.ofDocument .expanded = .ok s ∧
      dump s ⟨[], .suffix⟩ = .ok report ∧
      Xml.read? report.text = some (report.elements.map (·.line)) ∧ report.Sources s sources :=
  ⟨rfl, dump_sources .expanded rfl ⟨[], .suffix⟩⟩

/-- The macro is written in the second file and expanded in the first. -/
example : ((do
    let report ← dump (← Snapshot.ofDocument .expanded) ⟨[], .suffix⟩
    return report.elements.map fun element => element.line.values "location") :
      Except Fault (List (List String))) =
        .ok [[], ["f1:2"], ["f1:11"], ["f2:5"], [], [], []] := by
  decide +kernel

end AstXml
