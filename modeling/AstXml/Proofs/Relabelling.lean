import Mathlib.Logic.Function.Basic
import AstXml.Proofs.Course

/-!
A dump under other positions. Types and source files are told apart by their positions and nothing
else is done with these, so a dump whose drafts name other positions goes through the same turns and
writes the same text.
-/
namespace AstXml
open Outcome

/-- New positions for types and source files. -/
structure Relabelling where
  type : TypeId → TypeId
  file : FileId → FileId

structure Relabelling.Injective (ρ : Relabelling) : Prop where
  type : Function.Injective ρ.type
  file : Function.Injective ρ.file

section Relabel

variable (ρ : Relabelling)

def QualType.relabel (t : QualType) : QualType := { t with type := ρ.type t.type }

def Entity.relabel : Entity → Entity
  | .decl d => .decl d
  | .type t => .type (t.relabel ρ)

def Mention.relabel (m : Mention) : Mention := { m with entity := m.entity.relabel ρ }

def Attribute.map {ν ν' φ φ' : Type} (node : ν → ν') (file : φ → φ') :
    Attribute ν φ → Attribute ν' φ'
  | .name text => .name text
  | .kind text => .kind text
  | .typeClass text => .typeClass text
  | .type n quals => .type (node n) quals
  | .context n => .context (node n)
  | .access a => .access a
  | .location f line => .location (file f) line
  | .members nodes => .members (nodes.map node)
  | .incomplete => .incomplete

def DraftAttribute.relabel (a : DraftAttribute) : DraftAttribute := a.map (·.relabel ρ) ρ.file

def Draft.relabel (draft : Draft) : Draft :=
  { draft with attributes := draft.attributes.map (DraftAttribute.relabel ρ) }

def WorkItem.relabel : WorkItem → WorkItem
  | .entity e => .entity (e.relabel ρ)
  | .qualified base quals => .qualified base quals

def NodeTable.map {κ κ' : Type} (f : κ → κ') (table : NodeTable κ) : NodeTable κ' :=
  ⟨table.entries.map fun entry => (f entry.1, entry.2)⟩

def FileTable.map (f : FileId → FileId) (table : FileTable) : FileTable :=
  { table with known := table.known.map f }

def Registry.relabel (r : Registry) : Registry :=
  { r with nodes := r.nodes.map (·.relabel ρ), queue := ⟨r.queue.items.map (·.relabel ρ)⟩ }

def Run.relabel (run : Run) : Run := ⟨run.registry.relabel ρ, run.files.map ρ.file⟩

/-- The entity is all that an element keeps of positions. -/
def Element.relabel : Element → Element
  | .node element => .node { element with entity := element.entity.relabel ρ }
  | element => element

def Turn.relabel (turn : Turn) : Turn :=
  ⟨turn.item.relabel ρ, turn.element.map (·.relabel ρ)⟩

def Report.relabel (r : Report) : Report :=
  ⟨r.whole.map (·.relabel ρ), r.stubs.map (·.relabel ρ), r.files, r.last.relabel ρ⟩

end Relabel

/-! The text of a document does not show entities. -/

section Text

variable (ρ : Relabelling)

theorem Element.pieces_relabel (element : Element) :
    (element.relabel ρ).pieces = element.pieces := by
  cases element <;> rfl

theorem Turn.elements_relabel (turns : List Turn) :
    (turns.map (·.relabel ρ)).filterMap (·.element) =
      (turns.filterMap (·.element)).map (·.relabel ρ) := by
  rw [List.filterMap_map, List.map_filterMap]
  rfl

theorem Report.text_relabel (r : Report) : (r.relabel ρ).text = r.text := by
  have pieces : ∀ elements : List Element,
      (elements.map (·.relabel ρ)).flatMap (·.pieces) = elements.flatMap (·.pieces) := by
    intro elements
    rw [List.flatMap_map]
    exact List.flatMap_congr fun element _ => element.pieces_relabel ρ
  simp only [text, Report.pieces, elements, wholeElements, stubElements, relabel,
    Turn.elements_relabel, List.flatMap_append, pieces]

theorem Report.summary_relabel (r : Report) : (r.relabel ρ).summary = r.summary := by
  simp only [summary, wholeElements, stubElements, relabel, Turn.elements_relabel, List.length_map]
  rfl

end Text

/-! Every operation commutes with a relabelling, as long as it keeps positions apart. -/

namespace NodeTable

variable {κ κ' : Type} [DecidableEq κ] [DecidableEq κ'] {f : κ → κ'}
  (apart : Function.Injective f) (table : NodeTable κ)
include apart

theorem get?_map (key : κ) : (table.map f).get? (f key) = table.get? key := by
  have same : (fun entry : κ × Node => decide (f entry.1 = f key)) =
      fun entry => decide (entry.1 = key) := funext fun _ => by simp only [apart.eq_iff]
  simp only [get?, map, List.find?_map, Function.comp_def, same, Option.map_map]

theorem modify_map (key : κ) (change : Node → Node) :
    (table.map f).modify (f key) change = (table.modify key change).map f := by
  simp only [modify, map, List.map_map, mk.injEq]
  refine List.map_congr_left fun entry _ => ?_
  simp only [Function.comp_apply, apart.eq_iff]
  split <;> rfl

theorem register_map (key : κ) (complete : Bool) (numbering : Numbering) (phase : Phase) :
    (table.map f).register (f key) complete numbering phase =
      ((table.register key complete numbering phase).1,
        (table.register key complete numbering phase).2.1.map f,
        (table.register key complete numbering phase).2.2) := by
  unfold register
  rw [get?_map apart]
  cases table.get? key with
  | none => simp [map]
  | some node =>
    dsimp only
    rw [modify_map apart]
    split <;> rfl

omit apart [DecidableEq κ] [DecidableEq κ'] in
theorem stubs_map (f : κ → κ') : (table.map f).stubs = table.stubs.map f := by
  simp only [stubs, map, List.filter_map, List.map_map]
  rfl

end NodeTable

namespace FileTable

variable {f : FileId → FileId} (apart : Function.Injective f) (table : FileTable)

include apart in
theorem register_map (file : FileId) :
    (table.map f).register (f file) =
      ((table.register file).1, (table.register file).2.map f) := by
  have same : (fun other => f other == f file) = fun other => other == file :=
    funext fun _ => by rw [Bool.eq_iff_iff, beq_iff_eq, beq_iff_eq, apart.eq_iff]
  have position : (table.known.map f).idxOf? (f file) = table.known.idxOf? file := by
    simp only [List.idxOf?, List.findIdx?_map, Function.comp_def, same]
  simp only [register, map, position]
  cases table.known.idxOf? file <;> simp

theorem unlisted_map (f : FileId → FileId) :
    (table.map f).unlisted = table.unlisted.map fun file => (f file.1, file.2) := by
  simp only [unlisted, map, List.zipIdx_map, List.map_drop]
  rfl

end FileTable

theorem Entity.relabel_injective {ρ : Relabelling} (apart : ρ.Injective) :
    Function.Injective (Entity.relabel ρ) := by
  rintro (d | ⟨t, q⟩) (d' | ⟨t', q'⟩) same
  · exact same
  · cases same
  · cases same
  · simp only [relabel, QualType.relabel, Entity.type.injEq, QualType.mk.injEq] at same
    rw [apart.type same.1, same.2]

namespace Registry

variable {ρ : Relabelling} (apart : ρ.Injective) (r : Registry)

include apart in
theorem register_relabel (e : Entity) (complete : Bool) :
    (r.relabel ρ).register (e.relabel ρ) complete =
      ((r.register e complete).1, (r.register e complete).2.relabel ρ) := by
  have nodes := NodeTable.register_map (Entity.relabel_injective apart) r.nodes e complete
    r.numbering r.phase
  simp only [register, relabel, nodes, WorkQueue.pushIf]
  split <;> simp [WorkQueue.push, WorkItem.relabel]

theorem registerQualified_relabel (base : Nat) (quals : Qualifiers) :
    ((r.relabel ρ).registerQualified base quals).2 =
      (r.registerQualified base quals).2.relabel ρ := by
  by_cases known : (base, quals) ∈ r.qualified <;>
    simp [registerQualified, relabel, known, WorkQueue.push, WorkItem.relabel]

theorem acceptIncomplete_relabel :
    (r.relabel ρ).acceptIncomplete.2 = r.acceptIncomplete.2.relabel ρ := by
  simp only [acceptIncomplete, relabel, NodeTable.stubs_map, WorkQueue.foldl_push, List.map_append,
    List.map_map]
  rfl

theorem next?_relabel : (r.relabel ρ).next? =
    r.next?.map fun next => (next.1.relabel ρ, next.2.relabel ρ) := by
  simp only [next?, relabel, WorkQueue.pop?]
  cases r.queue.items <;> rfl

include apart in
theorem claim_relabel (e : Entity) :
    (r.relabel ρ).claim (e.relabel ρ) = (r.claim e).relabel ρ := by
  simp only [claim, relabel, NodeTable.modify_map (Entity.relabel_injective apart)]

end Registry

namespace Run

variable {ρ : Relabelling}

theorem mentionQualified_relabel (mode : QualifierMode) (base : Nat) (quals : Qualifiers)
    (run : Run) : (run.relabel ρ).mentionQualified mode base quals =
      (run.mentionQualified mode base quals).relabel ρ := by
  rw [mentionQualified_eq, mentionQualified_eq]
  split
  · rfl
  · cases mode with
    | suffix => rfl
    | element => simp only [relabel, Registry.registerQualified_relabel]

variable (apart : ρ.Injective)
include apart

theorem mention_relabel (m : Mention) (run : Run) :
    (run.relabel ρ).mention (m.relabel ρ) = ((run.mention m).1, (run.mention m).2.relabel ρ) := by
  simp only [mention_eq, relabel, Mention.relabel, Registry.register_relabel apart]

theorem mentionAll_relabel (ms : List Mention) (run : Run) :
    mentionAll (ms.map (·.relabel ρ)) (run.relabel ρ) =
      ((mentionAll ms run).1, (mentionAll ms run).2.relabel ρ) := by
  induction ms generalizing run with
  | nil => rfl
  | cons m rest ih => simp only [List.map_cons, mentionAll_cons, mention_relabel apart, ih]

theorem number_relabel (mode : QualifierMode) (a : DraftAttribute) (run : Run) :
    (run.relabel ρ).number mode (a.relabel ρ) =
      ((run.number mode a).1, (run.number mode a).2.relabel ρ) := by
  cases a with
  | type m quals =>
    simp only [number_eq, DraftAttribute.relabel, Attribute.map, mention_relabel apart,
      mentionQualified_relabel]
  | context m => simp only [number_eq, DraftAttribute.relabel, Attribute.map, mention_relabel apart]
  | members ms =>
    simp only [number_eq, DraftAttribute.relabel, Attribute.map, mentionAll_relabel apart]
  | location file line =>
    simp only [number_eq, DraftAttribute.relabel, Attribute.map, relabel,
      FileTable.register_map apart.file]
  | _ => rfl

theorem numberAll_relabel (mode : QualifierMode) (as : List DraftAttribute) (run : Run) :
    numberAll mode (as.map (DraftAttribute.relabel ρ)) (run.relabel ρ) =
      ((numberAll mode as run).1, (numberAll mode as run).2.relabel ρ) := by
  induction as generalizing run with
  | nil => rfl
  | cons a rest ih => simp only [List.map_cons, numberAll_cons, number_relabel apart, ih]

end Run

/-- Another snapshot shows the same under the new positions: its drafts are those of `s` with new
positions, and nothing else about it matters to a dump. -/
structure Snapshot.Mirrors (ρ : Relabelling) (s s' : Snapshot) : Prop where
  draft : ∀ {e complete draft}, s.draft e complete = .ok draft →
    s'.draft (e.relabel ρ) complete = .ok (draft.relabel ρ)
  fileName : ∀ {file name}, s.fileName file = .ok name → s'.fileName (ρ.file file) = .ok name
  canonical : ∀ d, s'.canonical d = s.canonical d

namespace Dump

variable {ρ : Relabelling} (apart : ρ.Injective) {s s' : Snapshot} (mirrors : s.Mirrors ρ s')
  {mode : QualifierMode} {run last : Run}

section Turns

include apart mirrors

theorem step_relabel {turn : Turn} (step : Step s mode run turn last) :
    Step s' mode (run.relabel ρ) (turn.relabel ρ) (last.relabel ρ) := by
  have next := run.registry.next?_relabel (ρ := ρ)
  cases step with
  | qualified front =>
    rw [front] at next
    exact .qualified next
  | @entity rest e node draft front found drafted =>
    rw [front] at next
    have found' := (NodeTable.get?_map (Entity.relabel_injective apart) _ e).trans found
    have step' : Step s' mode (run.relabel ρ) _ _ := .entity next found' (mirrors.draft drafted)
    have numbered := Run.numberAll_relabel apart mode draft.attributes
      { run with registry := rest.claim e }
    simp only [Run.relabel, ← Registry.claim_relabel apart] at numbered
    simp only [Draft.relabel, Run.relabel, numbered] at step'
    exact step'

theorem turns_relabel {turns : List Turn} (taken : Turns s mode run turns last) :
    Turns s' mode (run.relabel ρ) (turns.map (·.relabel ρ)) (last.relabel ρ) := by
  induction taken with
  | done run => exact .done _
  | next step _ ih => exact .next (step_relabel apart mirrors step) ih

end Turns

theorem acceptStubs_relabel (run : Run) :
    (acceptStubs run).relabel ρ = acceptStubs (run.relabel ρ) := by
  simp only [acceptStubs, Run.relabel, Registry.acceptIncomplete_relabel]

include mirrors in
theorem listed_relabel {files : FileTable} {elements : List Element}
    (listed : files.unlisted.mapM (listFile s) = .ok elements) :
    (files.map ρ.file).unlisted.mapM (listFile s') = .ok elements := by
  rw [FileTable.unlisted_map, mapM_eq_ok, List.forall₂_map_left_iff]
  refine (mapM_eq_ok.mp listed).imp fun file element shown => ?_
  simp only [listFile, bind_eq_ok, pure_eq_ok] at shown ⊢
  obtain ⟨name, named, same⟩ := shown
  exact ⟨name, mirrors.fileName named, same⟩

variable {options : Options} {report : Report}

include apart in
/-- The start set consists of declarations, which keep their positions. -/
theorem seeded_relabel {start : List DeclId} {seeds : List Mention}
    (seeded : start.mapM (s.mentionDecl · true) = .ok seeds) :
    (Run.mentionAll seeds .start).2.relabel ρ = (Run.mentionAll seeds .start).2 := by
  have same : seeds.map (·.relabel ρ) = seeds := by
    refine (List.map_congr_left fun m member => ?_).trans (List.map_id seeds)
    obtain ⟨_, _, c, _, rfl⟩ := (mem_seeds seeded m).mp member
    rfl
  have numbered := Run.mentionAll_relabel apart seeds .start
  rw [same] at numbered
  exact (congrArg Prod.snd numbered).symm

include apart mirrors in
/-- The turns of a dump under other positions. -/
theorem Course.relabel (course : Course s options report)
    (start : startDecls s' options.startNames = startDecls s options.startNames) :
    Nonempty (Course s' options (report.relabel ρ)) := by
  have seeds := seeded_relabel apart course.seeded
  have mention : s'.mentionDecl = s.mentionDecl := by
    funext d complete
    rw [Snapshot.mentionDecl, Snapshot.mentionDecl, mirrors.canonical]
  have whole := turns_relabel apart mirrors course.whole
  have stubs := turns_relabel apart mirrors course.stubs
  rw [seeds] at whole
  rw [acceptStubs_relabel] at stubs
  refine ⟨⟨course.start, course.seeds, course.middle.relabel ρ, start.trans course.resolved,
    mention ▸ course.seeded, whole, ?_, stubs, ?_, listed_relabel mirrors course.listed⟩⟩
  · exact congrArg (List.map (WorkItem.relabel ρ)) course.drained
  · exact congrArg (List.map (WorkItem.relabel ρ)) course.finished

end Dump

end AstXml
