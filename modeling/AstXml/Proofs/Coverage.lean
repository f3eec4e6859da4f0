import AstXml.Proofs.Finished

/-!
What a dump covers: the whole elements are those of the entities that the start set leads to by
members and by types, and all elements are those of the entities that these lead to by any edge.
-/
namespace AstXml

namespace Snapshot

/-- The least set that contains the start set and is closed under members and types. -/
inductive Wanted (s : Snapshot) (start : List DeclId) : Entity → Prop
  | start {d c} (listed : d ∈ start) (canonical : s.canonical d = .ok c) : Wanted s start (.decl c)
  | member {e e'} (scope : Wanted s start e) (edge : s.Lists e e') : Wanted s start e'
  | type {e e'} (typed : Wanted s start e) (edge : s.TypedAs e e') : Wanted s start e'

/-- The least set that contains what is wanted and is closed under scopes, types and pointees. -/
inductive Reached (s : Snapshot) (start : List DeclId) : Entity → Prop
  | wanted {e} (here : s.Wanted start e) : Reached s start e
  | scope {e e'} (inner : Reached s start e) (edge : s.StandsIn e e') : Reached s start e'
  | type {e e'} (typed : Reached s start e) (edge : s.TypedAs e e') : Reached s start e'
  | pointee {e e'} (pointer : Reached s start e) (edge : s.PointsTo e e') : Reached s start e'

end Snapshot

namespace Dump

variable {s : Snapshot} {start : List DeclId}

/-- Only what is reached is numbered, and only what is wanted is complete. -/
def Within (s : Snapshot) (start : List DeclId) (r : Registry) : Prop :=
  ∀ e node, r.nodes.get? e = some node →
    s.Reached start e ∧ (node.complete = true → s.Wanted start e)

theorem Within.register {r : Registry} (h : Within s start r) {m : Mention}
    (reached : s.Reached start m.entity) (wanted : m.complete = true → s.Wanted start m.entity) :
    Within s start (r.register m.entity m.complete).2 := by
  intro e node found
  rcases Registry.get?_of_register found with before | ⟨rfl, asked⟩
  · exact h e node before
  · exact ⟨reached, wanted ∘ asked⟩

theorem called_within {e : Entity} {complete : Bool} {m : Mention} (called : s.Calls e complete m)
    (reached : s.Reached start e) (wanted : complete = true → s.Wanted start e) :
    s.Reached start m.entity ∧ (m.complete = true → s.Wanted start m.entity) := by
  rcases called with ⟨same, typed⟩ | ⟨stub, stands | points⟩ | ⟨whole, _, lists⟩
  · exact ⟨.type reached typed, fun asked => .type (wanted (same ▸ asked)) typed⟩
  · exact ⟨.scope reached stands, fun asked => by simp [stub] at asked⟩
  · exact ⟨.pointee reached points, fun asked => by simp [stub] at asked⟩
  · have member := Snapshot.Wanted.member (wanted whole) lists
    exact ⟨.wanted member, fun _ => member⟩

theorem step_within (sound : s.Sound) {mode : QualifierMode} {run run' : Run} {turn : Turn}
    (h : Within s start run.registry) (step : Step s mode run turn run') :
    Within s start run'.registry := by
  cases step with
  | qualified front =>
    obtain ⟨queue, _, rfl⟩ := Registry.next?_eq_some front
    exact h
  | @entity rest e node draft front found drafted =>
    obtain ⟨queue, _, rfl⟩ := Registry.next?_eq_some front
    obtain ⟨reached, wanted⟩ := h e node found
    have claimed : Within s start (Registry.claim { run.registry with queue } e) := by
      intro other node' found'
      obtain ⟨before, found', same⟩ := Registry.get?_of_claim found'
      exact same ▸ h other before found'
    refine Run.numberAll_induction ?_ ?_ { run with registry := _ } claimed
    · intro _ r b q within _ _
      simpa only [Within, Registry.nodes_registerQualified] using within
    · intro m member r within
      have called := (Snapshot.mem_mentions sound drafted m).mp member
      obtain ⟨reached', wanted'⟩ := called_within called reached wanted
      exact within.register reached' wanted'

namespace Course

variable {options : Options} {report : Report} (course : Course s options report)
  (sound : s.Sound)
include course sound

theorem within : Within s course.start report.last.registry := by
  refine course.induction sound (P := fun _ run => Within s course.start run.registry) ?_ ?_ ?_
  · refine Run.mentionAll_induction ?_ .start ?_
    · intro m member r before
      obtain ⟨d, listed, c, canonical, rfl⟩ := (mem_seeds course.seeded m).mp member
      have wanted := Snapshot.Wanted.start listed canonical
      exact before.register (.wanted wanted) fun _ => wanted
    · intro e node found
      simp [Run.start] at found
  · exact fun _ _ _ _ _ step before => step_within sound before step
  · exact fun _ _ before => before

theorem element_of_mention {m : Mention} (covered : report.last.Covers m) :
    ∃ element ∈ report.nodes, element.entity = m.entity ∧
      (m.complete = true → element.complete = true) := by
  obtain ⟨node, found, complete⟩ := covered
  obtain ⟨element, member, entity, _, same⟩ := course.node_of_entity sound found
  exact ⟨element, member, entity, fun asked => same.trans (complete asked)⟩

/-- Every edge out of an element is followed. -/
theorem element_of_call {element : NodeElement} (member : element ∈ report.nodes) {m : Mention}
    (called : s.Calls element.entity element.complete m) :
    ∃ other ∈ report.nodes, other.entity = m.entity ∧
      (m.complete = true → other.complete = true) := by
  obtain ⟨draft, drafted, _, _, covered⟩ := course.written sound member
  have mentioned := (Snapshot.mem_mentions sound drafted m).mpr called
  obtain ⟨a, listed, named⟩ := List.mem_flatMap.mp mentioned
  exact course.element_of_mention sound ((covered a listed).nodes m named)

theorem wanted_iff (e : Entity) :
    (∃ element ∈ report.nodes, element.entity = e ∧ element.complete = true) ↔
      s.Wanted course.start e := by
  constructor
  · rintro ⟨element, member, rfl, whole⟩
    exact (course.within sound _ _ (course.registered sound member)).2 whole
  · intro wanted
    induction wanted with
    | @start d c listed canonical =>
      have seeded := (mem_seeds course.seeded ⟨.decl c, true⟩).mpr ⟨d, listed, c, canonical, rfl⟩
      have covered := (Run.mentionAll_covers course.seeds .start _ seeded).mono (course.kept sound)
      obtain ⟨element, member, entity, whole⟩ := course.element_of_mention sound covered
      exact ⟨element, member, entity, whole rfl⟩
    | @member _ e' _ edge ih =>
      obtain ⟨element, member, rfl, whole⟩ := ih
      have called : s.Calls element.entity element.complete ⟨e', true⟩ :=
        .inr (.inr ⟨whole, rfl, edge⟩)
      obtain ⟨other, member', entity, whole'⟩ := course.element_of_call sound member called
      exact ⟨other, member', entity, whole' rfl⟩
    | @type _ e' _ edge ih =>
      obtain ⟨element, member, rfl, whole⟩ := ih
      have called : s.Calls element.entity element.complete ⟨e', true⟩ :=
        .inl ⟨whole.symm, edge⟩
      obtain ⟨other, member', entity, whole'⟩ := course.element_of_call sound member called
      exact ⟨other, member', entity, whole' rfl⟩

theorem reached_iff (e : Entity) :
    (∃ element ∈ report.nodes, element.entity = e) ↔ s.Reached course.start e := by
  constructor
  · rintro ⟨element, member, rfl⟩
    exact (course.within sound _ _ (course.registered sound member)).1
  · intro reached
    -- an edge from an element leads to an element, whether it was asked for whole or not
    have follow : ∀ {e e' : Entity}, (∀ complete, ∃ asked, s.Calls e complete ⟨e', asked⟩) →
        (∃ element ∈ report.nodes, element.entity = e) →
        ∃ element ∈ report.nodes, element.entity = e' := by
      rintro _ e' edge ⟨element, member, rfl⟩
      obtain ⟨asked, called⟩ := edge element.complete
      obtain ⟨other, member', entity, _⟩ := course.element_of_call sound member called
      exact ⟨other, member', entity⟩
    induction reached with
    | wanted here =>
      obtain ⟨element, member, entity, _⟩ := (course.wanted_iff sound _).mpr here
      exact ⟨element, member, entity⟩
    | scope _ edge ih => exact follow (fun _ => ⟨false, .inr (.inl ⟨rfl, .inl edge⟩)⟩) ih
    | type _ edge ih => exact follow (fun complete => ⟨complete, .inl ⟨rfl, edge⟩⟩) ih
    | pointee _ edge ih => exact follow (fun _ => ⟨false, .inr (.inl ⟨rfl, .inr edge⟩)⟩) ih

end Course

end Dump

/-- The elements of a dump are those of the entities that its start set leads to, and the whole
ones among them those that it leads to by members and types alone. -/
theorem dump_covers (d : Document) (accepted : d.validate = .ok ()) (options : Options) :
    ∃ s report start, Snapshot.ofDocument d = .ok s ∧ dump s options = .ok report ∧
      Dump.startDecls s options.startNames = .ok start ∧
      (∀ e, (∃ element ∈ report.nodes, element.entity = e ∧ element.complete = true) ↔
        s.Wanted start e) ∧
      ∀ e, (∃ element ∈ report.nodes, element.entity = e) ↔ s.Reached start e := by
  obtain ⟨s, report, indexed, sound, ⟨course⟩⟩ := Dump.course_of_accepted accepted options
  exact ⟨s, report, course.start, indexed, course.dumped sound, course.resolved,
    course.wanted_iff sound, course.reached_iff sound⟩

theorem opaquePointer_covered : Document.opaquePointer.validate = .ok () ∧
    ∃ s report start, Snapshot.ofDocument .opaquePointer = .ok s ∧
      dump s ⟨["p"], .suffix⟩ = .ok report ∧ Dump.startDecls s ["p"] = .ok start ∧
      (∀ e, (∃ element ∈ report.nodes, element.entity = e ∧ element.complete = true) ↔
        s.Wanted start e) ∧
      ∀ e, (∃ element ∈ report.nodes, element.entity = e) ↔ s.Reached start e :=
  ⟨rfl, dump_covers .opaquePointer rfl ⟨["p"], .suffix⟩⟩

end AstXml
