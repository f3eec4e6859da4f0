import AstXml.Proofs.Audit
import AstXml.Proofs.Finished

/-!
The two phases of a dump. The first one writes whole elements only and the second one stubs only,
no entity is queued twice, and no stub is wanted complete after it has been written.
-/
namespace AstXml

namespace Procedure

variable {α β : Type} {run run' : Run}

/-- No registration of a procedure comes too late for an element that has been written. -/
def InTime (procedure : Procedure α) (run : Run) : Prop :=
  run.registry.Replays (procedure.operations run) (procedure.run run).2.registry

theorem inTime_done (answer : α) : (done answer).InTime run := .done _

theorem inTime_act {action : Action α}
    (spares : ∀ operation ∈ action.operation?, run.registry.Spares operation) :
    (act action).InTime run := by
  have last := action.after_operation run
  change run.registry.Replays action.operation?.toList (action.perform run).2.registry
  rw [← last]
  cases found : action.operation? with
  | none => exact .done _
  | some operation => exact .perform (spares operation found) (.done _)

theorem InTime.bind {first : Procedure α} {rest : α → Procedure β} (here : first.InTime run)
    (there : (rest (first.run run).1).InTime (first.run run).2) : (first >>= rest).InTime run :=
  Registry.Replays.append here there

section Trial

variable {rest : α → Trial β}

theorem InTime.follow {first : Trial α} {answer : α} (here : InTime first run)
    (executed : execute first run = .ok (answer, run')) (there : InTime (rest answer) run') :
    InTime (first >>= rest : Trial β) run := by
  refine here.bind ?_
  rw [execute_eq_ok.mp executed]
  exact there

theorem InTime.take {action : Action α}
    (spares : ∀ operation ∈ action.operation?, run.registry.Spares operation)
    (there : InTime (rest (action.perform run).1) (action.perform run).2) :
    InTime (take action >>= rest : Trial β) run :=
  .follow ((inTime_act spares).bind (inTime_done _)) rfl there

theorem InTime.lift {procedure : Procedure α} (here : procedure.InTime run)
    (there : InTime (rest (procedure.run run).1) (procedure.run run).2) :
    InTime (liftM procedure >>= rest : Trial β) run :=
  .follow (here.bind (inTime_done _)) rfl there

theorem InTime.attempt {attempt : Except Fault α} {answer : α} (found : attempt = .ok answer)
    (there : InTime (rest answer) run) :
    InTime (liftM attempt >>= rest : Trial β) run :=
  found ▸ .follow (inTime_done _) rfl there

end Trial

section Numbering

variable {P : Registry → Prop} {mode : QualifierMode}

theorem mentionAll_inTime {ms : List Mention}
    (spares : ∀ m ∈ ms, ∀ r, P r → r.Spares (.register m.entity m.complete))
    (register : ∀ m ∈ ms, ∀ r, P r → P (r.register m.entity m.complete).2) (run : Run)
    (h : P run.registry) : (mentionAll ms).InTime run := by
  induction ms generalizing run with
  | nil => exact inTime_done _
  | cons m rest ih =>
    refine .bind (inTime_act ?_) (.bind ?_ (inTime_done _))
    · simpa [Action.operation?] using spares m List.mem_cons_self _ h
    · exact ih (fun m' later => spares m' (List.mem_cons_of_mem _ later))
        (fun m' later => register m' (List.mem_cons_of_mem _ later)) (run.mention m).2
        (register m List.mem_cons_self _ h)

theorem mentionQualified_inTime (b : Nat) (q : Qualifiers) (run : Run) :
    (mentionQualified mode b q).InTime run := by
  unfold mentionQualified
  split
  · exact inTime_done _
  · cases mode with
    | suffix => exact inTime_done _
    | element =>
      exact .bind (inTime_act (by simp [Action.operation?, Registry.Spares])) (inTime_done _)

theorem number_inTime (mode : QualifierMode) {a : DraftAttribute}
    (spares : ∀ m ∈ a.nodes, ∀ r, P r → r.Spares (.register m.entity m.complete))
    (register : ∀ m ∈ a.nodes, ∀ r, P r → P (r.register m.entity m.complete).2) (run : Run)
    (h : P run.registry) : (number mode a).InTime run := by
  have mention (m : Mention) (here : m ∈ a.nodes) : (mention m).InTime run :=
    inTime_act (by simpa [Action.operation?] using spares m here _ h)
  cases a with
  | type m quals =>
    exact .bind (mention m List.mem_cons_self)
      (.bind (mentionQualified_inTime _ quals _) (inTime_done _))
  | context m => exact .bind (mention m List.mem_cons_self) (inTime_done _)
  | members ms => exact .bind (mentionAll_inTime spares register run h) (inTime_done _)
  | location file line =>
    exact .bind (inTime_act (by simp [Action.operation?])) (inTime_done _)
  | _ => exact inTime_done _

variable (qualify : mode = .element → ∀ r b q, P r → b ∈ r.nodes.numbers → q ≠ .none →
  P (r.registerQualified b q).2)
include qualify

theorem numberAll_inTime {as : List DraftAttribute}
    (spares : ∀ m ∈ as.flatMap (·.nodes), ∀ r, P r → r.Spares (.register m.entity m.complete))
    (register : ∀ m ∈ as.flatMap (·.nodes), ∀ r, P r → P (r.register m.entity m.complete).2)
    (run : Run) (h : P run.registry) : (numberAll mode as).InTime run := by
  induction as generalizing run with
  | nil => exact inTime_done _
  | cons a rest ih =>
    simp only [List.flatMap_cons, List.mem_append] at spares register
    have here := fun m (member : m ∈ a.nodes) => register m (.inl member)
    have first := number_inTime mode (fun m member => spares m (.inl member)) here run h
    refine first.bind (.bind (ih (fun m later => spares m (.inr later))
      (fun m later => register m (.inr later)) (run.number mode a).2 ?_) (inTime_done _))
    exact Run.number_induction qualify here run h

end Numbering

end Procedure

namespace Dump

variable {s : Snapshot} {mode : QualifierMode} {turns : List Turn} {run run' : Run}

/-- Whatever is wanted complete in the first phase has no stub yet. -/
theorem spares_of_early {taken : List WorkItem} {r : Registry} (h : r.Consistent taken) {e : Entity}
    {complete : Bool} (asked : r.phase = .acceptIncomplete → complete = false) :
    r.Spares (.register e complete) := by
  intro wanted node found written
  cases phase : r.phase with
  | requireComplete => exact h.whole_first phase e node found written
  | acceptIncomplete => cases wanted.symm.trans (asked phase)

section Turns

variable (sound : s.Sound)
include sound

theorem turn_inTime (inv : Invariant s turns run) {turn : Turn}
    (step : Step s mode run turn run') {rest : Registry}
    (front : run.registry.next? = some (turn.item, rest)) :
    Procedure.InTime (Procedure.turn s mode turn.item) { run with registry := rest } := by
  cases step with
  | qualified => exact Procedure.inTime_done _
  | @entity rest' e node draft front' found drafted =>
    cases front.symm.trans front'
    obtain ⟨_, found', _, _, begun, _⟩ := Registry.take_entity inv.consistent front
    cases found.symm.trans found'
    have late := fun phase m member => mentions_late sound inv front found drafted phase m member
    have consistent := (claim_front inv front found).1
    refine .take (by simp [Action.operation?, Registry.Spares]) ?_
    simp only [Action.perform, begun]
    refine .attempt drafted (.lift ?_ (Procedure.inTime_done _))
    refine Procedure.numberAll_inTime (P := Registry.Follows _ (rest.claim e)) ?_ ?_ ?_
      { run with registry := rest.claim e } ⟨consistent, rfl, .refl _⟩
    · exact fun _ _ _ _ before numbered qualified => before.qualify numbered qualified
    · exact fun m member r before => spares_of_early before.consistent fun phase =>
        late (before.phase.symm.trans phase) m member
    · exact fun m member r before => before.register m.entity fun phase => late phase m member

theorem drain_inTime {later : List Turn} {last : Run} (inv : Invariant s turns run)
    (steps : Turns s mode run later last) (drained : last.registry.queue.items = [])
    {limit : Nat} (enough : later.length ≤ limit) :
    Procedure.InTime (Procedure.drain s mode limit) run := by
  induction steps generalizing turns limit with
  | done run =>
    rw [Procedure.drain.eq_def]
    refine .take (by simp [Action.operation?, Registry.Spares]) ?_
    simp only [Action.perform, Registry.next?_eq_none.mpr drained]
    exact Procedure.inTime_done _
  | next step steps ih =>
    obtain ⟨rest, front, turned⟩ := turn_of_step inv step
    have after := (step_invariant sound inv step).1
    cases limit with
    | zero => cases enough
    | succ limit =>
    have fewer := Nat.le_of_succ_le_succ enough
    rw [Procedure.drain.eq_def]
    refine .take (by simp [Action.operation?, Registry.Spares]) ?_
    simp only [Action.perform, front]
    refine .follow (turn_inTime sound inv step front) turned ?_
    exact .follow (ih after drained fewer) (drain_eq sound after steps drained fewer)
      (Procedure.inTime_done _)

/-- The elements of the first phase are whole, those of the second one stubs. -/
theorem turns_complete (inv : Invariant s turns run) {later : List Turn} {last : Run}
    (steps : Turns s mode run later last) {turn : Turn} (taken : turn ∈ later) {e : Entity}
    (item : turn.item = .entity e) : ∃ element, turn.element = some (.node element) ∧
      element.entity = e ∧ (element.complete = true ↔ run.registry.phase = .requireComplete) := by
  induction steps generalizing turns with
  | done => cases taken
  | @next run first mid rest last step steps ih =>
    rcases List.mem_cons.mp taken with rfl | later
    · cases step with
      | qualified => cases item
      | entity front found =>
        cases item
        obtain ⟨_, _, _, _, complete_iff, _⟩ := claim_front inv front found
        exact ⟨_, rfl, rfl, complete_iff⟩
    · obtain ⟨after, _, _, phase⟩ := step_invariant sound inv step
      exact phase ▸ ih after later

end Turns

namespace Course

variable {options : Options} {report : Report} (course : Course s options report)
  (sound : s.Sound)
include course sound

omit sound in
theorem seed_inTime : Procedure.InTime (Procedure.seed s options.startNames) .start := by
  refine .attempt course.resolved (.attempt course.seeded (.lift ?_ (Procedure.inTime_done _)))
  refine Procedure.mentionAll_inTime (P := Registry.Follows [] .empty) ?_ ?_ .start
    ⟨Registry.empty_consistent, rfl, .refl _⟩
  · exact fun m _ r before =>
      spares_of_early before.consistent fun late => nomatch before.phase.symm.trans late
  · exact fun m _ r before => before.register m.entity nofun

theorem inTime : Procedure.InTime (Procedure.dump s options) .start := by
  have seeded := (seed_invariant sound course.seeded).1
  have whole := turns_le sound (course.middle_invariant sound).1
  have stubs := turns_le sound (course.last_invariant sound).1
  rw [List.length_append] at stubs
  have few : report.whole.length ≤ turnLimit s := by omega
  have few' : report.stubs.length ≤ turnLimit s := by omega
  obtain ⟨⟨_, start⟩, executed, same⟩ :=
    Outcome.bind_eq_ok.mp (seed_eq course.resolved course.seeded)
  cases Outcome.pure_eq_ok.mp same
  refine .follow course.seed_inTime executed ?_
  refine .follow (drain_inTime sound seeded course.whole course.drained few)
    (course.drain_whole sound) ?_
  refine .take (by simp [Action.operation?, Registry.Spares]) ?_
  refine .follow (drain_inTime sound (course.accepted_invariant sound) course.stubs course.finished
    few') (course.drain_stubs sound) ?_
  exact .take (by simp [Action.operation?]) (.attempt course.listed (Procedure.inTime_done _))

theorem log_replays : ∃ operations, log s options = .ok operations ∧
    Registry.empty.Replays operations report.last.registry := by
  refine ⟨_, log_eq (course.dumped sound), ?_⟩
  have inTime := course.inTime sound
  rwa [Procedure.InTime, run_dump (course.dumped sound)] at inTime

end Course

end Dump

/-- Every element is written once, in its final form and in the phase for it. The operations of
`log` are those of the dump. -/
structure Report.Phased (r : Report) (log : List Registry.Operation) : Prop where
  replayed : Registry.empty.after log = r.last.registry
  whole : ∀ turn ∈ r.whole, ∀ e, turn.item = .entity e → ∃ element,
    turn.element = some (.node element) ∧ element.entity = e ∧ element.complete = true
  stubs : ∀ turn ∈ r.stubs, ∀ e, turn.item = .entity e → ∃ element,
    turn.element = some (.node element) ∧ element.entity = e ∧ element.complete = false
  once : (r.turns.map (·.item)).Nodup ∧ r.last.registry.queue.items = []
  spared : ∀ before e rest, log = before ++ .register e true :: rest →
    ∀ node, (Registry.empty.after before).nodes.get? e = some node → node.emitted = true →
      node.complete = true
  complete_iff : ∀ element ∈ r.nodes,
    element.complete = true ↔ .register element.entity true ∈ log

theorem dump_phased (d : Document) (accepted : d.validate = .ok ()) (options : Options) :
    ∃ s report log, Snapshot.ofDocument d = .ok s ∧ dump s options = .ok report ∧
      Dump.log s options = .ok log ∧ report.Phased log := by
  obtain ⟨s, report, indexed, sound, ⟨course⟩⟩ := Dump.course_of_accepted accepted options
  obtain ⟨log, logged, replays⟩ := course.log_replays sound
  refine ⟨s, report, log, indexed, course.dumped sound, logged, ?_⟩
  constructor
  case replayed => exact replays.after_eq
  case whole =>
    intro turn taken e item
    obtain ⟨seeded, early⟩ := Dump.seed_invariant sound course.seeded
    obtain ⟨element, wrote, entity, complete_iff⟩ :=
      Dump.turns_complete sound seeded course.whole taken item
    exact ⟨element, wrote, entity, complete_iff.mpr early⟩
  case stubs =>
    intro turn taken e item
    obtain ⟨element, wrote, entity, complete_iff⟩ :=
      Dump.turns_complete sound (course.accepted_invariant sound) course.stubs taken item
    exact ⟨element, wrote, entity, Bool.eq_false_iff.mpr fun done => nomatch complete_iff.mp done⟩
  case once => exact ⟨course.items_nodup sound, course.finished⟩
  case spared =>
    rintro before e rest rfl
    exact replays.spares rfl
  case complete_iff =>
    intro element member
    have wants := Registry.wants_after .empty log element.entity
    rw [replays.after_eq] at wants
    have never : ¬ Registry.empty.Wants element.entity := by
      simp [Registry.Wants]
    rw [← wants.trans (or_iff_right never), Registry.Wants, course.registered sound member]
    simp

theorem opaquePointer_phased : Document.opaquePointer.validate = .ok () ∧
    ∃ s report log, Snapshot.ofDocument .opaquePointer = .ok s ∧
      dump s ⟨["p"], .suffix⟩ = .ok report ∧ Dump.log s ⟨["p"], .suffix⟩ = .ok log ∧
      report.Phased log :=
  ⟨rfl, dump_phased .opaquePointer rfl ⟨["p"], .suffix⟩⟩

end AstXml
