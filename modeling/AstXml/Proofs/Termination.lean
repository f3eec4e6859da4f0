import Mathlib.Data.Finset.Card
import AstXml.Proofs.Phases
import AstXml.Proofs.Registry.History

/-!
Why a dump ends, however the references of the tree run. A drain may queue more than it takes, so
the length of its queue is no measure for it. What goes down are the items not taken yet, out of
those for all entities and qualified forms that there can be: every pass takes one of them, and
none comes back.
-/
namespace AstXml

namespace WorkItem

/-- Every item is for an entity or for a qualified form. -/
theorem length_split (items : List WorkItem) :
    items.length = (items.filterMap (·.entity?)).length + (items.filterMap (·.form?)).length := by
  induction items with
  | nil => rfl
  | cons item rest ih =>
    cases item <;>
      simp only [List.length_cons, List.filterMap_cons, entity?, form?, ih] <;> omega

end WorkItem

namespace Registry

/-- The item has been taken from the queue. -/
def took (r : Registry) : WorkItem → Bool
  | .entity e => (r.nodes.get? e).any (·.emitted)
  | .qualified b q => r.qualified.contains (b, q) && !r.queue.items.contains (.qualified b q)

theorem took_iff {r : Registry} {taken : List WorkItem} (h : r.Consistent taken)
    (item : WorkItem) : r.took item = true ↔ item ∈ taken := by
  cases item with
  | entity e =>
    rw [h.taken_iff, took, Emitted, Option.any_eq_true]
  | qualified b q =>
    have distinct := (List.nodup_append.mp h.distinct).2.2
    simp only [took, Bool.and_eq_true, Bool.not_eq_true', Bool.eq_false_iff, ne_eq,
      List.contains_iff_mem, ← h.qualified_iff, List.mem_append]
    constructor
    · rintro ⟨known | waiting, idle⟩
      · exact known
      · exact absurd waiting idle
    · exact fun known => ⟨.inl known, fun waiting => distinct _ known _ waiting rfl⟩

/-- A qualified form is noted once. -/
theorem qualified_nodup (operations : List Operation) :
    (empty.after operations).qualified.Nodup := by
  induction operations using List.reverseRecOn with
  | nil => exact .nil
  | append_singleton operations operation ih =>
    rw [after_concat]
    cases operation with
    | registerQualified b q =>
      simp only [perform, registerQualified]
      split
      · exact ih
      · rename_i new
        simp only [← List.concat_eq_append]
        exact ih.concat new
    | register => exact ih
    | acceptIncomplete => exact ih
    | next =>
      rw [(next_books _).qualified]
      exact ih
    | begin item =>
      rw [perform, (beginOutput_books _ item).qualified]
      exact ih
    | step =>
      rw [(step_books _).qualified]
      exact ih

end Registry

namespace Dump

/-- One pass of the loop of a drain: the next item is taken, and its turn leads from `before` to
`after`. -/
def Pass (s : Snapshot) (mode : QualifierMode) (after before : Run) : Prop :=
  ∃ item registry turn, before.registry.next? = some (item, registry) ∧
    Dump.turn s mode item { before with registry } = .ok (turn, after)

/-- The items that have not been taken yet, of all that can ever be queued. -/
def remaining (s : Snapshot) (run : Run) : Finset WorkItem :=
  (itemsUpTo s s.entities.length).toFinset.filter fun item => run.registry.took item = false

theorem card_remaining_le (s : Snapshot) (run : Run) :
    (remaining s run).card ≤ 8 * (s.document.decls.size + s.document.types.size) := by
  have all : (remaining s run).card ≤ (itemsUpTo s s.entities.length).length :=
    (Finset.card_filter_le _ _).trans (List.toFinset_card_le _)
  rw [length_itemsUpTo, Snapshot.length_entities] at all
  omega

section Progress

variable {s : Snapshot} {mode : QualifierMode} (sound : s.Sound) {turns : List Turn}
  {run run' : Run}

theorem itemsUpTo_mono {count count' : Nat} (le : count ≤ count') :
    itemsUpTo s count ⊆ itemsUpTo s count' := by
  intro item
  simp only [itemsUpTo, List.mem_append, List.mem_flatMap, List.mem_range'_1]
  refine Or.imp_right ?_
  rintro ⟨b, counted, form⟩
  exact ⟨b, by omega, form⟩

/-- What remains depends on what has been taken, and on nothing else. -/
theorem remaining_congr (inv : Invariant s turns run) (inv' : Invariant s turns run') :
    remaining s run' = remaining s run := by
  have taken := Registry.took_iff inv.consistent
  have taken' := Registry.took_iff inv'.consistent
  ext item
  simp only [remaining, Finset.mem_filter, Bool.eq_false_iff, ne_eq, taken, taken']

include sound

/-- A turn takes an item that remains, and all others still do. -/
theorem step_remaining (inv : Invariant s turns run) {turn : Turn}
    (step : Step s mode run turn run') :
    turn.item ∈ remaining s run ∧ remaining s run' = (remaining s run).erase turn.item := by
  have after := (step_invariant sound inv step).1
  have taken := Registry.took_iff inv.consistent
  have taken' := Registry.took_iff after.consistent
  rw [List.map_append, List.map_singleton] at taken'
  have fresh : turn.item ∉ turns.map (·.item) := by
    have distinct := (List.nodup_append.mp after.consistent.distinct).1
    rw [List.map_append, List.map_singleton, List.nodup_append] at distinct
    exact fun known => distinct.2.2 _ known _ (List.mem_singleton_self _) rfl
  have counted : run'.registry.count ≤ s.entities.length :=
    s.length_entities ▸ count_le sound after
  have listed : turn.item ∈ itemsUpTo s s.entities.length :=
    itemsUpTo_mono counted (items_within sound after (by simp))
  constructor
  · rw [remaining, Finset.mem_filter, List.mem_toFinset, Bool.eq_false_iff, ne_eq, taken]
    exact ⟨listed, fresh⟩
  · ext item
    simp only [remaining, Finset.mem_erase, Finset.mem_filter, List.mem_toFinset,
      Bool.eq_false_iff, ne_eq, taken, taken', List.mem_append, List.mem_singleton]
    tauto

/-- A series of turns takes as many of the remaining items as it is long. -/
theorem turns_remaining (inv : Invariant s turns run) {later : List Turn} {last : Run}
    (steps : Turns s mode run later last) :
    later.length + (remaining s last).card = (remaining s run).card := by
  induction steps generalizing turns with
  | done run => exact Nat.zero_add _
  | next step _ ih =>
    obtain ⟨member, fewer⟩ := step_remaining sound inv step
    have rest := ih (step_invariant sound inv step).1
    have one := Finset.card_erase_add_one member
    rw [← fewer] at one
    rw [List.length_cons]
    omega

theorem step_of_pass (inv : Invariant s turns run) (pass : Pass s mode run' run) :
    ∃ turn, Step s mode run turn run' := by
  obtain ⟨item, registry, turn, front, turned⟩ := pass
  obtain ⟨turn', mid, step⟩ := step_total sound mode inv front
  obtain ⟨rest, front', turned'⟩ := turn_of_step inv step
  obtain ⟨rfl, rfl⟩ := Prod.mk.inj (Option.some.inj (front.symm.trans front'))
  obtain ⟨_, rfl⟩ := Prod.mk.inj (Except.ok.inj (turned.symm.trans turned'))
  exact ⟨turn', step⟩

/-- There is no endless series of passes. -/
theorem pass_accessible (mode : QualifierMode) (inv : Invariant s turns run) :
    Acc (Pass s mode) run := by
  generalize left : (remaining s run).card = n
  induction n using Nat.strong_induction_on generalizing turns run with
  | _ n ih =>
    refine .intro run fun run' pass => ?_
    obtain ⟨turn, step⟩ := step_of_pass sound inv pass
    obtain ⟨member, fewer⟩ := step_remaining sound inv step
    have less := fewer ▸ Finset.card_erase_lt_of_mem member
    exact ih _ (left ▸ less) (step_invariant sound inv step).1 rfl

theorem drain_short (inv : Invariant s turns run) {later : List Turn} {last : Run}
    (steps : Turns s mode run later last) {limit : Nat} (short : limit < later.length) :
    drain s mode limit run = .error .unfinished := by
  induction steps generalizing turns limit with
  | done => cases short
  | next step _ ih =>
    obtain ⟨rest, front, turned⟩ := turn_of_step inv step
    rw [drain_unfold, front]
    cases limit with
    | zero => rfl
    | succ limit =>
      have after := (step_invariant sound inv step).1
      simp only [turned, ih after (Nat.lt_of_succ_lt_succ short), Outcome.ok_bind]
      rfl

/-- A limit makes no difference to a drain unless it is too low for all the items. -/
theorem drain_limit (inv : Invariant s turns run) {later : List Turn} {last : Run}
    (steps : Turns s mode run later last) (drained : last.registry.queue.items = [])
    (limit : Nat) : drain s mode limit run =
      if later.length ≤ limit then .ok (later, last) else .error .unfinished := by
  split
  · exact drain_eq sound inv steps drained ‹_›
  · exact drain_short sound inv steps (by omega)

end Progress

namespace Course

variable {s : Snapshot} {options : Options} {report : Report} (course : Course s options report)
  (sound : s.Sound)
include course sound

theorem length_add_remaining :
    report.whole.length + report.stubs.length + (remaining s report.last).card =
      (remaining s (Run.mentionAll course.seeds .start).2).card := by
  have seeded := (seed_invariant sound course.seeded).1
  have first := turns_remaining sound seeded course.whole
  have second := turns_remaining sound (course.accepted_invariant sound) course.stubs
  -- accepting stubs queues items, but it takes none
  have same := remaining_congr (course.middle_invariant sound).1 (course.accepted_invariant sound)
  rw [same] at second
  omega

/-- What is taken from the queue in the end: one item for every number that was handed out, and
one for every qualified form that was asked for. -/
theorem length_turns (distinct : report.last.registry.qualified.Nodup) : report.turns.length =
    report.summary.nodeIds + report.last.registry.qualified.length := by
  have split := WorkItem.length_split (report.turns.map (·.item))
  have forms : report.forms = (report.turns.map (·.item)).filterMap (·.form?) :=
    course.forms_eq.trans (forms_of_written (course.finish sound).1.written)
  have pairs : report.forms.Perm report.last.registry.qualified :=
    (List.perm_ext_iff_of_nodup (course.forms_nodup sound) distinct).mpr
      fun _ => course.mem_forms sound
  rwa [List.length_map, ← forms, ← course.entities_eq sound, List.length_map,
    course.length_nodes sound, pairs.length_eq] at split

end Course

end Dump

/-- How the drains of a dump come to an end, given the states they start from and the operations
of the dump. The limits of the drains play no part in it. -/
structure Report.Terminates (r : Report) (s : Snapshot) (mode : QualifierMode)
    (start middle : Run) (log : List Registry.Operation) : Prop where
  whole_ends : Acc (Dump.Pass s mode) start
  whole : ∀ limit, Dump.drain s mode limit start =
    if r.whole.length ≤ limit then .ok (r.whole, middle) else .error .unfinished
  stubs_ends : Acc (Dump.Pass s mode) (Dump.acceptStubs middle)
  stubs : ∀ limit, Dump.drain s mode limit (Dump.acceptStubs middle) =
    if r.stubs.length ≤ limit then .ok (r.stubs, r.last) else .error .unfinished
  pairs : r.last.registry.qualified.Nodup ∧
    ∀ b q, (b, q) ∈ r.last.registry.qualified ↔ .registerQualified b q ∈ log
  items : r.whole.length + r.stubs.length =
    r.summary.nodeIds + r.last.registry.qualified.length
  bound : r.whole.length + r.stubs.length ≤
    8 * (s.document.decls.size + s.document.types.size)

/-- Both drains of a dump end, after one pass for every number and every qualified form. -/
theorem dump_terminates (d : Document) (accepted : d.validate = .ok ()) (options : Options) :
    ∃ s start middle report log, Snapshot.ofDocument d = .ok s ∧ s.document = d ∧
      Dump.seed s options.startNames = .ok start ∧ dump s options = .ok report ∧
      Dump.log s options = .ok log ∧
      report.Terminates s options.qualifiers start middle log := by
  have wellFormed := d.validate_ok_iff.mp accepted
  obtain ⟨s, indexed, same, sound⟩ := Snapshot.ofDocument_sound wellFormed
  obtain ⟨report, ⟨course⟩⟩ := Dump.course_total sound options
  obtain ⟨log, logged, replays⟩ := course.log_replays sound
  have seeded := (Dump.seed_invariant sound course.seeded).1
  have accepted := course.accepted_invariant sound
  have distinct : report.last.registry.qualified.Nodup :=
    replays.after_eq ▸ Registry.qualified_nodup log
  have length : report.turns.length = report.whole.length + report.stubs.length :=
    List.length_append
  refine ⟨s, _, course.middle, report, log, indexed, same,
    Dump.seed_eq course.resolved course.seeded, course.dumped sound, logged, ?_⟩
  constructor
  case whole_ends => exact Dump.pass_accessible sound _ seeded
  case whole => exact Dump.drain_limit sound seeded course.whole course.drained
  case stubs_ends => exact Dump.pass_accessible sound _ accepted
  case stubs => exact Dump.drain_limit sound accepted course.stubs course.finished
  case pairs =>
    refine ⟨distinct, fun b q => ?_⟩
    rw [← replays.after_eq, Registry.qualified_after]
  case items => exact length ▸ course.length_turns sound distinct
  case bound =>
    have taken := course.length_add_remaining sound
    have all := Dump.card_remaining_le s (Run.mentionAll course.seeds .start).2
    omega

/-- A document that runs in circles: a namespace is inside itself and lists the unit, two pointers
point at each other, a typedef stands for its own type, and children repeat. -/
def Document.circular : Document where
  files := #[]
  types := #[.pointer ⟨⟨1⟩, ⟨true, false, false⟩⟩, .pointer (.plain ⟨0⟩), .typedef ⟨2⟩]
  decls := #[
    { Declaration.bare .translationUnit "" (some ⟨1⟩) with children := [⟨1⟩, ⟨0⟩, ⟨1⟩] },
    { Declaration.bare .nameSpace "n" (some ⟨1⟩) with children := [⟨1⟩, ⟨2⟩, ⟨0⟩, ⟨3⟩] },
    .bare (.typedef ⟨⟨2⟩, ⟨false, true, false⟩⟩) "t" (some ⟨1⟩),
    .bare (.variable ⟨⟨0⟩, ⟨true, true, false⟩⟩) "v" (some ⟨2⟩)]

theorem circular_terminates : Document.circular.validate = .ok () ∧
    ∃ s start middle report log, Snapshot.ofDocument .circular = .ok s ∧
      s.document = .circular ∧ Dump.seed s [] = .ok start ∧ dump s ⟨[], .element⟩ = .ok report ∧
      Dump.log s ⟨[], .element⟩ = .ok log ∧ report.Terminates s .element start middle log :=
  ⟨rfl, dump_terminates .circular rfl ⟨[], .element⟩⟩

end AstXml
