import Mathlib.Order.Basic
import AstXml.Audit
import AstXml.Proofs.Course
import AstXml.Proofs.Registry.History

/-!
The dump under an audit is the dump itself. Counters only grow, so limits that they are within at
the end have not been noticed on the way; the stubs are swept in the order of discovery, in
whatever order the table is walked; and the log is that of the operations on the books.
-/
namespace AstXml
open Registry (Operation)

variable {α β : Type}

namespace Run

structure Grows (run run' : Run) : Prop where
  nodes : run.registry.count ≤ run'.registry.count
  files : run.files.size ≤ run'.files.size

theorem Grows.refl (run : Run) : run.Grows run := ⟨le_rfl, le_rfl⟩

theorem Grows.trans {a b c : Run} (first : a.Grows b) (second : b.Grows c) : a.Grows c :=
  ⟨first.nodes.trans second.nodes, first.files.trans second.files⟩

/-- The counters are within their limits, that of the files with one number to spare. -/
structure Fits (limits : Limits) (run : Run) : Prop where
  nodes : run.registry.count ≤ limits.nodes
  files : run.files.size < limits.files

theorem Fits.before {limits : Limits} {run run' : Run} (fits : run'.Fits limits)
    (grown : run.Grows run') : run.Fits limits :=
  ⟨grown.nodes.trans fits.nodes, grown.files.trans_lt fits.files⟩

end Run

/-! A table of nodes that is kept in some other order has to put the stubs in that of discovery. -/

theorem Registry.Numbered.sweep_eq {r : Registry} (h : r.Numbered) {entries : List (Entity × Node)}
    (walked : entries.Perm r.nodes.entries) : NodeTable.sweep entries = r.nodes.stubs := by
  have ascending : (r.nodes.entries.filter (!·.2.complete)).Pairwise
      fun a b => a.2.number ≤ b.2.number := by
    have numbers : r.nodes.numbers.Pairwise (· < ·) := h.numbers ▸ List.pairwise_lt_range'
    exact ((List.pairwise_map.mp numbers).imp Nat.le_of_lt).filter _
  have distinct : r.nodes.numbers.Nodup := h.numbers ▸ List.nodup_range'
  have stubs := walked.filter fun entry => !entry.2.complete
  have sorted : ((entries.filter (!·.2.complete)).mergeSort fun a b => a.2.number ≤ b.2.number) =
      r.nodes.entries.filter (!·.2.complete) := by
    refine List.Perm.eq_of_pairwise ?unique ?sorted ascending ((List.mergeSort_perm ..).trans stubs)
    case unique =>
      intro a b listed listed' below above
      have here := stubs.subset ((List.mergeSort_perm ..).subset listed)
      exact List.inj_on_of_nodup_map distinct (List.mem_of_mem_filter here)
        (List.mem_of_mem_filter listed') (Nat.le_antisymm below above)
    case sorted =>
      refine (List.pairwise_mergeSort ?transitive ?total _).imp of_decide_eq_true
      case transitive =>
        simp only [decide_eq_true_eq]
        exact fun _ _ _ => Nat.le_trans
      case total => simp [Nat.le_total]
  rw [NodeTable.sweep, sorted]
  rfl

theorem Registry.Numbered.acceptWalking_eq {r : Registry} (h : r.Numbered) {walk : Walk}
    (walks : ∀ entries, (walk entries).Perm entries) :
    r.acceptWalking walk = r.acceptIncomplete := by
  rw [acceptWalking, h.sweep_eq (walks _)]
  rfl

/-! One action. -/

namespace Action

variable (action : Action α) (run : Run)

theorem after_operation :
    run.registry.after action.operation?.toList = (action.perform run).2.registry := by
  cases action with
  | next =>
    change (run.registry.perform .next).2 = _
    simp only [Registry.perform, perform]
    cases run.registry.next? <;> rfl
  | _ => rfl

theorem grows : run.Grows (action.perform run).2 := by
  constructor
  case nodes =>
    rw [← after_operation]
    cases action.operation? with
    | none => exact le_rfl
    | some operation => exact Registry.count_le_perform ..
  case files =>
    cases action with
    | locate file => exact (FileTable.register_grows ..).length_le
    | next =>
      simp only [perform]
      cases run.registry.next? <;> exact le_rfl
    | _ => exact le_rfl

variable {action run}

theorem perform_numbered (h : run.registry.Numbered) :
    (action.perform run).2.registry.Numbered := by
  rw [← after_operation]
  cases action.operation? with
  | none => exact h
  | some operation => exact Registry.perform_numbered h operation

theorem overrun?_eq_none {limits : Limits} (fits : (action.perform run).2.Fits limits) :
    action.overrun? limits run = none := by
  have before := fits.before (action.grows run)
  cases action with
  | register e complete =>
    exact if_pos ((Registry.hasRoom_iff before.nodes (.register e complete)).mpr fits.nodes)
  | locate file => exact if_pos before.files
  | _ => rfl

theorem performWalking_eq {walk : Walk} (walks : ∀ entries, (walk entries).Perm entries)
    (h : run.registry.Numbered) : action.performWalking walk run = action.perform run := by
  cases action with
  | acceptIncomplete => rw [performWalking, h.acceptWalking_eq walks]; rfl
  | _ => rfl

variable {rules : Audit} (walks : ∀ entries, (rules.walk entries).Perm entries)
include walks

theorem audit_eq (h : run.registry.Numbered)
    (room : ∀ limits ∈ rules.limits, (action.perform run).2.Fits limits)
    (log : List Operation) : action.audit rules ⟨run, log⟩ =
      .ok ((action.perform run).1, ⟨(action.perform run).2, log ++ action.operation?.toList⟩) := by
  have allowed : rules.limits.bind (action.overrun? · run) = none :=
    Option.bind_eq_none_iff.mpr fun limits here => overrun?_eq_none (room limits here)
  simp only [audit, allowed, performWalking_eq walks h]

end Action

/-! A procedure, action by action. -/

namespace Procedure

/-- The registry operations of a procedure on the books as they are. -/
def operations {α : Type} : Procedure α → Run → List Operation
  | .done _, _ => []
  | .act action, _ => action.operation?.toList
  | .bind first rest, run =>
    first.operations run ++ (rest (first.run run).1).operations (first.run run).2

theorem grows (procedure : Procedure α) (run : Run) : run.Grows (procedure.run run).2 := by
  induction procedure generalizing run with
  | done => exact .refl run
  | act action => exact action.grows run
  | bind first rest ih ih' => exact (ih run).trans (ih' _ _)

theorem run_numbered (procedure : Procedure α) {run : Run} (h : run.registry.Numbered) :
    (procedure.run run).2.registry.Numbered := by
  induction procedure generalizing run with
  | done => exact h
  | act action => exact action.perform_numbered h
  | bind first rest ih ih' => exact ih' _ (ih h)

variable {rules : Audit} (walks : ∀ entries, (rules.walk entries).Perm entries)
include walks

theorem audit_eq (procedure : Procedure α) {run : Run} (h : run.registry.Numbered)
    (room : ∀ limits ∈ rules.limits, (procedure.run run).2.Fits limits) (log : List Operation) :
    procedure.audit rules ⟨run, log⟩ =
      .ok ((procedure.run run).1, ⟨(procedure.run run).2, log ++ procedure.operations run⟩) := by
  induction procedure generalizing run log with
  | done => rw [operations, List.append_nil]; rfl
  | act action => exact action.audit_eq walks h room log
  | bind first rest ih ih' =>
    have early := ih h (fun limits here => (room limits here).before ((rest _).grows _)) log
    have late := ih' (first.run run).1 (first.run_numbered h) room (log ++ first.operations run)
    rw [audit, early, Outcome.ok_bind]
    rw [operations, ← List.append_assoc]
    exact late

end Procedure

theorem Procedure.execute_eq_ok {trial : Trial α} {run run' : Run}
    {answer : α} : execute trial run = .ok (answer, run') ↔
      Procedure.run trial run = (.ok answer, run') := by
  unfold execute
  split <;> simp [*]

namespace Dump

variable {s : Snapshot} {options : Options} {report : Report}

/-- Nothing is done on the books once the report is made. -/
theorem run_dump (dumped : dump s options = .ok report) :
    Procedure.run (Procedure.dump s options) .start = (.ok report, report.last) := by
  obtain ⟨⟨_, last⟩, executed, same⟩ := Outcome.bind_eq_ok.mp dumped
  cases Outcome.pure_eq_ok.mp same
  have finished := executed
  rw [Procedure.execute_dump] at finished
  simp only [Outcome.bind_eq_ok, Outcome.pure_eq_ok, Prod.mk.injEq] at finished
  obtain ⟨_, _, _, _, _, _, _, _, rfl, rfl⟩ := finished
  exact Procedure.execute_eq_ok.mp executed

theorem audited_eq {rules : Audit} (walks : ∀ entries, (rules.walk entries).Perm entries)
    (dumped : dump s options = .ok report)
    (room : ∀ limits ∈ rules.limits, report.last.Fits limits) : audited rules s options =
      .ok (report, Procedure.operations (Procedure.dump s options) .start) := by
  have run := run_dump dumped
  have start : Run.start.registry.Numbered := ⟨.nil, rfl⟩
  rw [audited, Procedure.audit_eq walks _ start (by rwa [run]), run]
  rfl

/-- The log of a dump lists what its procedure does on the books. -/
theorem log_eq (dumped : dump s options = .ok report) :
    log s options = .ok (Procedure.operations (Procedure.dump s options) .start) := by
  rw [log, audited_eq (fun _ => .refl _) dumped (by simp)]
  rfl

end Dump

section Audited

variable {s : Snapshot} {options : Options} {report : Report}

theorem dumpWithin_eq {limits : Limits} (dumped : dump s options = .ok report)
    (fits : report.last.Fits limits) : dumpWithin limits s options = .ok report := by
  rw [dumpWithin, Dump.audited_eq (fun _ => .refl _) dumped (by simpa using fits)]
  rfl

theorem dumpWalking_eq {walk : Walk} (walks : ∀ entries, (walk entries).Perm entries)
    (dumped : dump s options = .ok report) : dumpWalking walk s options = .ok report := by
  rw [dumpWalking, Dump.audited_eq walks dumped (by simp)]
  rfl

end Audited

end AstXml
