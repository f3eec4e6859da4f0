import AstXml.Dump
import AstXml.Registry.Operation

/-!
The dump under an audit. Its registry operations are written into a log, its counters may run over,
and its table of nodes may be walked in another order when the stubs are swept.
-/
namespace AstXml

/-- The greatest numbers that there are for nodes and for source files. -/
structure Limits where
  nodes : Nat
  files : Nat

/-- The numbers that are words of 32 bits. -/
def Limits.words : Limits := ⟨Numbering.greatest, Numbering.greatest⟩

/-- How a dump under an audit ends early: as any dump does, or by a counter that runs over. -/
inductive Overrun
  | fault (why : Fault)
  | nodes
  | files
  deriving DecidableEq

/-- The stubs among some entries, in the order of their numbers. -/
def NodeTable.sweep {κ : Type} (entries : List (κ × Node)) : List κ :=
  ((entries.filter (!·.2.complete)).mergeSort fun a b => a.2.number ≤ b.2.number).map (·.1)

/-- Puts the entries of a table in the order in which they are walked. -/
abbrev Walk := List (Entity × Node) → List (Entity × Node)

/-- The change of phase, with the table of nodes walked in some order. -/
def Registry.acceptWalking (walk : Walk) (r : Registry) : Nat × Registry :=
  let stubs := NodeTable.sweep (walk r.nodes.entries)
  (stubs.length, { r with
    phase := .acceptIncomplete
    queue := stubs.foldl (fun queue entity => queue.push (.entity entity)) r.queue })

/-- What an audit asks for. -/
structure Audit where
  limits : Option Limits
  walk : Walk

/-- The books of a dump, and the registry operations on them so far. -/
structure Ledger where
  run : Run
  log : List Registry.Operation

namespace Action

variable {α : Type}

def operation? : Action α → Option Registry.Operation
  | .register entity complete => some (.register entity complete)
  | .registerQualified base quals => some (.registerQualified base quals)
  | .acceptIncomplete => some .acceptIncomplete
  | .next => some .next
  | .begin item => some (.begin item)
  | .locate _ | .look => none

/-- The counter that an action would take beyond its limit. The next number for a file is made up
for known files as well. -/
def overrun? (limits : Limits) (run : Run) : Action α → Option Overrun
  | .register entity complete =>
    if run.registry.hasRoom limits.nodes (.register entity complete) then none else some .nodes
  | .locate _ => if run.files.size < limits.files then none else some .files
  | _ => none

def performWalking (walk : Walk) : Action α → Run → α × Run
  | .acceptIncomplete, run =>
    let (count, registry) := run.registry.acceptWalking walk
    (count, { run with registry })
  | action, run => action.perform run

def audit (rules : Audit) (action : Action α) (ledger : Ledger) : Except Overrun (α × Ledger) :=
  match rules.limits.bind (action.overrun? · ledger.run) with
  | some overrun => .error overrun
  | none =>
    let (answer, run) := action.performWalking rules.walk ledger.run
    .ok (answer, ⟨run, ledger.log ++ action.operation?.toList⟩)

end Action

def Procedure.audit {α : Type} (rules : Audit) :
    Procedure α → Ledger → Except Overrun (α × Ledger)
  | .done answer, ledger => .ok (answer, ledger)
  | .act action, ledger => action.audit rules ledger
  | .bind first rest, ledger => do
    let (answer, ledger) ← first.audit rules ledger
    (rest answer).audit rules ledger

namespace Dump

/-- A dump under an audit, with its registry operations. -/
def audited (rules : Audit) (s : Snapshot) (options : Options) :
    Except Overrun (Report × List Registry.Operation) := do
  match ← Procedure.audit rules (Procedure.dump s options) ⟨.start, []⟩ with
  | (.ok report, ledger) => return (report, ledger.log)
  | (.error fault, _) => throw (.fault fault)

/-- The registry operations of a dump. -/
def log (s : Snapshot) (options : Options) : Except Overrun (List Registry.Operation) := do
  return (← audited ⟨none, id⟩ s options).2

end Dump

/-- A dump that checks its counters at every number it hands out. -/
def dumpWithin (limits : Limits) (s : Snapshot) (options : Options) : Except Overrun Report := do
  return (← Dump.audited ⟨some limits, id⟩ s options).1

/-- A dump that walks its table of nodes in some order when the phase changes. -/
def dumpWalking (walk : Walk) (s : Snapshot) (options : Options) : Except Overrun Report := do
  return (← Dump.audited ⟨none, walk⟩ s options).1

end AstXml
