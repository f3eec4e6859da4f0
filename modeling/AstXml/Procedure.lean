import AstXml.Element
import AstXml.Registry.Basic
import AstXml.Registry.Files

/-!
What is done with the books of a dump. A procedure is made of single actions, and how an action is
performed is left open: on the books as they are, or under an audit.
-/
namespace AstXml

/-- The books of a dump. -/
structure Run where
  registry : Registry
  files : FileTable

def Run.start : Run := ⟨.empty, .empty⟩

/-- One action on the books, by the type of its answer. -/
inductive Action : Type → Type
  | register (entity : Entity) (complete : Bool) : Action Nat
  | registerQualified (base : Nat) (quals : Qualifiers) : Action Bool
  | acceptIncomplete : Action Nat
  | next : Action (Option WorkItem)
  | begin (item : WorkItem) : Action (Option Node)
  | locate (file : FileId) : Action Nat
  | look : Action Run

/-- Actions in order; what comes next may depend on the answers so far. -/
inductive Procedure : Type → Type 1
  | done {α : Type} (answer : α) : Procedure α
  | act {α : Type} (action : Action α) : Procedure α
  | bind {α β : Type} (first : Procedure α) (rest : α → Procedure β) : Procedure β

instance : Monad Procedure where
  pure := .done
  bind := .bind

namespace Action

/-- Performs an action on the books as they are. -/
def perform {α : Type} : Action α → Run → α × Run
  | .register entity complete, run =>
    let (number, registry) := run.registry.register entity complete
    (number, { run with registry })
  | .registerQualified base quals, run =>
    let (isNew, registry) := run.registry.registerQualified base quals
    (isNew, { run with registry })
  | .acceptIncomplete, run =>
    let (count, registry) := run.registry.acceptIncomplete
    (count, { run with registry })
  | .next, run =>
    match run.registry.next? with
    | none => (none, run)
    | some (item, registry) => (some item, { run with registry })
  | .begin item, run =>
    let (node, registry) := run.registry.beginOutput item
    (node, { run with registry })
  | .locate file, run =>
    let (number, files) := run.files.register file
    (number, { run with files })
  | .look, run => (run, run)

end Action

namespace Procedure

def run {α : Type} : Procedure α → Run → α × Run
  | .done answer, run => (answer, run)
  | .act action, run => action.perform run
  | .bind first rest, run =>
    let (answer, run) := first.run run
    (rest answer).run run

end Procedure

end AstXml
