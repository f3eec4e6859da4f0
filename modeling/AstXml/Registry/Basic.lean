import AstXml.Registry.Node
import AstXml.Registry.Queue

/-!
The bookkeeping of a dump: the nodes of all entities met so far, the qualified forms asked for, the
phase, and the queue they feed. Declarations and types share one numbering, so numbers tell the
order of discovery.
-/
namespace AstXml

structure Registry where
  numbering : Numbering
  nodes : NodeTable Entity
  qualified : List (Nat × Qualifiers)
  phase : Phase
  queue : WorkQueue

namespace Registry

def empty : Registry := ⟨.start, .empty, [], .requireComplete, .empty⟩

variable (r : Registry)

def register (entity : Entity) (complete : Bool) : Nat × Registry :=
  let (registration, nodes, numbering) := r.nodes.register entity complete r.numbering r.phase
  (registration.number,
    { r with nodes, numbering, queue := r.queue.pushIf registration.queued (.entity entity) })

/-- Queues the qualified form of a node the first time it is asked for; answers whether it was. -/
def registerQualified (base : Nat) (quals : Qualifiers) : Bool × Registry :=
  if (base, quals) ∈ r.qualified then (false, r)
  else
    (true, { r with
      qualified := r.qualified ++ [(base, quals)], queue := r.queue.push (.qualified base quals) })

/-- Accepts stubs from now on and queues those met so far, in the order of discovery; answers how
many. -/
def acceptIncomplete : Nat × Registry :=
  let stubs := r.nodes.stubs
  (stubs.length, { r with
    phase := .acceptIncomplete
    queue := stubs.foldl (fun queue entity => queue.push (.entity entity)) r.queue })

def next? : Option (WorkItem × Registry) :=
  r.queue.pop?.map fun (item, queue) => (item, { r with queue })

/-- Claims the element of an item. The answer is the node's state, or nothing when the element has
been claimed before; the qualified form of a node is not claimed. -/
def beginOutput : WorkItem → Option Node × Registry
  | .qualified .. => (none, r)
  | .entity entity =>
    match r.nodes.get? entity with
    | none => (none, r)
    | some node =>
      if node.emitted then (none, r)
      else
        (some { node with emitted := true },
          { r with nodes := r.nodes.modify entity ({ · with emitted := true }) })

def pending : Nat := r.queue.size

def count : Nat := r.numbering.count

end Registry

end AstXml
