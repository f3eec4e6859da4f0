import AstXml.Registry.Basic

/-!
Registry operations as data, so that a history is a list.
-/
namespace AstXml.Registry

inductive Operation
  | register (entity : Entity) (complete : Bool)
  | registerQualified (base : Nat) (quals : Qualifiers)
  | acceptIncomplete
  | next
  | begin (item : WorkItem)
  | step
  deriving DecidableEq

inductive Answer
  | number (n : Nat)
  | isNew (b : Bool)
  | count (n : Nat)
  | item (item : Option WorkItem)
  | node (node : Option Node)
  | turn (turn : Option (WorkItem × Option Node))
  deriving DecidableEq

/-- Performs one operation; a `step` takes the next item and claims its element. -/
def perform (r : Registry) : Operation → Answer × Registry
  | .register entity complete =>
    let (number, r) := r.register entity complete
    (.number number, r)
  | .registerQualified base quals =>
    let (isNew, r) := r.registerQualified base quals
    (.isNew isNew, r)
  | .acceptIncomplete =>
    let (count, r) := r.acceptIncomplete
    (.count count, r)
  | .next =>
    match r.next? with
    | none => (.item none, r)
    | some (item, r) => (.item (some item), r)
  | .begin item =>
    let (node, r) := r.beginOutput item
    (.node node, r)
  | .step =>
    match r.next? with
    | none => (.turn none, r)
    | some (item, r) =>
      let (node, r) := r.beginOutput item
      (.turn (some (item, node)), r)

def after (r : Registry) (operations : List Operation) : Registry :=
  operations.foldl (fun r operation => (r.perform operation).2) r

/-! Registries whose numbers end. A history stops in front of the operation for which there is no
number left. -/

/-- Whether there is a number for what an operation registers. -/
def hasRoom (limit : Nat) (r : Registry) : Operation → Bool
  | .register entity _ => (r.nodes.get? entity).isSome || r.numbering.hasNext limit
  | _ => true

def performWithin (limit : Nat) (r : Registry) (operation : Operation) :
    Option (Answer × Registry) :=
  if r.hasRoom limit operation then some (r.perform operation) else none

/-- The registry after a history, unless it has stopped on the way. -/
def afterWithin (limit : Nat) (r : Registry) (operations : List Operation) : Option Registry :=
  operations.foldlM (fun r operation => (r.performWithin limit operation).map (·.2)) r

end AstXml.Registry
