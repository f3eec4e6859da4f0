import AstXml.Entity

/-!
The work still to be done, first come first served.
-/
namespace AstXml

/-- One element to write: that of an entity, or the qualified form of a numbered node. -/
inductive WorkItem
  | entity (entity : Entity)
  | qualified (base : Nat) (quals : Qualifiers)
  deriving DecidableEq

structure WorkQueue where
  items : List WorkItem

namespace WorkQueue

def empty : WorkQueue := ⟨[]⟩

def size (q : WorkQueue) : Nat := q.items.length

def push (q : WorkQueue) (item : WorkItem) : WorkQueue := ⟨q.items ++ [item]⟩

def pop? (q : WorkQueue) : Option (WorkItem × WorkQueue) :=
  match q.items with
  | [] => none
  | item :: rest => some (item, ⟨rest⟩)

def pushIf (q : WorkQueue) (condition : Bool) (item : WorkItem) : WorkQueue :=
  if condition then q.push item else q

theorem items_push (q : WorkQueue) (item : WorkItem) :
    (q.push item).items = q.items ++ [item] := rfl

theorem pop?_eq_some_iff {q rest : WorkQueue} {item : WorkItem} :
    q.pop? = some (item, rest) ↔ q.items = item :: rest.items := by
  obtain ⟨items⟩ := q
  obtain ⟨others⟩ := rest
  cases items <;> simp [pop?]

end WorkQueue

end AstXml
