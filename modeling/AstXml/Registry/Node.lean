/-!
Numbered nodes. A key is numbered when it is first registered and keeps that number. A node is
complete once any registration of its key asked for it.
-/
namespace AstXml

/-- How many node numbers have been handed out; the next one is one more. -/
structure Numbering where
  count : Nat
  deriving DecidableEq

namespace Numbering

def start : Numbering := ⟨0⟩

def next (n : Numbering) : Nat × Numbering := (n.count + 1, ⟨n.count + 1⟩)

/-- The greatest number there is: numbers are words of 32 bits. -/
def greatest : Nat := 4294967295

/-- Whether there is a next number, where numbers end at `limit`. -/
def hasNext (limit : Nat) (n : Numbering) : Bool := n.count < limit

end Numbering

/-- The state of one node: `complete` asks for the whole element rather than a stub, `emitted` says
that the element has been written. -/
structure Node where
  number : Nat
  complete : Bool
  emitted : Bool
  deriving DecidableEq

/-- Before `acceptIncomplete` only nodes wanted complete are put in the queue. -/
inductive Phase
  | requireComplete
  | acceptIncomplete
  deriving DecidableEq

/-- The nodes of all registered keys, in the order of registration. -/
structure NodeTable (κ : Type) where
  entries : List (κ × Node)

namespace NodeTable

variable {κ : Type} [DecidableEq κ]

def empty : NodeTable κ := ⟨[]⟩

def size (table : NodeTable κ) : Nat := table.entries.length

def get? (table : NodeTable κ) (key : κ) : Option Node :=
  (table.entries.find? (·.1 = key)).map (·.2)

def modify (table : NodeTable κ) (key : κ) (change : Node → Node) : NodeTable κ :=
  ⟨table.entries.map fun entry => if entry.1 = key then (key, change entry.2) else entry⟩

/-- What a registration answers: the number of the key, and whether it is to be queued now. -/
structure Registration where
  number : Nat
  queued : Bool
  deriving DecidableEq

/-- Numbers a new key, and makes a known one complete when asked. A new key is queued if it is
complete or stubs are accepted, a known one if it has just become complete. -/
def register (table : NodeTable κ) (key : κ) (complete : Bool) (numbering : Numbering)
    (phase : Phase) : Registration × NodeTable κ × Numbering :=
  match table.get? key with
  | some node =>
    let upgrade := complete && !node.complete
    let table := if upgrade then table.modify key ({ · with complete := true }) else table
    (⟨node.number, upgrade⟩, table, numbering)
  | none =>
    let (number, numbering) := numbering.next
    (⟨number, complete || phase = .acceptIncomplete⟩,
      ⟨table.entries ++ [(key, ⟨number, complete, false⟩)]⟩, numbering)

/-- The keys whose nodes are stubs, in the order of registration. -/
def stubs (table : NodeTable κ) : List κ :=
  (table.entries.filter (!·.2.complete)).map (·.1)

theorem get?_modify (table : NodeTable κ) (key other : κ) (change : Node → Node) :
    (table.modify key change).get? other =
      if other = key then (table.get? key).map change else table.get? other := by
  obtain ⟨entries⟩ := table
  simp only [get?, modify]
  induction entries with
  | nil => simp
  | cons entry rest ih =>
    obtain ⟨k, node⟩ := entry
    by_cases same : k = key <;> by_cases found : k = other <;> grind

theorem get?_append (table : NodeTable κ) (key other : κ) (node : Node)
    (fresh : table.get? key = none) :
    NodeTable.get? ⟨table.entries ++ [(key, node)]⟩ other =
      if other = key then some node else table.get? other := by
  obtain ⟨entries⟩ := table
  simp only [get?, List.find?_append, Option.map_eq_none_iff] at fresh ⊢
  by_cases same : other = key
  · subst same
    simp [fresh]
  · have differs : ¬ key = other := fun h => same h.symm
    simp [same, differs]

end NodeTable

end AstXml
