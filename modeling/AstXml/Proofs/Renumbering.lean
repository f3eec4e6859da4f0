import Mathlib.Data.List.Sort
import AstXml.Proofs.Numbering

/-!
Two dumps may number the same nodes and source files differently. A renumbering takes what one of
them writes to what the other writes.
-/
namespace AstXml

namespace Ascending

theorem insert_ascending (x : Nat) {xs : List Nat} (ascending : xs.Pairwise (· < ·)) :
    (insert (fun a b => decide (a < b)) x xs).Pairwise (· < ·) := by
  induction xs with
  | nil => simp [insert]
  | cons y rest ih =>
    obtain ⟨below, later⟩ := List.pairwise_cons.mp ascending
    simp only [insert, decide_eq_true_eq]
    split
    · exact ascending
    · rename_i differs
      split
      · rename_i less
        apply List.Pairwise.cons _ ascending
        intro z member
        rcases List.mem_cons.mp member with rfl | further
        · exact less
        · exact Nat.lt_trans less (below z further)
      · rename_i more
        apply List.Pairwise.cons _ (ih later)
        intro z member
        rcases (mem_insert _ x z rest).mp member with rfl | further
        · omega
        · exact below z further

theorem ofList_ascending (xs : List Nat) :
    (ofList (fun a b => decide (a < b)) xs).Pairwise (· < ·) := by
  have folded : ∀ sorted : List Nat, sorted.Pairwise (· < ·) →
      (xs.foldl (fun s x => insert (fun a b => decide (a < b)) x s) sorted).Pairwise (· < ·) := by
    induction xs with
    | nil => exact fun _ ascending => ascending
    | cons x rest ih => exact fun sorted ascending => ih _ (insert_ascending x ascending)
  exact folded [] .nil

/-- The ascending list of some numbers depends on nothing else. -/
theorem ofList_congr {xs ys : List Nat} (same : ∀ x, x ∈ xs ↔ x ∈ ys) :
    ofList (fun a b => decide (a < b)) xs = ofList (fun a b => decide (a < b)) ys := by
  apply (ofList_ascending xs).eq_of_mem_iff (ofList_ascending ys)
  intro x
  rw [mem_ofList, mem_ofList]
  exact same x

end Ascending

/-- New numbers for nodes and for source files. -/
structure Renumbering where
  node : Nat → Nat
  file : Nat → Nat

/-- Members are listed in the ascending order of their new numbers. -/
def Attribute.renumber (ρ : Renumbering) : Attribute Nat Nat → Attribute Nat Nat
  | .type node quals => .type (ρ.node node) quals
  | .context node => .context (ρ.node node)
  | .location file line => .location (ρ.file file) line
  | .members nodes => .members (Ascending.ofList (fun a b => decide (a < b)) (nodes.map ρ.node))
  | other => other

/-- The same node under its new number: entity, completeness and tag stay as they are. -/
def NodeElement.renumber (ρ : Renumbering) (element : NodeElement) : NodeElement :=
  { element with
    number := ρ.node element.number, attributes := element.attributes.map (·.renumber ρ) }

def Element.renumber (ρ : Renumbering) : Element → Element
  | .node element => .node (element.renumber ρ)
  | .qualified base quals => .qualified (ρ.node base) quals
  | .file number name => .file (ρ.file number) name

namespace Renumbering

/-- Takes the numbers of one run to those that another run has for the same entities and files. -/
def between (run run' : Run) : Renumbering where
  node number := ((run.registry.nodes.entries.find? (·.2.number = number)).map
    fun entry => run'.registry.numberOf entry.1).getD 0
  file number := ((run.files.known[number - 1]?).map run'.files.numberOf).getD 0

variable {run run' : Run}

theorem between_node (numbered : run.registry.Numbered) {e : Entity} {node : Node}
    (found : run.registry.nodes.get? e = some node) :
    (between run run').node node.number = run'.registry.numberOf e := by
  have distinct : run.registry.nodes.numbers.Nodup := numbered.numbers ▸ List.nodup_range'
  have listed := NodeTable.mem_entries_of_get? found
  have known : ((run.registry.nodes.entries.find? (·.2.number = node.number)).isSome) := by
    rw [List.find?_isSome]
    exact ⟨_, listed, by simp⟩
  obtain ⟨entry, first⟩ := Option.isSome_iff_exists.mp known
  have same : entry.2.number = node.number := by simpa using List.find?_some first
  have found' := (NodeTable.get?_eq_some_iff numbered.keys).mpr (List.mem_of_find?_eq_some first)
  have entity := NodeTable.key_unique numbered.keys distinct found' found same
  simp [between, first, entity]

theorem between_file {file : FileId} (known : file ∈ run.files.known) :
    (between run run').file (run.files.numberOf file) = run'.files.numberOf file := by
  obtain ⟨i, entry, number⟩ := FileTable.numberOf_known known
  simp [between, number, entry]

/-- An attribute written by the numbers of one run becomes that of the other. -/
theorem between_resolve (numbered : run.registry.Numbered) {a : DraftAttribute}
    (covered : run.CoversAll a) :
    (run.resolve a).renumber (between run run') = run'.resolve a := by
  have carried : ∀ m ∈ a.nodes, (between run run').node (run.registry.numberOf m.entity) =
      run'.registry.numberOf m.entity := by
    intro m member
    obtain ⟨node, found, _⟩ := covered.nodes m member
    rw [Registry.numberOf_eq found]
    exact between_node numbered found
  cases a with
  | type m quals => simp [Attribute.renumber, Run.resolve, carried m (by simp [Attribute.nodes])]
  | context m => simp [Attribute.renumber, Run.resolve, carried m (by simp [Attribute.nodes])]
  | location file line =>
    have known : file ∈ run.files.known := covered.files file (by simp [Attribute.files])
    simp [Attribute.renumber, Run.resolve, between_file known]
  | members ms =>
    simp only [Attribute.renumber, Run.resolve, Attribute.members.injEq]
    apply Ascending.ofList_congr
    intro number
    simp only [List.mem_map, Ascending.mem_ofList]
    constructor
    · rintro ⟨_, ⟨m, member, rfl⟩, rfl⟩
      exact ⟨m, member, (carried m member).symm⟩
    · rintro ⟨m, member, rfl⟩
      exact ⟨_, ⟨m, member, rfl⟩, carried m member⟩
  | _ => rfl

end Renumbering

end AstXml
