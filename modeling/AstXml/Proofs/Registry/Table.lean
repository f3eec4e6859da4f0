import Mathlib.Data.List.Nodup
import AstXml.Registry.Node

/-!
Node tables as finite maps. The keys of a table stand in the order of registration, and as long as
they are distinct a look-up finds exactly the entries.
-/
namespace AstXml.NodeTable

variable {κ : Type}

def keys (table : NodeTable κ) : List κ := table.entries.map (·.1)

def numbers (table : NodeTable κ) : List Nat := table.entries.map (·.2.number)

theorem stubs_nodup {table : NodeTable κ} (distinct : table.keys.Nodup) : table.stubs.Nodup :=
  (List.filter_sublist.map _).nodup distinct

variable [DecidableEq κ] {table : NodeTable κ} {key : κ} {node : Node}

theorem mem_entries_of_get? (found : table.get? key = some node) : (key, node) ∈ table.entries := by
  obtain ⟨entry, first, rfl⟩ := Option.map_eq_some_iff.mp found
  have same : entry.1 = key := by simpa using List.find?_some first
  exact same ▸ List.mem_of_find?_eq_some first

theorem number_mem (found : table.get? key = some node) : node.number ∈ table.numbers :=
  List.mem_map_of_mem (mem_entries_of_get? found)

theorem get?_eq_none_iff : table.get? key = none ↔ key ∉ table.keys := by
  simp only [get?, keys, Option.map_eq_none_iff, List.find?_eq_none, decide_eq_true_eq,
    List.mem_map, not_exists, not_and]

theorem mem_keys_iff : key ∈ table.keys ↔ ∃ node, table.get? key = some node := by
  rw [← Option.ne_none_iff_exists', ne_eq, get?_eq_none_iff, not_not]

theorem get?_eq_some_iff (distinct : table.keys.Nodup) :
    table.get? key = some node ↔ (key, node) ∈ table.entries := by
  refine ⟨mem_entries_of_get?, fun member => ?_⟩
  have known : key ∈ table.keys := List.mem_map.mpr ⟨_, member, rfl⟩
  obtain ⟨other, found⟩ := mem_keys_iff.mp known
  have same := List.inj_on_of_nodup_map distinct (mem_entries_of_get? found) member rfl
  cases same
  exact found

theorem keys_modify (change : Node → Node) : (table.modify key change).keys = table.keys := by
  simp only [keys, modify, List.map_map]
  refine List.map_congr_left fun entry _ => ?_
  simp only [Function.comp_apply]
  split <;> simp [*]

theorem numbers_modify {change : Node → Node} (same : ∀ node, (change node).number = node.number) :
    (table.modify key change).numbers = table.numbers := by
  simp only [numbers, modify, List.map_map]
  refine List.map_congr_left fun entry _ => ?_
  simp only [Function.comp_apply]
  split <;> simp [same]

theorem mem_stubs (distinct : table.keys.Nodup) :
    key ∈ table.stubs ↔ ∃ node, table.get? key = some node ∧ node.complete = false := by
  simp only [stubs, List.mem_map, List.mem_filter, Bool.not_eq_true', get?_eq_some_iff distinct]
  constructor
  · rintro ⟨⟨_, node⟩, ⟨member, stub⟩, rfl⟩
    exact ⟨node, member, stub⟩
  · rintro ⟨node, member, stub⟩
    exact ⟨(key, node), ⟨member, stub⟩, rfl⟩

theorem key_unique (distinct : table.keys.Nodup) (numbered : table.numbers.Nodup) {other : κ}
    {node' : Node} (found : table.get? key = some node) (found' : table.get? other = some node')
    (same : node.number = node'.number) : key = other := by
  have entries := List.inj_on_of_nodup_map numbered ((get?_eq_some_iff distinct).mp found)
    ((get?_eq_some_iff distinct).mp found') same
  exact congrArg Prod.fst entries

theorem mem_numbers_iff (distinct : table.keys.Nodup) {number : Nat} :
    number ∈ table.numbers ↔ ∃ key node, table.get? key = some node ∧ node.number = number := by
  simp only [numbers, List.mem_map, get?_eq_some_iff distinct, Prod.exists]

/-- What a registration does: nothing to a node that is as complete as asked, an upgrade to a stub
that is wanted complete, and a new node otherwise. -/
theorem register_cases (table : NodeTable κ) (key : κ) (complete : Bool) (numbering : Numbering)
    (phase : Phase) :
    (∃ node, table.get? key = some node ∧ (complete = true → node.complete = true) ∧
      table.register key complete numbering phase = (⟨node.number, false⟩, table, numbering)) ∨
    (∃ node, table.get? key = some node ∧ complete = true ∧ node.complete = false ∧
      table.register key complete numbering phase =
        (⟨node.number, true⟩, table.modify key ({ · with complete := true }), numbering)) ∨
    (table.get? key = none ∧
      table.register key complete numbering phase =
        (⟨numbering.count + 1, complete || phase = .acceptIncomplete⟩,
          ⟨table.entries ++ [(key, ⟨numbering.count + 1, complete, false⟩)]⟩,
          ⟨numbering.count + 1⟩)) := by
  unfold register
  cases found : table.get? key with
  | none => exact .inr (.inr ⟨rfl, rfl⟩)
  | some node =>
    cases wanted : complete && !node.complete with
    | true =>
      simp only [Bool.and_eq_true, Bool.not_eq_true'] at wanted
      exact .inr (.inl ⟨node, rfl, wanted.1, wanted.2, by simp [wanted]⟩)
    | false =>
      refine .inl ⟨node, rfl, ?_, by simp [wanted]⟩
      cases complete <;> cases done : node.complete <;> simp_all

end AstXml.NodeTable
