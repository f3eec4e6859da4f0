import Mathlib.Data.List.Induction
import Mathlib.Data.Set.Function
import Mathlib.Order.Interval.Set.Defs
import AstXml.Proofs.Numbering
import AstXml.Proofs.Registry.Replay

/-!
A registry against its history. After any sequence of operations, in any order, what the registry
knows can be read off the operations: who is numbered and how, who is wanted complete, which
qualified forms have been asked for, and what a registration puts in the queue.
-/
namespace AstXml.Registry

/-- The entity that an operation registers. -/
def Operation.entity? : Operation → Option Entity
  | .register e _ => some e
  | _ => none

/-- The entities that a history registers, in the order of their first registrations. -/
def registered (operations : List Operation) : List Entity :=
  (operations.filterMap Operation.entity?).eraseDups

/-- Whether a registration after `before` queues its entity. A new one is queued if it is wanted
complete or stubs are accepted, a known one if it is wanted complete for the first time. -/
def queues (before : List Operation) (e : Entity) (complete : Bool) : Bool :=
  if e ∈ registered before then complete && .register e true ∉ before
  else complete || .acceptIncomplete ∈ before

theorem mem_registered {operations : List Operation} {e : Entity} :
    e ∈ registered operations ↔ ∃ complete, .register e complete ∈ operations := by
  simp only [registered, List.mem_eraseDups, List.mem_filterMap]
  constructor
  · rintro ⟨operation, member, same⟩
    cases operation with
    | register _ complete =>
      cases same
      exact ⟨complete, member⟩
    | _ => cases same
  · rintro ⟨complete, member⟩
    exact ⟨_, member, rfl⟩

/-- `known`, and `e` at the end unless it is there already. -/
def addNew (known : List Entity) (e : Entity) : List Entity :=
  if e ∈ known then known else known ++ [e]

theorem eraseDups_concat {α : Type} [DecidableEq α] (xs : List α) (x : α) :
    (xs ++ [x]).eraseDups = if x ∈ xs.eraseDups then xs.eraseDups else xs.eraseDups ++ [x] := by
  simp only [List.eraseDups_append, List.removeAll, List.filter_cons, List.filter_nil,
    List.mem_eraseDups, List.elem_eq_mem]
  by_cases known : x ∈ xs
  · simp [known]
  · simp only [known, decide_false, Bool.not_false, if_true, if_false]
    rfl

theorem eraseDups_map {α β : Type} [DecidableEq α] [DecidableEq β] {f : α → β}
    (injective : Function.Injective f) (xs : List α) :
    (xs.map f).eraseDups = xs.eraseDups.map f := by
  induction xs using List.reverseRecOn with
  | nil => rfl
  | append_singleton xs x ih =>
    rw [List.map_append, List.map_singleton, eraseDups_concat, eraseDups_concat, ih]
    simp only [List.mem_map_of_injective injective]
    split <;> simp

theorem registered_concat (operations : List Operation) (operation : Operation) :
    registered (operations ++ [operation]) =
      operation.entity?.toList.foldl addNew (registered operations) := by
  cases found : operation.entity? with
  | none => simp [registered, found]
  | some e => simp [registered, found, eraseDups_concat, addNew]

theorem after_concat (r : Registry) (operations : List Operation) (operation : Operation) :
    r.after (operations ++ [operation]) = ((r.after operations).perform operation).2 := by
  simp [after]

/-- `r'` differs from `r` at most in its queue and in the elements that have been claimed. -/
structure SameBooks (r r' : Registry) : Prop where
  keys : r'.nodes.keys = r.nodes.keys
  numbers : r'.nodes.numbers = r.nodes.numbers
  count : r'.count = r.count
  qualified : r'.qualified = r.qualified
  phase : r'.phase = r.phase

/-- What a claim does: nothing to an item that is not waiting for one, else it marks the node. -/
theorem beginOutput_cases (r : Registry) (item : WorkItem) :
    ((∀ e, item = .entity e → ¬ r.Waiting e) ∧ r.beginOutput item = (none, r)) ∨
    ∃ e node, item = .entity e ∧ r.nodes.get? e = some node ∧ node.emitted = false ∧
      r.beginOutput item = (some { node with emitted := true }, r.claim e) := by
  cases item with
  | qualified b q => exact .inl ⟨nofun, rfl⟩
  | entity e =>
    cases found : r.nodes.get? e with
    | none => exact .inl ⟨by rintro _ ⟨⟩; simp [Waiting, found], by simp [beginOutput, found]⟩
    | some node =>
      cases written : node.emitted with
      | true =>
        exact .inl ⟨by rintro _ ⟨⟩; simp [Waiting, found, written],
          by simp [beginOutput, found, written]⟩
      | false =>
        refine .inr ⟨e, node, rfl, found, written, ?_⟩
        simp only [beginOutput, found, written]
        rfl

theorem beginOutput_books (r : Registry) (item : WorkItem) :
    SameBooks r (r.beginOutput item).2 := by
  rcases r.beginOutput_cases item with ⟨_, same⟩ | ⟨e, node, _, _, _, same⟩ <;> rw [same]
  · exact ⟨rfl, rfl, rfl, rfl, rfl⟩
  · exact ⟨keys_claim r e, numbers_claim r e, rfl, rfl, rfl⟩

theorem next_books (r : Registry) : SameBooks r (r.perform .next).2 := by
  simp only [perform]
  split
  · exact ⟨rfl, rfl, rfl, rfl, rfl⟩
  · rename_i front
    obtain ⟨queue, _, rfl⟩ := next?_eq_some front
    exact ⟨rfl, rfl, rfl, rfl, rfl⟩

theorem step_books (r : Registry) : SameBooks r (r.perform .step).2 := by
  simp only [perform]
  split
  · exact ⟨rfl, rfl, rfl, rfl, rfl⟩
  · rename_i item _ front
    obtain ⟨queue, _, rfl⟩ := next?_eq_some front
    obtain ⟨keys, numbers, count, qualified, phase⟩ := beginOutput_books { r with queue } item
    exact ⟨keys, numbers, count, qualified, phase⟩

theorem addNew_keys (r : Registry) (e : Entity) (complete : Bool) :
    (r.register e complete).2.nodes.keys = addNew r.nodes.keys e := by
  rcases r.register_cases e complete with
    ⟨node, found, _, same⟩ | ⟨node, found, _, _, same⟩ | ⟨fresh, same⟩ <;> rw [same]
  · exact (if_pos (NodeTable.mem_keys_iff.mpr ⟨node, found⟩)).symm
  · exact (keys_upgrade r e).trans (if_pos (NodeTable.mem_keys_iff.mpr ⟨node, found⟩)).symm
  · exact (keys_extend r e complete).trans (if_neg (NodeTable.get?_eq_none_iff.mp fresh)).symm

theorem keys_perform (r : Registry) (operation : Operation) :
    (r.perform operation).2.nodes.keys = operation.entity?.toList.foldl addNew r.nodes.keys := by
  cases operation with
  | register e complete => exact addNew_keys r e complete
  | registerQualified b q => exact congrArg NodeTable.keys (nodes_registerQualified r b q)
  | acceptIncomplete => rfl
  | next => exact r.next_books.keys
  | begin item => exact (r.beginOutput_books item).keys
  | step => exact r.step_books.keys

theorem keys_after (operations : List Operation) :
    (empty.after operations).nodes.keys = registered operations := by
  induction operations using List.reverseRecOn with
  | nil => rfl
  | append_singleton operations operation ih =>
    rw [after_concat, keys_perform, ih, registered_concat]

theorem SameBooks.numbered {r r' : Registry} (same : SameBooks r r') (h : r.Numbered) :
    r'.Numbered where
  keys := same.keys ▸ h.keys
  numbers := by rw [same.numbers, same.count, h.numbers]

theorem count_registerQualified (r : Registry) (b : Nat) (q : Qualifiers) :
    (r.registerQualified b q).2.count = r.count := by
  unfold registerQualified
  split <;> rfl

theorem count_le_register (r : Registry) (e : Entity) (complete : Bool) :
    r.count ≤ (r.register e complete).2.count := by
  rcases r.register_cases e complete with
    ⟨_, _, _, same⟩ | ⟨_, _, _, _, same⟩ | ⟨_, same⟩
  · rw [same]
  · exact same ▸ Nat.le_refl r.count
  · exact same ▸ Nat.le_succ r.count

theorem register_numbered {r : Registry} (h : r.Numbered) (e : Entity) (complete : Bool) :
    (r.register e complete).2.Numbered := by
  rcases r.register_cases e complete with
    ⟨_, _, _, same⟩ | ⟨_, _, _, _, same⟩ | ⟨fresh, same⟩ <;> rw [same]
  · exact h
  · exact upgrade_numbered h e
  · exact extend_numbered h fresh complete

theorem perform_numbered {r : Registry} (h : r.Numbered) (operation : Operation) :
    (r.perform operation).2.Numbered := by
  cases operation with
  | register e complete => exact register_numbered h e complete
  | registerQualified b q =>
    have nodes : (r.perform (.registerQualified b q)).2.nodes = r.nodes :=
      nodes_registerQualified r b q
    have count : (r.perform (.registerQualified b q)).2.count = r.count :=
      count_registerQualified r b q
    exact ⟨nodes ▸ h.keys, by rw [nodes, count, h.numbers]⟩
  | acceptIncomplete => exact ⟨h.keys, h.numbers⟩
  | next => exact r.next_books.numbered h
  | begin item => exact (r.beginOutput_books item).numbered h
  | step => exact r.step_books.numbered h

theorem after_numbered (operations : List Operation) : (empty.after operations).Numbered := by
  induction operations using List.reverseRecOn with
  | nil => exact ⟨.nil, rfl⟩
  | append_singleton operations operation ih =>
    rw [after_concat]
    exact perform_numbered ih operation

theorem count_le_perform (r : Registry) (operation : Operation) :
    r.count ≤ (r.perform operation).2.count := by
  cases operation with
  | register e complete => exact r.count_le_register e complete
  | registerQualified b q => exact (count_registerQualified r b q).ge
  | acceptIncomplete => exact Nat.le_refl _
  | next => exact r.next_books.count.ge
  | begin item => exact (r.beginOutput_books item).count.ge
  | step => exact r.step_books.count.ge

theorem count_le_after (r : Registry) (operations : List Operation) :
    r.count ≤ (r.after operations).count := by
  induction operations generalizing r with
  | nil => exact Nat.le_refl _
  | cons operation rest ih => exact (r.count_le_perform operation).trans (ih _)

/-- There is room for an operation if the counter stays within the limit. -/
theorem hasRoom_iff {limit : Nat} {r : Registry} (within : r.count ≤ limit)
    (operation : Operation) :
    r.hasRoom limit operation = true ↔ (r.perform operation).2.count ≤ limit := by
  cases operation with
  | register e complete =>
    change _ ↔ (r.register e complete).2.count ≤ limit
    simp only [hasRoom, Numbering.hasNext, Bool.or_eq_true, decide_eq_true_eq]
    rcases r.register_cases e complete with
      ⟨node, found, _, same⟩ | ⟨node, found, _, _, same⟩ | ⟨fresh, same⟩ <;> rw [same]
    · exact iff_of_true (by simp [found]) within
    · exact iff_of_true (by simp [found]) within
    · have counted : (r.extend e complete).count = r.numbering.count + 1 := rfl
      simp only [fresh, counted, Option.isSome_none, Bool.false_eq_true, false_or,
        Nat.succ_le_iff]
  | registerQualified b q =>
    exact iff_of_true rfl ((count_registerQualified r b q).trans_le within)
  | acceptIncomplete => exact iff_of_true rfl within
  | next => exact iff_of_true rfl (r.next_books.count.trans_le within)
  | begin item => exact iff_of_true rfl ((r.beginOutput_books item).count.trans_le within)
  | step => exact iff_of_true rfl (r.step_books.count.trans_le within)

theorem phase_perform (r : Registry) (operation : Operation) :
    (r.perform operation).2.phase = .acceptIncomplete ↔
      r.phase = .acceptIncomplete ∨ operation = .acceptIncomplete := by
  cases operation with
  | register e complete =>
    simp only [perform, reduceCtorEq, or_false]
    rfl
  | registerQualified b q =>
    simp only [perform, phase_registerQualified, reduceCtorEq, or_false]
  | acceptIncomplete => simp [perform, acceptIncomplete]
  | next => simp only [r.next_books.phase, reduceCtorEq, or_false]
  | begin item => simp only [perform, (r.beginOutput_books item).phase, reduceCtorEq, or_false]
  | step => simp only [r.step_books.phase, reduceCtorEq, or_false]

theorem qualified_perform (r : Registry) (b : Nat) (q : Qualifiers) (operation : Operation) :
    (b, q) ∈ (r.perform operation).2.qualified ↔
      (b, q) ∈ r.qualified ∨ operation = .registerQualified b q := by
  cases operation with
  | register e complete =>
    simp only [perform, reduceCtorEq, or_false]
    rfl
  | registerQualified b' q' =>
    simp only [perform, mem_registerQualified, Operation.registerQualified.injEq,
      eq_comm (a := b), eq_comm (a := q)]
  | acceptIncomplete =>
    simp only [perform, reduceCtorEq, or_false]
    rfl
  | next => simp only [r.next_books.qualified, reduceCtorEq, or_false]
  | begin item => simp only [perform, (r.beginOutput_books item).qualified, reduceCtorEq, or_false]
  | step => simp only [r.step_books.qualified, reduceCtorEq, or_false]

theorem phase_after (operations : List Operation) :
    (empty.after operations).phase = .acceptIncomplete ↔ .acceptIncomplete ∈ operations :=
  (after_iff (P := (·.phase = .acceptIncomplete)) phase_perform ..).trans (or_iff_right nofun)

theorem qualified_after (operations : List Operation) (b : Nat) (q : Qualifiers) :
    (b, q) ∈ (empty.after operations).qualified ↔ .registerQualified b q ∈ operations :=
  (after_iff (P := ((b, q) ∈ ·.qualified)) (·.qualified_perform b q) ..).trans (or_iff_right nofun)

theorem complete_after {operations : List Operation} {e : Entity} {node : Node}
    (found : (empty.after operations).nodes.get? e = some node) :
    node.complete = true ↔ .register e true ∈ operations := by
  have wants : (empty.after operations).Wants e ↔ .register e true ∈ operations :=
    (wants_after empty operations e).trans (or_iff_right (by simp [Wants]))
  rw [← wants, Wants, found]
  simp

theorem known_after (operations : List Operation) (e : Entity) :
    (∃ node, (empty.after operations).nodes.get? e = some node) ↔ e ∈ registered operations := by
  rw [← NodeTable.mem_keys_iff, keys_after]

/-- The numbers of the entities are those from 1 to the count, each of them once. -/
theorem Numbered.bijOn {r : Registry} (h : r.Numbered) :
    Set.BijOn r.numberOf {e | e ∈ r.nodes.keys} (Set.Icc 1 r.count) := by
  have mem_numbers (n : Nat) : n ∈ Set.Icc 1 r.count ↔ n ∈ r.nodes.numbers := by
    rw [h.numbers, List.mem_range'_1, Set.mem_Icc]
    omega
  refine ⟨?maps, ?injective, ?surjective⟩
  case maps =>
    intro e member
    obtain ⟨node, found⟩ := NodeTable.mem_keys_iff.mp member
    rw [mem_numbers, numberOf_eq found, NodeTable.mem_numbers_iff h.keys]
    exact ⟨e, node, found, rfl⟩
  case injective =>
    intro e member e' member' same
    obtain ⟨node, found⟩ := NodeTable.mem_keys_iff.mp member
    obtain ⟨node', found'⟩ := NodeTable.mem_keys_iff.mp member'
    rw [numberOf_eq found, numberOf_eq found'] at same
    exact NodeTable.key_unique h.keys (h.numbers ▸ List.nodup_range') found found' same
  case surjective =>
    intro n within
    rw [mem_numbers, NodeTable.mem_numbers_iff h.keys] at within
    obtain ⟨e, node, found, number⟩ := within
    exact ⟨e, NodeTable.mem_keys_iff.mpr ⟨node, found⟩, (numberOf_eq found).trans number⟩

theorem Numbered.number_eq {r : Registry} (h : r.Numbered) {e : Entity} {node : Node}
    (found : r.nodes.get? e = some node) : node.number = r.nodes.keys.idxOf e + 1 := by
  -- keys and numbers are columns of one table, so both are read at the position of the key
  have position := List.getElem?_idxOf (NodeTable.mem_keys_iff.mpr ⟨node, found⟩)
  generalize r.nodes.keys.idxOf e = i at position ⊢
  rw [NodeTable.keys, List.getElem?_map, Option.map_eq_some_iff] at position
  obtain ⟨⟨_, node'⟩, entry, rfl⟩ := position
  have found' := (NodeTable.get?_eq_some_iff h.keys).mpr (List.mem_of_getElem? entry)
  cases found.symm.trans found'
  have number : r.nodes.numbers[i]? = some node.number := by
    rw [NodeTable.numbers, List.getElem?_map, entry]
    rfl
  rw [h.numbers, List.getElem?_eq_some_iff] at number
  obtain ⟨_, same⟩ := number
  rw [← same, List.getElem_range', Nat.one_mul, Nat.add_comm]

theorem number_after {operations : List Operation} {e : Entity} {node : Node}
    (found : (empty.after operations).nodes.get? e = some node) :
    node.number = (registered operations).idxOf e + 1 := by
  rw [(after_numbered operations).number_eq found, keys_after]

theorem idxOf_registered {before : List Operation} {e : Entity} (known : e ∈ registered before)
    (rest : List Operation) :
    (registered (before ++ rest)).idxOf e = (registered before).idxOf e := by
  unfold registered at known ⊢
  rw [List.filterMap_append, List.eraseDups_append, List.idxOf_append_of_mem known]

/-- Whether registering `e` would queue it. -/
def queuesNow (r : Registry) (e : Entity) (complete : Bool) : Bool :=
  match r.nodes.get? e with
  | some node => complete && !node.complete
  | none => complete || r.phase = .acceptIncomplete

theorem items_register (r : Registry) (e : Entity) (complete : Bool) :
    (r.register e complete).2.queue.items =
      r.queue.items ++ if r.queuesNow e complete then [.entity e] else [] := by
  rcases r.register_cases e complete with
    ⟨node, found, done, same⟩ | ⟨node, found, rfl, stub, same⟩ | ⟨fresh, same⟩
  · simp only [same, queuesNow, found]
    cases complete <;> simp_all
  · simp [same, queuesNow, found, stub, upgrade, WorkQueue.items_push]
  · simp only [same, queuesNow, fresh, extend, WorkQueue.items_pushIf]

theorem queuesNow_after (before : List Operation) (e : Entity) (complete : Bool) :
    (empty.after before).queuesNow e complete = queues before e complete := by
  have known := known_after before e
  unfold queuesNow
  cases found : (empty.after before).nodes.get? e with
  | none =>
    have fresh : e ∉ registered before := by simpa [found] using known
    simp only [queues, if_neg fresh, phase_after]
  | some node =>
    have registered_before : e ∈ registered before := known.mp ⟨node, found⟩
    simp only [queues, if_pos registered_before, ← complete_after found]
    cases node.complete <;> simp

theorem get?_register_of_ne (r : Registry) {e other : Entity} (differs : other ≠ e)
    (complete : Bool) : (r.register e complete).2.nodes.get? other = r.nodes.get? other := by
  rcases r.register_cases e complete with
    ⟨_, _, _, same⟩ | ⟨_, _, _, _, same⟩ | ⟨fresh, same⟩ <;> rw [same]
  · rw [get?_upgrade, if_neg differs]
  · rw [get?_extend fresh, if_neg differs]

/-- What registering `e` does after the history `before`; its number is the same in all of
`operations`. -/
structure Registers (operations before : List Operation) (e : Entity) (complete : Bool) : Prop where
  answer : ((empty.after before).register e complete).1 = (registered operations).idxOf e + 1
  others : ∀ other ≠ e, ((empty.after before).register e complete).2.nodes.get? other =
    (empty.after before).nodes.get? other
  pushed : ((empty.after before).register e complete).2.queue.items =
    (empty.after before).queue.items ++ if queues before e complete then [.entity e] else []

/-- What asking for the qualified form of a node does after the history `before`. -/
structure Qualifies (before : List Operation) (b : Nat) (q : Qualifiers) : Prop where
  answer : ((empty.after before).registerQualified b q).1 = true ↔
    .registerQualified b q ∉ before
  nodes : ((empty.after before).registerQualified b q).2.nodes = (empty.after before).nodes
  count : ((empty.after before).registerQualified b q).2.count = (empty.after before).count
  pushed : ((empty.after before).registerQualified b q).2.queue.items =
    (empty.after before).queue.items ++
      if .registerQualified b q ∈ before then [] else [.qualified b q]

/-- The books of a registry agree with its history. -/
structure Bookkept (operations : List Operation) : Prop where
  phase : (empty.after operations).phase = .acceptIncomplete ↔ .acceptIncomplete ∈ operations
  known : ∀ e, (∃ node, (empty.after operations).nodes.get? e = some node) ↔
    e ∈ registered operations
  bijective : Set.BijOn (empty.after operations).numberOf {e | e ∈ registered operations}
    (Set.Icc 1 (empty.after operations).count)
  ordered : ∀ e node, (empty.after operations).nodes.get? e = some node →
    node.number = (registered operations).idxOf e + 1
  complete : ∀ e node, (empty.after operations).nodes.get? e = some node →
    (node.complete = true ↔ .register e true ∈ operations)
  registers : ∀ before e complete rest, operations = before ++ .register e complete :: rest →
    Registers operations before e complete
  qualifies : ∀ before b q rest, operations = before ++ .registerQualified b q :: rest →
    Qualifies before b q

theorem after_register (before : List Operation) (e : Entity) (complete : Bool) :
    empty.after (before ++ [.register e complete]) =
      ((empty.after before).register e complete).2 :=
  after_concat ..

theorem registers_after (before : List Operation) (e : Entity) (complete : Bool)
    (rest : List Operation) :
    Registers (before ++ .register e complete :: rest) before e complete where
  answer := by
    obtain ⟨node, found, number, _⟩ := (empty.after before).get?_register e complete
    rw [← after_register] at found
    have known := (known_after _ e).mp ⟨node, found⟩
    rw [List.append_cons, idxOf_registered known, ← number, number_after found]
  others := fun _ differs => get?_register_of_ne _ differs complete
  pushed := by rw [items_register, queuesNow_after]

theorem qualifies_after (before : List Operation) (b : Nat) (q : Qualifiers) :
    Qualifies before b q := by
  have asked := qualified_after before b q
  constructor
  case answer =>
    rw [← asked, registerQualified]
    by_cases known : (b, q) ∈ (empty.after before).qualified <;> simp [known]
  case nodes => exact nodes_registerQualified ..
  case count => exact count_registerQualified ..
  case pushed =>
    simp only [← asked, registerQualified]
    by_cases known : (b, q) ∈ (empty.after before).qualified <;>
      simp [known, WorkQueue.items_push]

/-- After any sequence of operations the books agree with it. -/
theorem history_bookkept (operations : List Operation) : Bookkept operations where
  phase := phase_after operations
  known := known_after operations
  bijective := keys_after operations ▸ (after_numbered operations).bijOn
  ordered := fun _ _ => number_after
  complete := fun _ _ => complete_after
  registers := by
    rintro before e complete rest rfl
    exact registers_after before e complete rest
  qualifies := fun before b q _ _ => qualifies_after before b q

end AstXml.Registry
