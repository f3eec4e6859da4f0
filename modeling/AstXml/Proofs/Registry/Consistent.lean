import AstXml.Registry.Basic
import AstXml.Proofs.Registry.Table

/-!
How a registry and the items taken from it so far hang together during a dump. Each entity is
queued at most once: when it is first wanted complete, or else once stubs are accepted.
-/
namespace AstXml

theorem WorkQueue.items_pushIf (queue : WorkQueue) (condition : Bool) (item : WorkItem) :
    (queue.pushIf condition item).items = queue.items ++ if condition then [item] else [] := by
  cases condition
  · exact (List.append_nil _).symm
  · rfl

theorem WorkQueue.foldl_push {α : Type} (item : α → WorkItem) (xs : List α) (queue : WorkQueue) :
    xs.foldl (fun queue x => queue.push (item x)) queue = ⟨queue.items ++ xs.map item⟩ := by
  induction xs generalizing queue with
  | nil => simp
  | cons x rest ih =>
    rw [List.foldl_cons, ih, items_push, List.append_assoc]
    rfl

namespace Registry

def upgrade (r : Registry) (e : Entity) : Registry :=
  { r with
    nodes := r.nodes.modify e ({ · with complete := true })
    queue := r.queue.push (.entity e) }

def extend (r : Registry) (e : Entity) (complete : Bool) : Registry :=
  { r with
    nodes := ⟨r.nodes.entries ++ [(e, ⟨r.count + 1, complete, false⟩)]⟩
    numbering := ⟨r.count + 1⟩
    queue := r.queue.pushIf (complete || r.phase = .acceptIncomplete) (.entity e) }

/-- All that a registration can do. -/
theorem register_cases (r : Registry) (e : Entity) (complete : Bool) :
    (∃ node, r.nodes.get? e = some node ∧ (complete = true → node.complete = true) ∧
      r.register e complete = (node.number, r)) ∨
    (∃ node, r.nodes.get? e = some node ∧ complete = true ∧ node.complete = false ∧
      r.register e complete = (node.number, r.upgrade e)) ∨
    (r.nodes.get? e = none ∧ r.register e complete = (r.count + 1, r.extend e complete)) := by
  unfold register
  rcases r.nodes.register_cases e complete r.numbering r.phase with
    ⟨node, found, done, h⟩ | ⟨node, found, wanted, stub, h⟩ | ⟨fresh, h⟩
  · exact .inl ⟨node, found, done, by rw [h]; rfl⟩
  · exact .inr (.inl ⟨node, found, wanted, stub, by rw [h]; rfl⟩)
  · exact .inr (.inr ⟨fresh, by rw [h]; rfl⟩)

/-- The element of `e` has been claimed. -/
def Emitted (r : Registry) (e : Entity) : Prop :=
  ∃ node, r.nodes.get? e = some node ∧ node.emitted = true

/-- The element of `e` is still to be claimed. -/
def Waiting (r : Registry) (e : Entity) : Prop :=
  ∃ node, r.nodes.get? e = some node ∧ node.emitted = false ∧
    (node.complete = true ∨ r.phase = .acceptIncomplete)

theorem get?_upgrade (r : Registry) (e other : Entity) :
    (r.upgrade e).nodes.get? other =
      if other = e then (r.nodes.get? e).map ({ · with complete := true })
      else r.nodes.get? other :=
  NodeTable.get?_modify ..

theorem get?_extend {r : Registry} {e : Entity} (fresh : r.nodes.get? e = none) (complete : Bool)
    (other : Entity) :
    (r.extend e complete).nodes.get? other =
      if other = e then some ⟨r.count + 1, complete, false⟩ else r.nodes.get? other :=
  NodeTable.get?_append _ _ _ _ fresh

theorem get?_of_register {r : Registry} {e other : Entity} {complete : Bool} {node : Node}
    (found : (r.register e complete).2.nodes.get? other = some node) :
    r.nodes.get? other = some node ∨ other = e ∧ (node.complete = true → complete = true) := by
  rcases r.register_cases e complete with
    ⟨_, _, _, same⟩ | ⟨_, _, wanted, _, same⟩ | ⟨fresh, same⟩ <;> rw [same] at found
  · exact .inl found
  · by_cases here : other = e
    · exact .inr ⟨here, fun _ => wanted⟩
    · rw [get?_upgrade, if_neg here] at found
      exact .inl found
  · rw [get?_extend fresh] at found
    split at found
    · rename_i here
      cases found
      exact .inr ⟨here, id⟩
    · exact .inl found

theorem emitted_upgrade {r : Registry} {e : Entity} (other : Entity) :
    (r.upgrade e).Emitted other ↔ r.Emitted other := by
  simp only [Emitted, get?_upgrade]
  split
  · rename_i same
    subst same
    cases r.nodes.get? other <;> simp
  · rfl

theorem waiting_upgrade {r : Registry} {e : Entity} {node : Node}
    (found : r.nodes.get? e = some node) (unwritten : node.emitted = false) (other : Entity) :
    (r.upgrade e).Waiting other ↔ r.Waiting other ∨ other = e := by
  simp only [Waiting, get?_upgrade]
  split
  · rename_i same
    simp [same, found, unwritten]
  · simp [*, upgrade]

theorem emitted_extend {r : Registry} {e : Entity} (fresh : r.nodes.get? e = none)
    (complete : Bool) (other : Entity) :
    (r.extend e complete).Emitted other ↔ r.Emitted other := by
  simp only [Emitted, get?_extend fresh]
  split
  · rename_i same
    simp [same, fresh]
  · rfl

theorem waiting_extend {r : Registry} {e : Entity} (fresh : r.nodes.get? e = none)
    (complete : Bool) (other : Entity) :
    (r.extend e complete).Waiting other ↔
      r.Waiting other ∨ (complete || r.phase = .acceptIncomplete) = true ∧ other = e := by
  simp only [Waiting, get?_extend fresh]
  split
  · rename_i same
    simp [same, fresh, extend]
  · simp [*, extend]

theorem keys_upgrade (r : Registry) (e : Entity) : (r.upgrade e).nodes.keys = r.nodes.keys :=
  NodeTable.keys_modify _

theorem numbers_upgrade (r : Registry) (e : Entity) :
    (r.upgrade e).nodes.numbers = r.nodes.numbers :=
  NodeTable.numbers_modify fun _ => rfl

theorem keys_extend (r : Registry) (e : Entity) (complete : Bool) :
    (r.extend e complete).nodes.keys = r.nodes.keys ++ [e] := by
  simp [extend, NodeTable.keys]

theorem numbers_extend (r : Registry) (e : Entity) (complete : Bool) :
    (r.extend e complete).nodes.numbers = r.nodes.numbers ++ [r.count + 1] := by
  simp [extend, NodeTable.numbers]

/-- Every entity has one node, and the numbers run from 1 in the order of registration. -/
structure Numbered (r : Registry) : Prop where
  keys : r.nodes.keys.Nodup
  numbers : r.nodes.numbers = List.range' 1 r.count

theorem Numbered.counted {r : Registry} (h : r.Numbered) {number : Nat}
    (numbered : number ∈ r.nodes.numbers) : 0 < number ∧ number ≤ r.count := by
  rw [h.numbers, List.mem_range'_1] at numbered
  omega

theorem Numbered.count_eq {r : Registry} (h : r.Numbered) : r.count = r.nodes.keys.length := by
  have lengths := congrArg List.length h.numbers
  simpa [NodeTable.keys, NodeTable.numbers] using lengths.symm

theorem upgrade_numbered {r : Registry} (h : r.Numbered) (e : Entity) : (r.upgrade e).Numbered where
  keys := (keys_upgrade r e).symm ▸ h.keys
  numbers := (numbers_upgrade r e).trans h.numbers

theorem extend_numbered {r : Registry} (h : r.Numbered) {e : Entity}
    (fresh : r.nodes.get? e = none) (complete : Bool) : (r.extend e complete).Numbered where
  keys := by
    rw [keys_extend, ← List.concat_eq_append]
    exact h.keys.concat (NodeTable.get?_eq_none_iff.mp fresh)
  numbers := by
    rw [numbers_extend, h.numbers, Nat.add_comm, ← List.range'_1_concat]
    rfl

/-- What holds between two elements of a dump, `taken` being the items taken so far. -/
structure Consistent (taken : List WorkItem) (r : Registry) : Prop extends r.Numbered where
  distinct : (taken ++ r.queue.items).Nodup
  taken_iff : ∀ e, .entity e ∈ taken ↔ r.Emitted e
  queued_iff : ∀ e, .entity e ∈ r.queue.items ↔ r.Waiting e
  qualified_iff : ∀ b q, .qualified b q ∈ taken ++ r.queue.items ↔ (b, q) ∈ r.qualified
  bases : ∀ b q, (b, q) ∈ r.qualified → b ∈ r.nodes.numbers ∧ q ≠ .none
  whole_first : r.phase = .requireComplete →
    ∀ e node, r.nodes.get? e = some node → node.emitted = true → node.complete = true
  stubs_last : r.phase = .acceptIncomplete →
    ∀ e node, r.nodes.get? e = some node → node.complete = true → node.emitted = true

@[simp] theorem get?_empty (e : Entity) : empty.nodes.get? e = none := rfl

theorem empty_consistent : empty.Consistent [] where
  keys := .nil
  numbers := rfl
  distinct := .nil
  taken_iff e := by simp [Emitted]
  queued_iff e := by
    simp only [Waiting, get?_empty]
    simp [empty, WorkQueue.empty]
  qualified_iff b q := by simp [empty, WorkQueue.empty]
  bases b q h := by simp [empty] at h
  whole_first _ e node h := by simp at h
  stubs_last h := by cases h

variable {r : Registry} {taken : List WorkItem}

theorem distinct_push (h : r.Consistent taken) {e : Entity} (unclaimed : ¬ r.Emitted e)
    (idle : ¬ r.Waiting e) : (taken ++ (r.queue.items ++ [WorkItem.entity e])).Nodup := by
  rw [← List.append_assoc, ← List.concat_eq_append]
  refine h.distinct.concat ?_
  rw [List.mem_append, h.taken_iff, h.queued_iff]
  exact not_or.mpr ⟨unclaimed, idle⟩

theorem upgrade_consistent (h : r.Consistent taken) {e : Entity} {node : Node}
    (early : r.phase = .requireComplete) (found : r.nodes.get? e = some node)
    (stub : node.complete = false) : (r.upgrade e).Consistent taken := by
  have unwritten : node.emitted = false := by
    cases written : node.emitted with
    | false => rfl
    | true => exact absurd (h.whole_first early e node found written) (by simp [stub])
  have unclaimed : ¬ r.Emitted e := by simp [Emitted, found, unwritten]
  have idle : ¬ r.Waiting e := by simp [Waiting, found, stub, early]
  constructor
  case toNumbered => exact upgrade_numbered h.toNumbered e
  case distinct => exact distinct_push h unclaimed idle
  case taken_iff => exact fun other => (h.taken_iff other).trans (emitted_upgrade other).symm
  case queued_iff =>
    intro other
    rw [waiting_upgrade found unwritten, ← h.queued_iff]
    simp [upgrade, WorkQueue.items_push]
  case qualified_iff =>
    intro b q
    rw [upgrade, ← h.qualified_iff]
    simp [WorkQueue.items_push]
  case bases =>
    intro b q member
    rw [numbers_upgrade]
    exact h.bases b q member
  case whole_first =>
    intro _ other node' found' written
    rw [get?_upgrade] at found'
    split at found'
    · rw [found] at found'
      cases found'
      rfl
    · exact h.whole_first early other node' found' written
  case stubs_last =>
    intro late
    cases early.symm.trans late

theorem extend_consistent (h : r.Consistent taken) {e : Entity} {complete : Bool}
    (asked : r.phase = .acceptIncomplete → complete = false) (fresh : r.nodes.get? e = none) :
    (r.extend e complete).Consistent taken := by
  have unclaimed : ¬ r.Emitted e := by simp [Emitted, fresh]
  have idle : ¬ r.Waiting e := by simp [Waiting, fresh]
  have items : (r.extend e complete).queue.items =
      r.queue.items ++ if complete || r.phase = .acceptIncomplete then [.entity e] else [] :=
    WorkQueue.items_pushIf ..
  constructor
  case toNumbered => exact extend_numbered h.toNumbered fresh complete
  case distinct =>
    rw [items]
    split
    · exact distinct_push h unclaimed idle
    · rw [List.append_nil]
      exact h.distinct
  case taken_iff =>
    exact fun other => (h.taken_iff other).trans (emitted_extend fresh complete other).symm
  case queued_iff =>
    intro other
    rw [waiting_extend fresh, ← h.queued_iff, items, List.mem_append]
    split <;> simp [*]
  case qualified_iff =>
    intro b q
    rw [items, show (r.extend e complete).qualified = r.qualified from rfl, ← h.qualified_iff]
    split <;> simp
  case bases =>
    intro b q member
    rw [numbers_extend]
    exact ⟨List.mem_append_left _ (h.bases b q member).1, (h.bases b q member).2⟩
  case whole_first =>
    intro early other node found written
    rw [get?_extend fresh] at found
    split at found
    · cases found
      cases written
    · exact h.whole_first early other node found written
  case stubs_last =>
    intro late other node found done
    rw [get?_extend fresh] at found
    split at found
    · cases found
      cases (asked late).symm.trans done
    · exact h.stubs_last late other node found done

theorem register_consistent (h : r.Consistent taken) (e : Entity) {complete : Bool}
    (asked : r.phase = .acceptIncomplete → complete = false) :
    (r.register e complete).2.Consistent taken := by
  rcases r.register_cases e complete with
    ⟨node, found, done, same⟩ | ⟨node, found, wanted, stub, same⟩ | ⟨fresh, same⟩ <;> rw [same]
  · exact h
  · refine upgrade_consistent h ?_ found stub
    cases phase : r.phase with
    | requireComplete => rfl
    | acceptIncomplete => exact absurd (asked phase) (by simp [wanted])
  · exact extend_consistent h asked fresh

@[simp] theorem mem_registerQualified (r : Registry) (b b' : Nat) (q q' : Qualifiers) :
    (b', q') ∈ (r.registerQualified b q).2.qualified ↔
      (b', q') ∈ r.qualified ∨ b' = b ∧ q' = q := by
  unfold registerQualified
  split
  · rename_i known
    refine ⟨.inl, fun member => member.elim id ?_⟩
    rintro ⟨rfl, rfl⟩
    exact known
  · simp

theorem nodes_registerQualified (r : Registry) (b : Nat) (q : Qualifiers) :
    (r.registerQualified b q).2.nodes = r.nodes := by
  unfold registerQualified
  split <;> rfl

@[simp] theorem phase_registerQualified (r : Registry) (b : Nat) (q : Qualifiers) :
    (r.registerQualified b q).2.phase = r.phase := by
  unfold registerQualified
  split <;> rfl

theorem registerQualified_consistent (h : r.Consistent taken) {b : Nat} {q : Qualifiers}
    (numbered : b ∈ r.nodes.numbers) (qualified : q ≠ .none) :
    (r.registerQualified b q).2.Consistent taken := by
  unfold registerQualified
  split
  · exact h
  · rename_i new
    rw [← h.qualified_iff] at new
    constructor
    case toNumbered => exact ⟨h.keys, h.numbers⟩
    case distinct =>
      simp only [WorkQueue.items_push]
      rw [← List.append_assoc, ← List.concat_eq_append]
      exact h.distinct.concat new
    case taken_iff => exact h.taken_iff
    case queued_iff =>
      intro e
      simp only [WorkQueue.items_push, List.mem_append, List.mem_singleton, reduceCtorEq, or_false]
      exact h.queued_iff e
    case qualified_iff =>
      intro b' q'
      simp only [WorkQueue.items_push, List.mem_append, List.mem_singleton, ← h.qualified_iff,
        WorkItem.qualified.injEq, Prod.mk.injEq, or_assoc]
    case bases =>
      intro b' q' member
      simp only [List.mem_append, List.mem_singleton, Prod.mk.injEq] at member
      rcases member with known | ⟨rfl, rfl⟩
      · exact h.bases b' q' known
      · exact ⟨numbered, qualified⟩
    case whole_first => exact h.whole_first
    case stubs_last => exact h.stubs_last

def claim (r : Registry) (e : Entity) : Registry :=
  { r with nodes := r.nodes.modify e ({ · with emitted := true }) }

theorem beginOutput_waiting {e : Entity} (waiting : r.Waiting e) :
    ∃ node, r.nodes.get? e = some node ∧ node.emitted = false ∧
      r.beginOutput (.entity e) = (some { node with emitted := true }, r.claim e) := by
  obtain ⟨node, found, unwritten, _⟩ := waiting
  refine ⟨node, found, unwritten, ?_⟩
  simp only [beginOutput, found, unwritten]
  rfl

theorem get?_claim (r : Registry) (e other : Entity) :
    (r.claim e).nodes.get? other =
      if other = e then (r.nodes.get? e).map ({ · with emitted := true })
      else r.nodes.get? other :=
  NodeTable.get?_modify ..

theorem get?_of_claim {e other : Entity} {node : Node}
    (found : (r.claim e).nodes.get? other = some node) :
    ∃ before, r.nodes.get? other = some before ∧ before.complete = node.complete := by
  rw [get?_claim] at found
  split at found
  · rename_i same
    obtain ⟨before, found', rfl⟩ := Option.map_eq_some_iff.mp found
    exact ⟨before, same ▸ found', rfl⟩
  · exact ⟨node, found, rfl⟩

theorem emitted_claim {e : Entity} {node : Node} (found : r.nodes.get? e = some node)
    (other : Entity) : (r.claim e).Emitted other ↔ r.Emitted other ∨ other = e := by
  simp only [Emitted, get?_claim]
  split
  · simp [*]
  · simp [*]

theorem waiting_claim (r : Registry) (e other : Entity) :
    (r.claim e).Waiting other ↔ r.Waiting other ∧ other ≠ e := by
  simp only [Waiting, get?_claim]
  split
  · rename_i same
    subst same
    cases r.nodes.get? other <;> simp
  · simp [*, claim]

theorem keys_claim (r : Registry) (e : Entity) : (r.claim e).nodes.keys = r.nodes.keys :=
  NodeTable.keys_modify _

theorem numbers_claim (r : Registry) (e : Entity) : (r.claim e).nodes.numbers = r.nodes.numbers :=
  NodeTable.numbers_modify fun _ => rfl

theorem next?_eq_some {item : WorkItem} {rest : Registry} (next : r.next? = some (item, rest)) :
    ∃ queue, r.queue.items = item :: queue.items ∧ rest = { r with queue } := by
  simp only [next?, Option.map_eq_some_iff, Prod.mk.injEq] at next
  obtain ⟨⟨item, queue⟩, popped, rfl, rfl⟩ := next
  exact ⟨queue, WorkQueue.pop?_eq_some_iff.mp popped, rfl⟩

theorem next?_eq_none : r.next? = none ↔ r.queue.items = [] := by
  simp only [next?, Option.map_eq_none_iff, WorkQueue.pop?]
  cases r.queue.items <;> simp

/-- An entity that waits has a node that is complete in the first phase and a stub in the second. -/
theorem complete_of_waiting (h : r.Consistent taken) {e : Entity} {node : Node}
    (waiting : r.Waiting e) (found : r.nodes.get? e = some node) :
    node.complete = true ↔ r.phase = .requireComplete := by
  obtain ⟨node', found', unwritten, wanted⟩ := waiting
  cases found.symm.trans found'
  constructor
  · intro done
    cases phase : r.phase with
    | requireComplete => rfl
    | acceptIncomplete => cases unwritten.symm.trans (h.stubs_last phase e node found done)
  · intro early
    rcases wanted with done | late
    · exact done
    · cases early.symm.trans late

theorem claim_consistent (h : r.Consistent taken) {e : Entity} {queue : WorkQueue}
    (items : r.queue.items = .entity e :: queue.items) :
    (claim { r with queue } e).Consistent (taken ++ [.entity e]) := by
  have waiting : r.Waiting e := (h.queued_iff e).mp (by simp [items])
  have ⟨node, found, _, _⟩ := waiting
  have moved : taken ++ r.queue.items = taken ++ [.entity e] ++ queue.items := by simp [items]
  have last : .entity e ∉ queue.items := by
    have distinct := items ▸ (List.nodup_append.mp h.distinct).2.1
    exact (List.nodup_cons.mp distinct).1
  constructor
  case toNumbered =>
    exact ⟨(keys_claim { r with queue } e).symm ▸ h.keys,
      (numbers_claim { r with queue } e).trans h.numbers⟩
  case distinct => exact moved ▸ h.distinct
  case taken_iff =>
    intro other
    rw [emitted_claim (r := { r with queue }) found, List.mem_append, List.mem_singleton,
      h.taken_iff, WorkItem.entity.injEq]
    rfl
  case queued_iff =>
    intro other
    rw [waiting_claim]
    have before := h.queued_iff other
    rw [items, List.mem_cons, WorkItem.entity.injEq] at before
    constructor
    · intro member
      refine ⟨before.mp (.inr member), ?_⟩
      rintro rfl
      exact last member
    · rintro ⟨still, differs⟩
      exact (before.mpr still).resolve_left differs
  case qualified_iff => exact fun b q => moved ▸ h.qualified_iff b q
  case bases =>
    intro b q member
    rw [numbers_claim]
    exact h.bases b q member
  case whole_first =>
    intro early other node' found' written
    rw [get?_claim] at found'
    split at found'
    · rw [found] at found'
      cases found'
      exact (complete_of_waiting h waiting found).mpr early
    · exact h.whole_first early other node' found' written
  case stubs_last =>
    intro late other node' found' done
    rw [get?_claim] at found'
    split at found'
    · rw [found] at found'
      cases found'
      rfl
    · exact h.stubs_last late other node' found' done

/-- The entity at the front of the queue gets its element. -/
theorem take_entity (h : r.Consistent taken) {e : Entity} {rest : Registry}
    (next : r.next? = some (.entity e, rest)) :
    ∃ node, r.nodes.get? e = some node ∧ node.emitted = false ∧
      (node.complete = true ↔ r.phase = .requireComplete) ∧
      rest.beginOutput (.entity e) = (some { node with emitted := true }, rest.claim e) ∧
      (rest.claim e).Consistent (taken ++ [.entity e]) := by
  obtain ⟨queue, items, rfl⟩ := next?_eq_some next
  have waiting : r.Waiting e := (h.queued_iff e).mp (by simp [items])
  obtain ⟨node, found, unwritten, begun⟩ := beginOutput_waiting (r := { r with queue }) waiting
  exact ⟨node, found, unwritten, complete_of_waiting h waiting found, begun,
    claim_consistent h items⟩

theorem take_qualified (h : r.Consistent taken) {b : Nat} {q : Qualifiers} {rest : Registry}
    (next : r.next? = some (.qualified b q, rest)) :
    rest.Consistent (taken ++ [.qualified b q]) := by
  obtain ⟨queue, items, rfl⟩ := next?_eq_some next
  have moved : taken ++ r.queue.items = taken ++ [.qualified b q] ++ queue.items := by simp [items]
  constructor
  case toNumbered => exact ⟨h.keys, h.numbers⟩
  case distinct => exact moved ▸ h.distinct
  case taken_iff =>
    intro e
    simp only [List.mem_append, List.mem_singleton, reduceCtorEq, or_false]
    exact h.taken_iff e
  case queued_iff =>
    intro e
    have before := h.queued_iff e
    simp only [items, List.mem_cons, reduceCtorEq, false_or] at before
    exact before
  case qualified_iff =>
    intro b' q'
    exact moved ▸ h.qualified_iff b' q'
  case bases => exact h.bases
  case whole_first => exact h.whole_first
  case stubs_last => exact h.stubs_last

theorem items_acceptIncomplete (r : Registry) :
    r.acceptIncomplete.2.queue.items = r.queue.items ++ r.nodes.stubs.map .entity :=
  congrArg WorkQueue.items (WorkQueue.foldl_push WorkItem.entity _ _)

/-- The phase changes when nothing waits any more; then exactly the stubs do. -/
theorem acceptIncomplete_consistent (h : r.Consistent taken) (drained : r.queue.items = [])
    (early : r.phase = .requireComplete) : r.acceptIncomplete.2.Consistent taken := by
  have items : r.acceptIncomplete.2.queue.items = r.nodes.stubs.map .entity := by
    rw [items_acceptIncomplete, drained, List.nil_append]
  have idle : ∀ e, ¬ r.Waiting e := by
    intro e
    rw [← h.queued_iff, drained]
    exact List.not_mem_nil
  have stub_iff : ∀ e, e ∈ r.nodes.stubs ↔ ∃ node, r.nodes.get? e = some node ∧
      node.emitted = false := by
    intro e
    rw [NodeTable.mem_stubs h.keys]
    refine exists_congr fun node => and_congr_right fun found => ?_
    constructor
    · intro stub
      cases written : node.emitted with
      | false => rfl
      | true => exact absurd (h.whole_first early e node found written) (by simp [stub])
    · intro unwritten
      cases done : node.complete with
      | false => rfl
      | true => exact absurd ⟨node, found, unwritten, .inl done⟩ (idle e)
  constructor
  case toNumbered => exact ⟨h.keys, h.numbers⟩
  case distinct =>
    rw [items, List.nodup_append]
    have taken_distinct := (List.nodup_append.mp h.distinct).1
    refine ⟨taken_distinct, (NodeTable.stubs_nodup h.keys).map fun _ _ => WorkItem.entity.inj, ?_⟩
    rintro item member other stub rfl
    obtain ⟨e, he, rfl⟩ := List.mem_map.mp stub
    obtain ⟨node, found, unwritten⟩ := (stub_iff e).mp he
    obtain ⟨node', found', written⟩ := (h.taken_iff e).mp member
    cases found.symm.trans found'
    cases unwritten.symm.trans written
  case taken_iff => exact h.taken_iff
  case queued_iff =>
    intro e
    simp only [items, List.mem_map, WorkItem.entity.injEq, exists_eq_right, stub_iff]
    simp [Waiting, acceptIncomplete]
  case qualified_iff =>
    intro b q
    rw [items]
    change _ ↔ (b, q) ∈ r.qualified
    simpa [drained] using h.qualified_iff b q
  case bases => exact h.bases
  case whole_first =>
    intro never
    cases never
  case stubs_last =>
    intro _ e node found done
    cases written : node.emitted with
    | true => rfl
    | false => exact absurd ⟨node, found, written, .inl done⟩ (idle e)

end Registry

end AstXml
