import AstXml.Proofs.Registry.History

/-!
Nothing is lost and nothing is claimed twice. Between two operations whatever still wants its
element is in the queue, provided that an item taken from the queue is claimed at once.
-/
namespace AstXml.Registry

/-- The item whose element an operation was granted, with the node answered. -/
def granted? : Operation → Answer → Option (WorkItem × Node)
  | .begin item, .node (some node) => some (item, node)
  | .step, .turn (some (item, some node)) => some (item, node)
  | _, _ => none

/-- All that a history was granted, in order. -/
def grants : Registry → List Operation → List (WorkItem × Node)
  | _, [] => []
  | r, operation :: rest =>
    let (answer, r) := r.perform operation
    (granted? operation answer).toList ++ grants r rest

theorem grants_concat (r : Registry) (operations : List Operation) (operation : Operation) :
    r.grants (operations ++ [operation]) = r.grants operations ++
      (granted? operation ((r.after operations).perform operation).1).toList := by
  induction operations generalizing r with
  | nil => simp [grants, after]
  | cons first rest ih => simp [grants, after, ih]

/-- `granted` are the elements claimed on the way to `r`, each of them once. -/
structure Granted (granted : List (WorkItem × Node)) (r : Registry) : Prop where
  once : (granted.map (·.1)).Nodup
  emitted_iff : ∀ e, .entity e ∈ granted.map (·.1) ↔ r.Emitted e
  numbered : ∀ item node, (item, node) ∈ granted → ∃ e node', item = .entity e ∧
    r.nodes.get? e = some node' ∧ node'.number = node.number

variable {granted : List (WorkItem × Node)} {r r' : Registry}

theorem Granted.keep (h : Granted granted r) (kept : r.Keeps r')
    (same : ∀ e, r'.Emitted e ↔ r.Emitted e) : Granted granted r' where
  once := h.once
  emitted_iff e := (h.emitted_iff e).trans (same e).symm
  numbered item node member := by
    obtain ⟨e, before, rfl, found, number⟩ := h.numbered item node member
    obtain ⟨node', found', number', _⟩ := kept e before found
    exact ⟨e, node', rfl, found', number'.trans number⟩

theorem Granted.claim (h : Granted granted r) {e : Entity} {node : Node}
    (found : r.nodes.get? e = some node) (unwritten : node.emitted = false) :
    Granted (granted ++ [(.entity e, { node with emitted := true })]) (r.claim e) where
  once := by
    rw [List.map_append, List.map_singleton, ← List.concat_eq_append]
    refine h.once.concat ?_
    rw [h.emitted_iff]
    simp [Emitted, found, unwritten]
  emitted_iff other := by
    rw [emitted_claim found, ← h.emitted_iff]
    simp
  numbered item node' member := by
    rcases List.mem_append.mp member with earlier | now
    · obtain ⟨e', before, rfl, found', number⟩ := h.numbered item node' earlier
      obtain ⟨after, found'', number', _⟩ := keeps_claim r e e' before found'
      exact ⟨e', after, rfl, found'', number'.trans number⟩
    · cases List.mem_singleton.mp now
      exact ⟨e, _, rfl, by rw [get?_claim, if_pos rfl, found]; rfl, rfl⟩

theorem Granted.begin (h : Granted granted r) (item : WorkItem) :
    Granted (granted ++ ((r.beginOutput item).1.map (item, ·)).toList) (r.beginOutput item).2 := by
  rcases r.beginOutput_cases item with ⟨_, same⟩ | ⟨e, node, rfl, found, unwritten, same⟩ <;>
    rw [same]
  · simpa using h
  · exact h.claim found unwritten

theorem emitted_register (r : Registry) (e other : Entity) (complete : Bool) :
    (r.register e complete).2.Emitted other ↔ r.Emitted other := by
  rcases r.register_cases e complete with
    ⟨_, _, _, same⟩ | ⟨_, _, _, _, same⟩ | ⟨fresh, same⟩ <;> rw [same]
  · exact emitted_upgrade other
  · exact emitted_extend fresh complete other

theorem granted_begin (item : WorkItem) (node : Option Node) :
    granted? (.begin item) (.node node) = node.map (item, ·) := by
  cases node <;> rfl

theorem granted_step (item : WorkItem) (node : Option Node) :
    granted? .step (.turn (some (item, node))) = node.map (item, ·) := by
  cases node <;> rfl

theorem Granted.nothing (h : Granted granted r) {answered : Option (WorkItem × Node)}
    (refused : answered = none) : Granted (granted ++ answered.toList) r := by
  simpa [refused] using h

theorem Granted.perform (h : Granted granted r) (operation : Operation) :
    Granted (granted ++ (granted? operation (r.perform operation).1).toList)
      (r.perform operation).2 := by
  cases operation with
  | register e complete =>
    refine (h.keep (keeps_register r e complete) fun other => ?_).nothing rfl
    exact emitted_register r e other complete
  | registerQualified b q =>
    refine (h.keep (keeps_registerQualified r b q) fun e => ?_).nothing rfl
    simp only [Emitted, nodes_registerQualified]
  | acceptIncomplete =>
    refine Granted.nothing ?_ rfl
    exact h.keep (fun _ node found => ⟨node, found, rfl, id⟩) fun _ => Iff.rfl
  | next =>
    refine Granted.nothing ?_ rfl
    simp only [Registry.perform]
    split
    · exact h
    · rename_i front
      obtain ⟨queue, _, rfl⟩ := next?_eq_some front
      exact h.keep (.refl r) fun _ => Iff.rfl
  | begin item =>
    simp only [Registry.perform, granted_begin]
    exact h.begin item
  | step =>
    simp only [Registry.perform]
    split
    · exact h.nothing rfl
    · rename_i item _ front
      obtain ⟨queue, _, rfl⟩ := next?_eq_some front
      simp only [granted_step]
      exact Granted.begin (r := { r with queue }) ⟨h.once, h.emitted_iff, h.numbered⟩ item

theorem granted_after (operations : List Operation) :
    Granted (empty.grants operations) (empty.after operations) := by
  induction operations using List.reverseRecOn with
  | nil => exact ⟨.nil, fun e => by simp [grants, after, Emitted], by simp [grants]⟩
  | append_singleton operations operation ih =>
    rw [grants_concat, after_concat]
    exact ih.perform operation

/-- What waits for its element is in the queue. -/
def Queued (r : Registry) : Prop := ∀ e, r.Waiting e → .entity e ∈ r.queue.items

theorem register_queued (h : r.Queued) (e : Entity) (complete : Bool) :
    (r.register e complete).2.Queued := by
  intro other waiting
  rcases r.register_cases e complete with
    ⟨_, _, _, same⟩ | ⟨node, found, _, _, same⟩ | ⟨fresh, same⟩ <;> rw [same] at waiting ⊢
  · exact h other waiting
  · simp only [upgrade, WorkQueue.items_push, List.mem_append, List.mem_singleton]
    by_cases here : other = e
    · exact .inr (congrArg _ here)
    · simp only [Waiting, get?_upgrade, if_neg here] at waiting
      exact .inl (h other waiting)
  · simp only [extend, WorkQueue.items_pushIf, List.mem_append]
    rcases (waiting_extend fresh complete other).mp waiting with before | ⟨pushed, rfl⟩
    · exact .inl (h other before)
    · simp [pushed]

theorem registerQualified_queued (h : r.Queued) (b : Nat) (q : Qualifiers) :
    (r.registerQualified b q).2.Queued := by
  intro e waiting
  simp only [Waiting, nodes_registerQualified, phase_registerQualified] at waiting
  have member := h e waiting
  unfold registerQualified
  split
  · exact member
  · exact List.mem_append_left _ member

theorem acceptIncomplete_queued (h : r.Queued) (distinct : r.nodes.keys.Nodup) :
    r.acceptIncomplete.2.Queued := by
  rintro e ⟨node, found, unwritten, -⟩
  rw [items_acceptIncomplete, List.mem_append]
  cases done : node.complete with
  | true => exact .inl (h e ⟨node, found, unwritten, .inl done⟩)
  | false =>
    exact .inr (List.mem_map_of_mem ((NodeTable.mem_stubs distinct).mpr ⟨node, found, done⟩))

/-- An entity does not wait any more once its element has been asked for. -/
theorem waiting_begin {item : WorkItem} {e : Entity} (waiting : (r.beginOutput item).2.Waiting e) :
    r.Waiting e ∧ .entity e ≠ item := by
  rcases r.beginOutput_cases item with ⟨idle, same⟩ | ⟨e', node, rfl, _, _, same⟩ <;>
    rw [same] at waiting
  · exact ⟨waiting, fun here => idle e here.symm waiting⟩
  · obtain ⟨before, differs⟩ := (waiting_claim r e' e).mp waiting
    exact ⟨before, fun here => differs (WorkItem.entity.inj here)⟩

theorem queue_begin (r : Registry) (item : WorkItem) : (r.beginOutput item).2.queue = r.queue := by
  rcases r.beginOutput_cases item with ⟨_, same⟩ | ⟨_, _, _, _, _, same⟩ <;> rw [same]
  rfl

theorem perform_queued (h : r.Queued) (distinct : r.nodes.keys.Nodup) {operation : Operation}
    (paired : operation ≠ .next) : (r.perform operation).2.Queued := by
  cases operation with
  | register e complete => exact register_queued h e complete
  | registerQualified b q => exact registerQualified_queued h b q
  | acceptIncomplete => exact acceptIncomplete_queued h distinct
  | next => exact absurd rfl paired
  | begin item =>
    intro e waiting
    rw [Registry.perform, queue_begin]
    exact h e (waiting_begin waiting).1
  | step =>
    simp only [Registry.perform]
    split
    · exact h
    · -- only the item taken leaves the queue, and it does not wait any more
      rename_i item _ front
      obtain ⟨queue, items, rfl⟩ := next?_eq_some front
      intro e waiting
      obtain ⟨before, differs⟩ := waiting_begin waiting
      have member : .entity e ∈ item :: queue.items := items ▸ h e before
      rw [queue_begin]
      exact (List.mem_cons.mp member).resolve_left differs

theorem queued_after {operations : List Operation} (paired : .next ∉ operations) :
    (empty.after operations).Queued := by
  induction operations using List.reverseRecOn with
  | nil =>
    rintro e ⟨node, found, -⟩
    cases found
  | append_singleton operations operation ih =>
    rw [List.mem_append, not_or, List.mem_singleton] at paired
    rw [after_concat]
    exact perform_queued (ih paired.1) (after_numbered operations).keys (Ne.symm paired.2)

/-- Once nothing waits and stubs are accepted, every number has been granted. -/
theorem Granted.numbers_perm (h : Granted granted r) (numbered : r.Numbered)
    (emitted : ∀ e node, r.nodes.get? e = some node → node.emitted = true) :
    (granted.map (·.2.number)).Perm (List.range' 1 r.count) := by
  have distinct : r.nodes.numbers.Nodup := numbered.numbers ▸ List.nodup_range'
  rw [← numbered.numbers]
  refine (List.perm_ext_iff_of_nodup ?_ distinct).mpr fun n => ?_
  · refine h.once.of_map.map_on ?_
    rintro ⟨item, node⟩ member ⟨item', node'⟩ member' same
    obtain ⟨e, here, rfl, found, number⟩ := h.numbered _ _ member
    obtain ⟨e', here', rfl, found', number'⟩ := h.numbered _ _ member'
    have entity := NodeTable.key_unique numbered.keys distinct found found'
      (number.trans (same.trans number'.symm))
    exact List.inj_on_of_nodup_map h.once member member' (congrArg WorkItem.entity entity)
  · rw [NodeTable.mem_numbers_iff numbered.keys]
    simp only [List.mem_map]
    constructor
    · rintro ⟨⟨item, node⟩, member, rfl⟩
      obtain ⟨e, node', _, found, number⟩ := h.numbered _ _ member
      exact ⟨e, node', found, number⟩
    · rintro ⟨e, node, found, rfl⟩
      have listed := (h.emitted_iff e).mpr ⟨node, found, emitted e node found⟩
      obtain ⟨⟨_, node'⟩, member, rfl⟩ := List.mem_map.mp listed
      obtain ⟨_, here, ⟨⟩, found', number⟩ := h.numbered _ _ member
      cases found.symm.trans found'
      exact ⟨_, member, number.symm⟩

theorem kept_after {operations : List Operation} (paired : .next ∉ operations) {e : Entity}
    {node : Node} (found : (empty.after operations).nodes.get? e = some node)
    (wanted : node.complete = true ∨ .acceptIncomplete ∈ operations) :
    node.emitted = true ∨ .entity e ∈ (empty.after operations).queue.items := by
  cases written : node.emitted with
  | true => exact .inl rfl
  | false =>
    rw [← phase_after] at wanted
    exact .inr (queued_after paired e ⟨node, found, written, wanted⟩)

/-! Where numbers end, a history stops in front of the first operation that needs one more. -/

/-- All that a history was granted before it stopped. -/
def grantsWithin (limit : Nat) : Registry → List Operation → List (WorkItem × Node)
  | _, [] => []
  | r, operation :: rest =>
    match r.performWithin limit operation with
    | none => []
    | some (answer, r) => (granted? operation answer).toList ++ grantsWithin limit r rest

theorem grantsWithin_isPrefixOf (limit : Nat) (r : Registry) (operations : List Operation) :
    r.grantsWithin limit operations <+: r.grants operations := by
  induction operations generalizing r with
  | nil => exact List.prefix_refl _
  | cons operation rest ih =>
    unfold grantsWithin performWithin
    by_cases room : r.hasRoom limit operation = true
    · simp only [if_pos room, grants]
      exact (List.prefix_append_right_inj _).mpr (ih _)
    · simp only [if_neg room]
      exact List.nil_prefix

theorem afterWithin_cons (limit : Nat) (r : Registry) (operation : Operation)
    (rest : List Operation) : r.afterWithin limit (operation :: rest) =
      if r.hasRoom limit operation then (r.perform operation).2.afterWithin limit rest
      else none := by
  simp only [afterWithin, List.foldlM_cons, performWithin]
  split <;> rfl

/-- A history that does not stop is the plain one. -/
theorem afterWithin_eq_some {limit : Nat} {operations : List Operation}
    (performed : r.afterWithin limit operations = some r') :
    r' = r.after operations ∧ r.grantsWithin limit operations = r.grants operations := by
  induction operations generalizing r with
  | nil => exact ⟨(Option.some.inj performed).symm, rfl⟩
  | cons operation rest ih =>
    rw [afterWithin_cons] at performed
    split at performed
    · rename_i room
      obtain ⟨last, granted⟩ := ih performed
      refine ⟨last, ?_⟩
      simp only [grantsWithin, performWithin, if_pos room, granted, grants]
    · cases performed

/-- A history stops exactly if it counts beyond the limit. -/
theorem afterWithin_isSome {limit : Nat} (operations : List Operation) (within : r.count ≤ limit) :
    (r.afterWithin limit operations).isSome ↔ (r.after operations).count ≤ limit := by
  induction operations generalizing r with
  | nil => exact iff_of_true rfl within
  | cons operation rest ih =>
    have room := hasRoom_iff within operation
    rw [afterWithin_cons]
    split
    · rename_i here
      exact ih (room.mp here)
    · rename_i stopped
      have grown : (r.perform operation).2.count ≤ (r.after (operation :: rest)).count :=
        count_le_after _ rest
      refine iff_of_false nofun fun small => stopped (room.mpr (grown.trans small))

theorem count_after (operations : List Operation) :
    (empty.after operations).count = (registered operations).length := by
  rw [(after_numbered operations).count_eq, keys_after]

/-- What a registry whose numbers end at `limit` does with a history. It gets to the end if there
are numbers enough for the entities registered, and then as a registry without limit does. No
element is granted twice, every entity that is wanted by the end has been granted its element or
is in the queue, and once the queue is empty every number has been granted. -/
structure Lossless (limit : Nat) (operations : List Operation) : Prop where
  performed : (empty.afterWithin limit operations).isSome ↔ (registered operations).length ≤ limit
  plain : ∀ r, empty.afterWithin limit operations = some r → r = empty.after operations ∧
    empty.grantsWithin limit operations = empty.grants operations
  once : ((empty.grantsWithin limit operations).map (·.1)).Nodup
  granted_iff : ∀ r, empty.afterWithin limit operations = some r → ∀ e,
    (∃ node, (.entity e, node) ∈ empty.grantsWithin limit operations) ↔
      ∃ node, r.nodes.get? e = some node ∧ node.emitted = true
  kept : ∀ r, empty.afterWithin limit operations = some r → ∀ e node,
    r.nodes.get? e = some node → node.complete = true ∨ .acceptIncomplete ∈ operations →
    node.emitted = true ∨ .entity e ∈ r.queue.items
  finished : ∀ r, empty.afterWithin limit operations = some r →
    .acceptIncomplete ∈ operations → r.queue.items = [] →
    ((empty.grantsWithin limit operations).map (·.2.number)).Perm (List.range' 1 r.count)

/-- Numbers are words, and a registry loses nothing and grants nothing twice as far as they go. -/
theorem history_lossless (operations : List Operation) (paired : .next ∉ operations) :
    Lossless Numbering.greatest operations where
  performed := by rw [afterWithin_isSome operations (Nat.zero_le _), count_after]
  plain _ := afterWithin_eq_some
  once :=
    (granted_after operations).once.sublist ((grantsWithin_isPrefixOf ..).sublist.map _)
  granted_iff r performed e := by
    obtain ⟨rfl, granted⟩ := afterWithin_eq_some performed
    have listed := (granted_after operations).emitted_iff e
    rw [granted]
    simpa [Emitted] using listed
  kept r performed e node found wanted := by
    obtain ⟨rfl, _⟩ := afterWithin_eq_some performed
    exact kept_after paired found wanted
  finished r performed accepted drained := by
    obtain ⟨rfl, granted⟩ := afterWithin_eq_some performed
    rw [granted]
    refine (granted_after operations).numbers_perm (after_numbered operations)
      fun e node found => ?_
    refine (kept_after paired found (.inr accepted)).resolve_right ?_
    rw [drained]
    exact List.not_mem_nil

/-- A stub that is claimed out of turn and wanted complete later, late stubs, and two sweeps. -/
def lateUpgrade : List Operation :=
  let a := Entity.decl ⟨0⟩
  let b := Entity.type (.plain ⟨0⟩)
  let c := Entity.decl ⟨1⟩
  [.register a false, .begin (.entity a), .register b true, .register a true, .acceptIncomplete,
    .register c false, .acceptIncomplete, .registerQualified 2 ⟨true, false, false⟩,
    .begin (.entity c), .register c true, .step, .step, .step, .step, .step, .step]

theorem lateUpgrade_lossless : .next ∉ lateUpgrade ∧ .acceptIncomplete ∈ lateUpgrade ∧
    (empty.afterWithin Numbering.greatest lateUpgrade).map (·.queue.items) = some [] ∧
    Lossless Numbering.greatest lateUpgrade :=
  ⟨by decide, by decide, rfl, history_lossless lateUpgrade (by decide)⟩

end AstXml.Registry
