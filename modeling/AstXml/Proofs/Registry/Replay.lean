import AstXml.Proofs.Registry.Consistent
import AstXml.Registry.Operation

/-!
Registry operations one after the other. Performing them from one state leads to another, and each
of them may come in time or too late for an element that has been written.
-/
namespace AstXml.Registry

/-- An element that has been written stays as it is: a stub is not wanted complete any more. -/
def Spares (r : Registry) : Operation → Prop
  | .register e complete => complete = true →
    ∀ node, r.nodes.get? e = some node → node.emitted = true → node.complete = true
  | _ => True

/-- Performing operations from one state leads to another, and each of them comes in time. -/
inductive Replays : Registry → List Operation → Registry → Prop
  | done (r) : Replays r [] r
  | perform {r operation rest last} (spares : r.Spares operation)
      (later : Replays (r.perform operation).2 rest last) : Replays r (operation :: rest) last

theorem Replays.append {a b c : Registry} {first second : List Operation}
    (here : Replays a first b) (there : Replays b second c) : Replays a (first ++ second) c := by
  induction here with
  | done => exact there
  | perform spares _ ih => exact .perform spares (ih there)

theorem Replays.after_eq {r last : Registry} {operations : List Operation}
    (h : Replays r operations last) : r.after operations = last := by
  induction h with
  | done => rfl
  | perform _ _ ih => exact ih

theorem Replays.spares {r last : Registry} {before rest : List Operation} {operation : Operation}
    (h : Replays r (before ++ operation :: rest) last) : (r.after before).Spares operation := by
  induction before generalizing r with
  | nil =>
    cases h with
    | perform spares => exact spares
  | cons first before ih =>
    cases h with
    | perform _ later => exact ih later

/-- The node of `e` is wanted complete. -/
def Wants (r : Registry) (e : Entity) : Prop :=
  ∃ node, r.nodes.get? e = some node ∧ node.complete = true

theorem wants_claim (r : Registry) (e other : Entity) :
    (r.claim e).Wants other ↔ r.Wants other := by
  simp only [Wants, get?_claim]
  split
  · rename_i same
    subst same
    cases r.nodes.get? other <;> simp
  · rfl

theorem wants_begin (r : Registry) (item : WorkItem) (e : Entity) :
    (r.beginOutput item).2.Wants e ↔ r.Wants e := by
  unfold beginOutput
  split
  · rfl
  · split
    · rfl
    · split
      · rfl
      · exact wants_claim r _ e

theorem wants_register (r : Registry) (e other : Entity) (complete : Bool) :
    (r.register e complete).2.Wants other ↔
      r.Wants other ∨ Operation.register e complete = .register other true := by
  simp only [Operation.register.injEq, Wants]
  rcases r.register_cases e complete with
    ⟨node, found, done, same⟩ | ⟨node, found, wanted, stub, same⟩ | ⟨fresh, same⟩ <;> rw [same]
  · refine ⟨.inl, fun h => h.elim id ?_⟩
    rintro ⟨rfl, wanted⟩
    exact ⟨node, found, done wanted⟩
  · simp only [get?_upgrade]
    split
    · rename_i here
      simp [here, found, wanted]
    · rename_i away
      simp [Ne.symm away]
  · simp only [get?_extend fresh]
    split
    · rename_i here
      simp [here, fresh]
    · rename_i away
      simp [Ne.symm away]

theorem wants_perform (r : Registry) (operation : Operation) (e : Entity) :
    (r.perform operation).2.Wants e ↔ r.Wants e ∨ operation = .register e true := by
  cases operation with
  | register other complete => exact wants_register r other e complete
  | registerQualified b q =>
    simp only [perform, Wants, nodes_registerQualified, reduceCtorEq, or_false]
  | acceptIncomplete => simp [perform, acceptIncomplete, Wants]
  | next =>
    simp only [perform, reduceCtorEq, or_false]
    split
    · rfl
    · rename_i front
      obtain ⟨queue, _, rfl⟩ := next?_eq_some front
      rfl
  | begin item => simp only [perform, wants_begin, reduceCtorEq, or_false]
  | step =>
    simp only [perform, reduceCtorEq, or_false]
    split
    · rfl
    · rename_i front
      obtain ⟨queue, _, rfl⟩ := next?_eq_some front
      exact wants_begin _ _ e

/-- What one operation establishes and no operation undoes. -/
theorem after_iff {P : Registry → Prop} {cause : Operation}
    (perform : ∀ r operation, P (perform r operation).2 ↔ P r ∨ operation = cause) (r : Registry)
    (operations : List Operation) : P (r.after operations) ↔ P r ∨ cause ∈ operations := by
  induction operations generalizing r with
  | nil => simp [after]
  | cons operation rest ih =>
    rw [after, List.foldl_cons, ← after, ih, perform, List.mem_cons, or_assoc, eq_comm (b := cause)]

/-- A node is complete once some registration has asked for it. -/
theorem wants_after (r : Registry) (operations : List Operation) (e : Entity) :
    (r.after operations).Wants e ↔ r.Wants e ∨ .register e true ∈ operations :=
  after_iff (P := (·.Wants e)) (fun r operation => r.wants_perform operation e) ..

end AstXml.Registry
