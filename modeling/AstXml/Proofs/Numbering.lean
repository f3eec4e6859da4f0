import AstXml.Dump
import AstXml.Proofs.Graph
import AstXml.Proofs.Registry.Consistent

/-!
Numbers outlive their registration. Nothing that happens to a registry changes the number of an
entity, so the attributes of an element can be read off its draft with the numbers of any later
state of the dump.
-/
namespace AstXml

namespace Registry

/-- The number of a registered entity. -/
def numberOf (r : Registry) (e : Entity) : Nat := ((r.nodes.get? e).map (·.number)).getD 0

theorem numberOf_eq {r : Registry} {e : Entity} {node : Node}
    (found : r.nodes.get? e = some node) : r.numberOf e = node.number := by
  simp [numberOf, found]

/-- The nodes of `r` are still there in `r'`, with their numbers and at least as complete. -/
def Keeps (r r' : Registry) : Prop :=
  ∀ e node, r.nodes.get? e = some node → ∃ node', r'.nodes.get? e = some node' ∧
    node'.number = node.number ∧ (node.complete = true → node'.complete = true)

theorem Keeps.refl (r : Registry) : r.Keeps r := fun _ node found => ⟨node, found, rfl, id⟩

theorem Keeps.trans {a b c : Registry} (first : a.Keeps b) (second : b.Keeps c) : a.Keeps c := by
  intro e node found
  obtain ⟨node', found', number, complete⟩ := first e node found
  obtain ⟨node'', found'', number', complete'⟩ := second e node' found'
  exact ⟨node'', found'', number'.trans number, complete' ∘ complete⟩

theorem keeps_of_map {r r' : Registry} {e : Entity} {change : Node → Node}
    (nodes : ∀ other, r'.nodes.get? other =
      if other = e then (r.nodes.get? e).map change else r.nodes.get? other)
    (number : ∀ node, (change node).number = node.number)
    (complete : ∀ node, node.complete = true → (change node).complete = true) : r.Keeps r' := by
  intro other node found
  by_cases same : other = e
  · subst same
    exact ⟨change node, by simp [nodes, found], number node, complete node⟩
  · exact ⟨node, by simp [nodes, same, found], rfl, id⟩

theorem keeps_extend {r : Registry} {e : Entity} (fresh : r.nodes.get? e = none)
    (complete : Bool) : r.Keeps (r.extend e complete) := by
  intro other node found
  refine ⟨node, ?_, rfl, id⟩
  rw [get?_extend fresh, if_neg, found]
  rintro rfl
  cases fresh.symm.trans found

theorem keeps_register (r : Registry) (e : Entity) (complete : Bool) :
    r.Keeps (r.register e complete).2 := by
  rcases r.register_cases e complete with
    ⟨node, found, done, same⟩ | ⟨node, found, wanted, stub, same⟩ | ⟨fresh, same⟩ <;> rw [same]
  · exact .refl r
  · exact keeps_of_map (get?_upgrade r e) (fun _ => rfl) fun _ _ => rfl
  · exact keeps_extend fresh complete

theorem keeps_registerQualified (r : Registry) (b : Nat) (q : Qualifiers) :
    r.Keeps (r.registerQualified b q).2 := by
  intro e node found
  exact ⟨node, by rwa [nodes_registerQualified], rfl, id⟩

theorem keeps_claim (r : Registry) (e : Entity) : r.Keeps (r.claim e) :=
  keeps_of_map (get?_claim r e) (fun _ => rfl) fun _ h => h

/-- After its registration an entity has the number answered, and is as complete as asked. -/
theorem get?_register (r : Registry) (e : Entity) (complete : Bool) :
    ∃ node, (r.register e complete).2.nodes.get? e = some node ∧
      node.number = (r.register e complete).1 ∧ (complete = true → node.complete = true) := by
  rcases r.register_cases e complete with
    ⟨node, found, done, same⟩ | ⟨node, found, wanted, stub, same⟩ | ⟨fresh, same⟩ <;> rw [same]
  · exact ⟨node, found, rfl, done⟩
  · exact ⟨{ node with complete := true }, by simp [get?_upgrade, found], rfl, fun _ => rfl⟩
  · exact ⟨⟨r.count + 1, complete, false⟩, by simp [get?_extend fresh], rfl, id⟩

theorem numberOf_register (r : Registry) (e : Entity) (complete : Bool) :
    (r.register e complete).2.numberOf e = (r.register e complete).1 := by
  obtain ⟨node, found, number, _⟩ := r.get?_register e complete
  rw [numberOf_eq found, number]

theorem numberOf_keeps {r r' : Registry} (kept : r.Keeps r') {e : Entity} {node : Node}
    (found : r.nodes.get? e = some node) : r'.numberOf e = r.numberOf e := by
  obtain ⟨node', found', number, _⟩ := kept e node found
  rw [numberOf_eq found', numberOf_eq found, number]

end Registry

namespace FileTable

/-- The number of a source file that has been mentioned. -/
def numberOf (t : FileTable) (file : FileId) : Nat := ((t.known.idxOf? file).map (· + 1)).getD 0

theorem known_register (t : FileTable) (file : FileId) : file ∈ (t.register file).2.known := by
  unfold register
  cases found : t.known.idxOf? file with
  | none => simp
  | some i =>
    obtain ⟨inside, same, _⟩ := List.idxOf?_eq_some_iff.mp found
    exact same ▸ List.getElem_mem inside

/-- A known file is numbered by its position. -/
theorem numberOf_known {t : FileTable} {file : FileId} (known : file ∈ t.known) :
    ∃ i, t.known[i]? = some file ∧ t.numberOf file = i + 1 := by
  cases position : t.known.idxOf? file with
  | none => exact absurd known (List.idxOf?_eq_none_iff.mp position)
  | some i =>
    obtain ⟨inside, here, _⟩ := List.idxOf?_eq_some_iff.mp position
    have entry := List.getElem?_eq_getElem inside
    exact ⟨i, entry.trans (congrArg some here), by simp [numberOf, position]⟩

theorem register_grows (t : FileTable) (file : FileId) :
    t.known <+: (t.register file).2.known := by
  unfold register
  split
  · exact List.prefix_refl _
  · exact List.prefix_append ..

theorem numberOf_register (t : FileTable) (file : FileId) :
    (t.register file).2.numberOf file = (t.register file).1 := by
  unfold register numberOf
  cases found : t.known.idxOf? file with
  | none =>
    simp only [List.idxOf?, List.findIdx?_append] at found ⊢
    simp [found]
  | some i => simp [found]

theorem numberOf_grows {t t' : FileTable} (grown : t.known <+: t'.known) {file : FileId}
    (known : file ∈ t.known) : t'.numberOf file = t.numberOf file := by
  obtain ⟨more, same⟩ := grown
  unfold numberOf
  rw [← same, List.idxOf?, List.findIdx?_append]
  cases found : t.known.idxOf? file with
  | none => exact absurd known (List.idxOf?_eq_none_iff.mp found)
  | some i =>
    rw [List.idxOf?] at found
    simp [found]

end FileTable

namespace Run

/-- The attribute that a draft becomes, by the numbers of a state of the dump. -/
def resolve (run : Run) : DraftAttribute → Attribute Nat Nat
  | .name text => .name text
  | .kind text => .kind text
  | .typeClass text => .typeClass text
  | .type m quals => .type (run.registry.numberOf m.entity) quals
  | .context m => .context (run.registry.numberOf m.entity)
  | .access access => .access access
  | .location file line => .location (run.files.numberOf file) line
  | .members ms =>
    .members (Ascending.ofList (fun a b => decide (a < b))
      (ms.map fun m => run.registry.numberOf m.entity))
  | .incomplete => .incomplete

/-- What `run` knows, `run'` knows by the same numbers. -/
structure Keeps (run run' : Run) : Prop where
  nodes : run.registry.Keeps run'.registry
  files : run.files.known <+: run'.files.known

theorem Keeps.refl (run : Run) : run.Keeps run := ⟨.refl _, List.prefix_refl _⟩

theorem Keeps.trans {a b c : Run} (first : a.Keeps b) (second : b.Keeps c) : a.Keeps c :=
  ⟨first.nodes.trans second.nodes, first.files.trans second.files⟩

/-- A mention has been registered, as complete as it asks. -/
def Covers (run : Run) (m : Mention) : Prop :=
  ∃ node, run.registry.nodes.get? m.entity = some node ∧
    (m.complete = true → node.complete = true)

theorem Covers.mono {run run' : Run} (kept : run.Keeps run') {m : Mention} (h : run.Covers m) :
    run'.Covers m := by
  obtain ⟨node, found, complete⟩ := h
  obtain ⟨node', found', _, complete'⟩ := kept.nodes _ _ found
  exact ⟨node', found', complete' ∘ complete⟩

structure CoversAll (run : Run) (a : DraftAttribute) : Prop where
  nodes : ∀ m ∈ a.nodes, run.Covers m
  files : ∀ file ∈ a.files, file ∈ run.files.known

theorem CoversAll.mono {run run' : Run} (kept : run.Keeps run') {a : DraftAttribute}
    (h : run.CoversAll a) : run'.CoversAll a :=
  ⟨fun m member => (h.nodes m member).mono kept,
    fun file member => kept.files.subset (h.files file member)⟩

theorem resolve_keeps {run run' : Run} (kept : run.Keeps run') {a : DraftAttribute}
    (h : run.CoversAll a) : run'.resolve a = run.resolve a := by
  have same : ∀ m ∈ a.nodes, run'.registry.numberOf m.entity = run.registry.numberOf m.entity := by
    intro m member
    obtain ⟨node, found, _⟩ := h.nodes m member
    exact Registry.numberOf_keeps kept.nodes found
  cases a with
  | type m quals => simp [resolve, same m (by simp [Attribute.nodes])]
  | context m => simp [resolve, same m (by simp [Attribute.nodes])]
  | members ms =>
    have mapped : ms.map (fun m => run'.registry.numberOf m.entity) =
        ms.map fun m => run.registry.numberOf m.entity := List.map_congr_left same
    simp only [resolve, mapped]
  | location file line =>
    have known : file ∈ run.files.known := h.files file (by simp [Attribute.files])
    simp [resolve, FileTable.numberOf_grows kept.files known]
  | _ => rfl

theorem mention_keeps (m : Mention) (run : Run) : run.Keeps (run.mention m).2 :=
  ⟨Registry.keeps_register _ _ _, List.prefix_refl _⟩

theorem mention_covers (m : Mention) (run : Run) : (run.mention m).2.Covers m := by
  obtain ⟨node, found, _, complete⟩ := run.registry.get?_register m.entity m.complete
  exact ⟨node, found, complete⟩

theorem mention_fst (m : Mention) (run : Run) :
    (run.mention m).1 = (run.mention m).2.registry.numberOf m.entity :=
  (Registry.numberOf_register ..).symm

theorem mentionAll_keeps (ms : List Mention) (run : Run) : run.Keeps (mentionAll ms run).2 := by
  induction ms generalizing run with
  | nil => exact .refl run
  | cons m rest ih => exact (mention_keeps m run).trans (ih _)

theorem mentionAll_covers (ms : List Mention) (run : Run) :
    ∀ m ∈ ms, (mentionAll ms run).2.Covers m := by
  induction ms generalizing run with
  | nil => simp
  | cons m rest ih =>
    rintro m' member
    rcases List.mem_cons.mp member with rfl | later
    · exact (mention_covers m' run).mono (mentionAll_keeps rest _)
    · exact ih _ m' later

theorem mentionAll_fst (ms : List Mention) (run : Run) :
    (mentionAll ms run).1 =
      ms.map fun m => (mentionAll ms run).2.registry.numberOf m.entity := by
  induction ms generalizing run with
  | nil => rfl
  | cons m rest ih =>
    obtain ⟨node, found, _⟩ := mention_covers m run
    have kept := mentionAll_keeps rest (run.mention m).2
    simp only [mentionAll_cons, List.map_cons, List.cons.injEq]
    exact ⟨(mention_fst m run).trans (Registry.numberOf_keeps kept.nodes found).symm, ih _⟩

theorem mentionQualified_keeps (mode : QualifierMode) (b : Nat) (q : Qualifiers) (run : Run) :
    run.Keeps (run.mentionQualified mode b q) := by
  rw [mentionQualified_eq]
  split
  · exact .refl run
  · cases mode with
    | suffix => exact .refl run
    | element => exact ⟨Registry.keeps_registerQualified _ _ _, List.prefix_refl _⟩

theorem number_keeps (mode : QualifierMode) (a : DraftAttribute) (run : Run) :
    run.Keeps (run.number mode a).2 := by
  cases a with
  | type m quals => exact (mention_keeps m run).trans (mentionQualified_keeps ..)
  | context m => exact mention_keeps m run
  | members ms => exact mentionAll_keeps ms run
  | location file line => exact ⟨.refl _, FileTable.register_grows ..⟩
  | _ => exact .refl run

theorem number_covers (mode : QualifierMode) (a : DraftAttribute) (run : Run) :
    (run.number mode a).2.CoversAll a := by
  cases a with
  | type m quals =>
    refine ⟨fun m' member => ?_, by simp [Attribute.files]⟩
    cases List.mem_singleton.mp member
    exact (mention_covers m run).mono (mentionQualified_keeps ..)
  | context m =>
    refine ⟨fun m' member => ?_, by simp [Attribute.files]⟩
    cases List.mem_singleton.mp member
    exact mention_covers m run
  | members ms => exact ⟨mentionAll_covers ms run, by simp [Attribute.files]⟩
  | location file line =>
    refine ⟨by simp [Attribute.nodes], fun file' member => ?_⟩
    cases List.mem_singleton.mp member
    exact FileTable.known_register ..
  | _ => exact ⟨by simp [Attribute.nodes], by simp [Attribute.files]⟩

theorem number_fst (mode : QualifierMode) (a : DraftAttribute) (run : Run) :
    (run.number mode a).1 = (run.number mode a).2.resolve a := by
  cases a with
  | type m quals =>
    obtain ⟨node, found, _⟩ := mention_covers m run
    have kept := mentionQualified_keeps mode (run.mention m).1 quals (run.mention m).2
    simp only [number_eq, resolve, Attribute.type.injEq, and_true]
    exact (mention_fst m run).trans (Registry.numberOf_keeps kept.nodes found).symm
  | context m => exact congrArg _ (mention_fst m run)
  | members ms => simp only [number_eq, resolve, ← mentionAll_fst ms run]
  | location file line =>
    exact congrArg (Attribute.location · line) (FileTable.numberOf_register ..).symm
  | _ => rfl

theorem numberAll_keeps (mode : QualifierMode) (as : List DraftAttribute) (run : Run) :
    run.Keeps (numberAll mode as run).2 := by
  induction as generalizing run with
  | nil => exact .refl run
  | cons a rest ih => exact (number_keeps mode a run).trans (ih _)

theorem numberAll_covers (mode : QualifierMode) (as : List DraftAttribute) (run : Run) :
    ∀ a ∈ as, (numberAll mode as run).2.CoversAll a := by
  induction as generalizing run with
  | nil => simp
  | cons a rest ih =>
    rintro a' member
    rcases List.mem_cons.mp member with rfl | later
    · exact (number_covers mode a' run).mono (numberAll_keeps mode rest _)
    · exact ih _ a' later

/-- An element shows its draft, by the numbers of the state it leaves. -/
theorem numberAll_fst (mode : QualifierMode) (as : List DraftAttribute) (run : Run) :
    (numberAll mode as run).1 = as.map (numberAll mode as run).2.resolve := by
  induction as generalizing run with
  | nil => rfl
  | cons a rest ih =>
    have kept := numberAll_keeps mode rest (run.number mode a).2
    simp only [numberAll_cons, List.map_cons, List.cons.injEq]
    exact ⟨(number_fst mode a run).trans (resolve_keeps kept (number_covers mode a run)).symm, ih _⟩

end Run

end AstXml
