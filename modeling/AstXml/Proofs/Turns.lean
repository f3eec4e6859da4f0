import Mathlib.Data.List.Perm.Subperm
import AstXml.Proofs.Drafts
import AstXml.Proofs.Numbering

/-!
A dump turn by turn. What an element shows is settled when it is written: the node of an entity
never changes again after it has been claimed, and the numbers in its attributes are those of every
later state. From well-formed input a turn cannot fail, and there are only so many of them.
-/
namespace AstXml

namespace Registry

variable {r : Registry} {taken : List WorkItem}

/-- The claimed nodes of `r` are unchanged in `r'`. -/
def Freezes (r r' : Registry) : Prop :=
  ∀ e node, r.nodes.get? e = some node → node.emitted = true → r'.nodes.get? e = some node

theorem Freezes.refl (r : Registry) : r.Freezes r := fun _ _ found _ => found

theorem Freezes.trans {a b c : Registry} (first : a.Freezes b) (second : b.Freezes c) :
    a.Freezes c :=
  fun e node found written => second e node (first e node found written) written

theorem freezes_register (h : r.Consistent taken) (e : Entity) {complete : Bool}
    (asked : r.phase = .acceptIncomplete → complete = false) :
    r.Freezes (r.register e complete).2 := by
  rcases r.register_cases e complete with
    ⟨node, found, done, same⟩ | ⟨node, found, wanted, stub, same⟩ | ⟨fresh, same⟩ <;> rw [same]
  · exact .refl r
  · intro other node' found' written
    rw [get?_upgrade, if_neg, found']
    rintro rfl
    cases found.symm.trans found'
    cases phase : r.phase with
    | requireComplete => exact absurd (h.whole_first phase _ node found written) (by simp [stub])
    | acceptIncomplete => exact absurd (asked phase) (by simp [wanted])
  · intro other node' found' _
    rw [get?_extend fresh, if_neg, found']
    rintro rfl
    cases fresh.symm.trans found'

theorem freezes_claim {e : Entity} (unclaimed : ¬ r.Emitted e) : r.Freezes (r.claim e) := by
  intro other node found written
  rw [get?_claim, if_neg, found]
  rintro rfl
  exact unclaimed ⟨node, found, written⟩

/-- `r'` comes from `r` by registrations while an element is numbered. -/
structure Follows (taken : List WorkItem) (r r' : Registry) : Prop where
  consistent : r'.Consistent taken
  phase : r'.phase = r.phase
  frozen : r.Freezes r'

theorem Follows.qualify {r' : Registry} (h : Follows taken r r') {b : Nat} {q : Qualifiers}
    (numbered : b ∈ r'.nodes.numbers) (qualified : q ≠ .none) :
    Follows taken r (r'.registerQualified b q).2 where
  consistent := registerQualified_consistent h.consistent numbered qualified
  phase := (phase_registerQualified r' b q).trans h.phase
  frozen := fun e node found written => by
    rw [nodes_registerQualified]
    exact h.frozen e node found written

theorem Follows.register {r' : Registry} (h : Follows taken r r') (e : Entity) {complete : Bool}
    (asked : r.phase = .acceptIncomplete → complete = false) :
    Follows taken r (r'.register e complete).2 where
  consistent := register_consistent h.consistent e fun late => asked (h.phase.symm.trans late)
  phase := h.phase
  frozen := h.frozen.trans
    (freezes_register h.consistent e fun late => asked (h.phase.symm.trans late))

theorem register_fst_mem (r : Registry) (e : Entity) (complete : Bool) :
    (r.register e complete).1 ∈ (r.register e complete).2.nodes.numbers := by
  obtain ⟨node, found, number, _⟩ := r.get?_register e complete
  exact number ▸ NodeTable.number_mem found

end Registry

namespace Run

/-! What every registration keeps, numbering an element keeps. -/

section Induction

variable {P : Registry → Prop} {mode : QualifierMode}

theorem mentionAll_induction {ms : List Mention}
    (register : ∀ m ∈ ms, ∀ r, P r → P (r.register m.entity m.complete).2) (run : Run)
    (h : P run.registry) : P (mentionAll ms run).2.registry := by
  induction ms generalizing run with
  | nil => exact h
  | cons m rest ih =>
    exact ih (fun m' later => register m' (List.mem_cons_of_mem _ later)) (run.mention m).2
      (register m (List.mem_cons_self ..) _ h)

variable (qualify : mode = .element → ∀ r b q, P r → b ∈ r.nodes.numbers → q ≠ .none →
  P (r.registerQualified b q).2)
include qualify

theorem number_induction {a : DraftAttribute}
    (register : ∀ m ∈ a.nodes, ∀ r, P r → P (r.register m.entity m.complete).2) (run : Run)
    (h : P run.registry) : P (run.number mode a).2.registry := by
  cases a with
  | type m quals =>
    have base : P (run.mention m).2.registry := register m (by simp [Attribute.nodes]) _ h
    simp only [number_eq, mentionQualified_eq]
    split
    · exact base
    · rename_i qualified
      have some : quals ≠ .none := fun none => qualified ((Qualifiers.isNone_iff quals).mpr none)
      cases mode with
      | suffix => exact base
      | element => exact qualify rfl _ _ _ base (Registry.register_fst_mem ..) some
  | context m => exact register m (by simp [Attribute.nodes]) _ h
  | members ms => exact mentionAll_induction register run h
  | _ => exact h

theorem numberAll_induction {as : List DraftAttribute}
    (register : ∀ m ∈ as.flatMap (·.nodes), ∀ r, P r → P (r.register m.entity m.complete).2)
    (run : Run) (h : P run.registry) : P (numberAll mode as run).2.registry := by
  induction as generalizing run with
  | nil => exact h
  | cons a rest ih =>
    simp only [List.flatMap_cons, List.mem_append] at register
    exact ih (fun m later => register m (.inr later)) (run.number mode a).2
      (number_induction qualify (fun m here => register m (.inl here)) run h)

end Induction

theorem mentionAll_files (ms : List Mention) (run : Run) :
    (mentionAll ms run).2.files = run.files := by
  induction ms generalizing run with
  | nil => rfl
  | cons m rest ih => exact ih (run.mention m).2

theorem mentionQualified_files (mode : QualifierMode) (b : Nat) (q : Qualifiers) (run : Run) :
    (run.mentionQualified mode b q).files = run.files := by
  rw [mentionQualified_eq]
  split
  · rfl
  · cases mode <;> rfl

theorem number_files (mode : QualifierMode) (a : DraftAttribute) (run : Run) :
    ∀ file ∈ (run.number mode a).2.files.known, file ∈ run.files.known ∨ file ∈ a.files := by
  cases a with
  | type m quals =>
    simp only [number_eq, mentionQualified_files]
    exact fun file known => .inl known
  | members ms =>
    simp only [number_eq, mentionAll_files]
    exact fun file known => .inl known
  | location file line =>
    intro other known
    simp only [number_eq, FileTable.register] at known
    split at known
    · exact .inl known
    · exact (List.mem_append.mp known).imp_right fun new => by simpa [Attribute.files] using new
  | _ => exact fun file known => .inl known

theorem numberAll_files (mode : QualifierMode) (as : List DraftAttribute) (run : Run) :
    ∀ file ∈ (numberAll mode as run).2.files.known,
      file ∈ run.files.known ∨ file ∈ as.flatMap (·.files) := by
  induction as generalizing run with
  | nil => exact fun file known => .inl known
  | cons a rest ih =>
    intro file known
    rw [List.flatMap_cons, List.mem_append]
    rcases ih (run.number mode a).2 file known with before | later
    · exact (number_files mode a run file before).imp_right .inl
    · exact .inr (.inr later)

end Run

namespace Dump

variable (s : Snapshot) (mode : QualifierMode)

/-- One turn: the front item leaves the queue, and its element is written. -/
inductive Step : Run → Turn → Run → Prop
  | qualified {run rest b q} (front : run.registry.next? = some (.qualified b q, rest)) :
      Step run ⟨.qualified b q, some (.qualified b q)⟩ { run with registry := rest }
  | entity {run rest e node draft} (front : run.registry.next? = some (.entity e, rest))
      (found : run.registry.nodes.get? e = some node)
      (drafted : s.draft e node.complete = .ok draft) :
      Step run
        ⟨.entity e, some (.node ⟨e, node.complete, node.number, draft.tag,
          (Run.numberAll mode draft.attributes { run with registry := rest.claim e }).1⟩)⟩
        (Run.numberAll mode draft.attributes { run with registry := rest.claim e }).2

inductive Turns : Run → List Turn → Run → Prop
  | done (run) : Turns run [] run
  | next {run first mid rest last} (step : Step s mode run first mid)
      (later : Turns mid rest last) : Turns run (first :: rest) last

/-- The element of a turn, as it looks from a later state of the dump. -/
inductive Written (run : Run) : Turn → Prop
  | qualified (b q) : Written run ⟨.qualified b q, some (.qualified b q)⟩
  | node {element : NodeElement} {draft}
      (found : run.registry.nodes.get? element.entity =
        some ⟨element.number, element.complete, true⟩)
      (drafted : s.draft element.entity element.complete = .ok draft)
      (tag : element.tag = draft.tag)
      (shown : element.attributes = draft.attributes.map run.resolve)
      (covered : ∀ a ∈ draft.attributes, run.CoversAll a) :
      Written run ⟨.entity element.entity, some (.node element)⟩

/-- What holds of a dump after `turns`. -/
structure Invariant (turns : List Turn) (run : Run) : Prop where
  consistent : run.registry.Consistent (turns.map (·.item))
  proper : ∀ e node, run.registry.nodes.get? e = some node → s.Proper e
  files : ∀ file ∈ run.files.known, s.HasFile file
  written : ∀ turn ∈ turns, Written s run turn

variable {s mode}

theorem Written.mono {run run' : Run} (kept : run.Keeps run')
    (frozen : run.registry.Freezes run'.registry) {turn : Turn} (h : Written s run turn) :
    Written s run' turn := by
  cases h with
  | qualified b q => exact .qualified b q
  | node found drafted tag shown covered =>
    refine .node (frozen _ _ found rfl) drafted tag ?_ fun a member => (covered a member).mono kept
    rw [shown]
    exact List.map_congr_left fun a member => (Run.resolve_keeps kept (covered a member)).symm

/-- What was written before stays written beside a new turn. -/
theorem written_append {run run' : Run} (kept : run.Keeps run')
    (frozen : run.registry.Freezes run'.registry) {turns : List Turn} {turn : Turn}
    (before : ∀ turn ∈ turns, Written s run turn) (last : Written s run' turn) :
    ∀ other ∈ turns ++ [turn], Written s run' other := by
  intro other member
  rcases List.mem_append.mp member with earlier | here
  · exact (before other earlier).mono kept frozen
  · cases List.mem_singleton.mp here
    exact last

section Steps

variable (sound : s.Sound) {turns : List Turn} {run : Run}

theorem numberAll_follows (mode : QualifierMode) (run : Run) {taken : List WorkItem}
    (h : run.registry.Consistent taken) {as : List DraftAttribute}
    (asked : run.registry.phase = .acceptIncomplete →
      ∀ m ∈ as.flatMap (·.nodes), m.complete = false) :
    Registry.Follows taken run.registry (Run.numberAll mode as run).2.registry := by
  refine Run.numberAll_induction ?_ ?_ run ⟨h, rfl, .refl _⟩
  · exact fun _ _ _ _ before numbered qualified => before.qualify numbered qualified
  · exact fun m member _ before => before.register m.entity fun late => asked late m member

theorem numberAll_proper {as : List DraftAttribute}
    (called : ∀ m ∈ as.flatMap (·.nodes), s.Proper m.entity)
    (h : ∀ e node, run.registry.nodes.get? e = some node → s.Proper e) :
    ∀ e node, (Run.numberAll mode as run).2.registry.nodes.get? e = some node → s.Proper e := by
  refine Run.numberAll_induction
    (P := fun r => ∀ e node, r.nodes.get? e = some node → s.Proper e) ?_ ?_ run h
  · intro _ r b q proper _ _
    simpa only [Registry.nodes_registerQualified] using proper
  · intro m member r proper e node found
    rcases Registry.get?_of_register found with before | ⟨rfl, _⟩
    · exact proper e node before
    · exact called m member

theorem claim_front (inv : Invariant s turns run) {e : Entity} {rest : Registry} {node : Node}
    (front : run.registry.next? = some (.entity e, rest))
    (found : run.registry.nodes.get? e = some node) :
    (rest.claim e).Consistent (turns.map (·.item) ++ [.entity e]) ∧
      run.registry.Keeps (rest.claim e) ∧ run.registry.Freezes (rest.claim e) ∧
      (rest.claim e).nodes.get? e = some { node with emitted := true } ∧
      (node.complete = true ↔ run.registry.phase = .requireComplete) ∧
      ∀ other node, (rest.claim e).nodes.get? other = some node → s.Proper other := by
  obtain ⟨_, found', unwritten, complete_iff, _, after⟩ := Registry.take_entity inv.consistent front
  cases found.symm.trans found'
  obtain ⟨queue, _, rfl⟩ := Registry.next?_eq_some front
  refine ⟨after, Registry.keeps_claim { run.registry with queue } e, ?_, ?_, complete_iff, ?_⟩
  · refine Registry.freezes_claim (r := { run.registry with queue }) ?_
    rintro ⟨_, found'', written⟩
    cases found.symm.trans found''
    cases unwritten.symm.trans written
  · simp [Registry.get?_claim, found]
  · intro other node' found'
    obtain ⟨before, found', _⟩ := Registry.get?_of_claim found'
    exact inv.proper other before found'

theorem mentions_stub (sound : s.Sound) {e : Entity} {complete : Bool} {draft : Draft}
    (drafted : s.draft e complete = .ok draft) (stub : complete = false) :
    ∀ m ∈ draft.attributes.flatMap (·.nodes), m.complete = false := by
  subst stub
  intro m member
  rcases (Snapshot.mem_mentions sound drafted m).mp member with ⟨h, _⟩ | ⟨h, _⟩ | ⟨never, _⟩
  · exact h
  · exact h
  · cases never

theorem phase_front {e : Entity} {rest : Registry}
    (front : run.registry.next? = some (.entity e, rest)) :
    (rest.claim e).phase = run.registry.phase := by
  obtain ⟨queue, _, rfl⟩ := Registry.next?_eq_some front
  rfl

include sound in
theorem mentions_late (inv : Invariant s turns run) {e : Entity} {rest : Registry} {node : Node}
    {draft : Draft} (front : run.registry.next? = some (.entity e, rest))
    (found : run.registry.nodes.get? e = some node)
    (drafted : s.draft e node.complete = .ok draft)
    (late : (rest.claim e).phase = .acceptIncomplete) :
    ∀ m ∈ draft.attributes.flatMap (·.nodes), m.complete = false := by
  obtain ⟨_, _, _, _, complete_iff, _⟩ := claim_front inv front found
  refine mentions_stub sound drafted (Bool.eq_false_iff.mpr fun done => ?_)
  cases (complete_iff.mp done).symm.trans ((phase_front front).symm.trans late)

include sound in
/-- A turn keeps the invariant, and what the dump has settled before. -/
theorem step_invariant (inv : Invariant s turns run) {turn : Turn} {run' : Run}
    (step : Step s mode run turn run') :
    Invariant s (turns ++ [turn]) run' ∧ run.Keeps run' ∧
      run.registry.Freezes run'.registry ∧ run'.registry.phase = run.registry.phase := by
  cases step with
  | @qualified rest b q front =>
    have after := Registry.take_qualified inv.consistent front
    obtain ⟨queue, _, rfl⟩ := Registry.next?_eq_some front
    have kept : run.Keeps { run with registry := { run.registry with queue } } :=
      ⟨fun _ node found => ⟨node, found, rfl, id⟩, List.prefix_refl _⟩
    have frozen : run.registry.Freezes { run.registry with queue } := fun _ _ found _ => found
    refine ⟨⟨by simpa using after, inv.proper, inv.files, ?_⟩, kept, frozen, rfl⟩
    exact written_append kept frozen inv.written (.qualified b q)
  | @entity rest e node draft front found drafted =>
    obtain ⟨after, kept, frozen, claimed, _, proper⟩ := claim_front inv front found
    generalize numbered : Run.numberAll mode draft.attributes
      { run with registry := rest.claim e } = result
    obtain ⟨consistent, phase, frozen'⟩ := numbered ▸ numberAll_follows mode
      { run with registry := rest.claim e } after (mentions_late sound inv front found drafted)
    have kept : run.Keeps result.2 := .trans (b := { run with registry := rest.claim e })
      ⟨kept, List.prefix_refl _⟩ (numbered ▸ Run.numberAll_keeps ..)
    refine ⟨⟨by simpa using consistent, ?_, ?_, ?_⟩, kept, frozen.trans frozen',
      phase.trans (phase_front front)⟩
    · have called := fun m member =>
        Snapshot.calls_proper sound ((Snapshot.mem_mentions sound drafted m).mp member)
      exact numbered ▸ numberAll_proper called proper
    · intro file known
      rcases Run.numberAll_files mode draft.attributes _ file (numbered ▸ known) with before | new
      · exact inv.files file before
      · exact Snapshot.draft_files sound drafted file new
    · refine written_append kept (frozen.trans frozen') inv.written ?_
      refine @Written.node s _ ⟨e, node.complete, node.number, draft.tag, result.1⟩ draft
        (frozen' e _ claimed rfl) drafted rfl ?_ ?_
      · exact numbered ▸ Run.numberAll_fst ..
      · exact numbered ▸ Run.numberAll_covers mode draft.attributes _

include sound in
theorem step_total (mode : QualifierMode) (inv : Invariant s turns run) {item : WorkItem}
    {rest : Registry} (front : run.registry.next? = some (item, rest)) :
    ∃ turn run', Step s mode run turn run' := by
  cases item with
  | qualified b q => exact ⟨_, _, .qualified front⟩
  | entity e =>
    obtain ⟨node, found, _, _, begun, _⟩ := Registry.take_entity inv.consistent front
    obtain ⟨draft, drafted⟩ := Snapshot.draft_total sound (inv.proper e node found) node.complete
    exact ⟨_, _, .entity front found drafted⟩

/-- A step is what the front item's turn computes. -/
theorem turn_of_step (inv : Invariant s turns run) {turn : Turn} {run' : Run}
    (step : Step s mode run turn run') : ∃ rest, run.registry.next? = some (turn.item, rest) ∧
      Dump.turn s mode turn.item { run with registry := rest } = .ok (turn, run') := by
  cases step with
  | qualified front => exact ⟨_, front, rfl⟩
  | entity front found drafted =>
    obtain ⟨node, found', _, _, begun, _⟩ := Registry.take_entity inv.consistent front
    cases found.symm.trans found'
    refine ⟨_, front, ?_⟩
    simp only [turn_entity, begun, drafted, Outcome.ok_bind]
    rfl

end Steps

/-! Every item is taken once, so the number of items there can be bounds the number of turns. -/

end Dump

namespace Snapshot

def entities (s : Snapshot) : List Entity :=
  (List.range s.document.decls.size).map (fun i => .decl (.ofIndex i)) ++
    (List.range s.document.types.size).map (fun i => .type (.plain (.ofIndex i)))

theorem mem_entities {s : Snapshot} (sound : s.Sound) {e : Entity} (proper : s.Proper e) :
    e ∈ s.entities := by
  rw [entities, List.mem_append, List.mem_map, List.mem_map]
  cases e with
  | decl d =>
    have inside := sound.hasDecl_of_canonical proper
    exact .inl ⟨d.index, List.mem_range.mpr inside, by rw [DeclId.ofIndex_index]⟩
  | type t =>
    obtain ⟨plain, type, found, _⟩ := proper
    have inside := (Array.getElem?_eq_some_iff.mp (type_eq_ok.mp found)).1
    have same : TypeId.ofIndex t.type.index = t.type := by simp [TypeId.ofIndex, TypeId.index]
    exact .inr ⟨t.type.index, List.mem_range.mpr inside, by rw [same, ← plain]⟩

theorem length_entities (s : Snapshot) :
    s.entities.length = s.document.decls.size + s.document.types.size := by
  simp [entities]

end Snapshot

namespace Dump

def someQualifiers : List Qualifiers :=
  [⟨true, false, false⟩, ⟨false, true, false⟩, ⟨true, true, false⟩, ⟨false, false, true⟩,
    ⟨true, false, true⟩, ⟨false, true, true⟩, ⟨true, true, true⟩]

theorem mem_someQualifiers (q : Qualifiers) (some : q ≠ .none) : q ∈ someQualifiers := by
  obtain ⟨c, v, r⟩ := q
  cases c <;> cases v <;> cases r <;> simp_all [someQualifiers, Qualifiers.none]

/-- All items that can be queued when `count` entities have numbers. -/
def itemsUpTo (s : Snapshot) (count : Nat) : List WorkItem :=
  s.entities.map .entity ++
    (List.range' 1 count).flatMap fun b => someQualifiers.map (.qualified b)

theorem length_itemsUpTo (s : Snapshot) (count : Nat) :
    (itemsUpTo s count).length = s.entities.length + 7 * count := by
  simp [itemsUpTo, someQualifiers, List.length_flatMap, Nat.mul_comm]

section Progress

variable {s : Snapshot} {mode : QualifierMode} (sound : s.Sound) {turns : List Turn} {run : Run}
include sound

theorem count_le (inv : Invariant s turns run) :
    run.registry.count ≤ s.document.decls.size + s.document.types.size := by
  have within : run.registry.nodes.keys ⊆ s.entities := by
    intro e known
    obtain ⟨node, found⟩ := NodeTable.mem_keys_iff.mp known
    exact Snapshot.mem_entities sound (inv.proper e node found)
  have bound := (List.subperm_of_subset inv.consistent.keys within).length_le
  rwa [← inv.consistent.toNumbered.count_eq, Snapshot.length_entities] at bound

theorem items_within (inv : Invariant s turns run) :
    turns.map (·.item) ++ run.registry.queue.items ⊆ itemsUpTo s run.registry.count := by
  intro item member
  rw [itemsUpTo, List.mem_append, List.mem_map, List.mem_flatMap]
  cases item with
  | entity e =>
    refine .inl ⟨e, ?_, rfl⟩
    rcases List.mem_append.mp member with taken | queued
    · obtain ⟨node, found, _⟩ := (inv.consistent.taken_iff e).mp taken
      exact Snapshot.mem_entities sound (inv.proper e node found)
    · obtain ⟨node, found, _⟩ := (inv.consistent.queued_iff e).mp queued
      exact Snapshot.mem_entities sound (inv.proper e node found)
  | qualified b q =>
    have asked := (inv.consistent.qualified_iff b q).mp member
    obtain ⟨numbered, some⟩ := inv.consistent.bases b q asked
    rw [inv.consistent.numbers] at numbered
    exact .inr ⟨b, numbered, List.mem_map.mpr ⟨q, mem_someQualifiers q some, rfl⟩⟩

theorem turns_le (inv : Invariant s turns run) :
    turns.length + run.registry.queue.items.length ≤ turnLimit s := by
  have bound := (List.subperm_of_subset inv.consistent.distinct (items_within sound inv)).length_le
  have count := count_le sound inv
  rw [length_itemsUpTo, Snapshot.length_entities, List.length_append, List.length_map] at bound
  unfold turnLimit
  omega

/-- There is an end to the turns: the queue runs empty. -/
theorem turns_total (mode : QualifierMode) (limit : Nat) (inv : Invariant s turns run)
    (enough : turnLimit s ≤ turns.length + limit) :
    ∃ later last, Turns s mode run later last ∧ last.registry.queue.items = [] := by
  induction limit generalizing turns run with
  | zero =>
    have bound := turns_le sound inv
    exact ⟨[], run, .done run, List.eq_nil_of_length_eq_zero (by omega)⟩
  | succ limit ih =>
    cases front : run.registry.next? with
    | none => exact ⟨[], run, .done run, Registry.next?_eq_none.mp front⟩
    | some next =>
      obtain ⟨turn, mid, step⟩ := step_total sound mode inv front
      have after := (step_invariant sound inv step).1
      obtain ⟨later, last, steps, drained⟩ := ih after (by simp; omega)
      exact ⟨turn :: later, last, .next step steps, drained⟩

theorem drain_eq (inv : Invariant s turns run) {later : List Turn} {last : Run}
    (steps : Turns s mode run later last) (drained : last.registry.queue.items = []) {limit : Nat}
    (enough : later.length ≤ limit) : drain s mode limit run = .ok (later, last) := by
  induction steps generalizing turns limit with
  | done run =>
    rw [drain_unfold, Registry.next?_eq_none.mpr drained]
    rfl
  | @next run first mid rest last step _ ih =>
    obtain ⟨rest, front, turned⟩ := turn_of_step inv step
    cases limit with
    | zero => cases enough
    | succ limit =>
      have after := (step_invariant sound inv step).1
      rw [drain_unfold, front]
      simp only [turned, ih after drained (Nat.le_of_succ_le_succ enough), Outcome.ok_bind]
      rfl

/-- What every turn keeps, a whole series of them keeps. -/
theorem turns_induction {P : List Turn → Run → Prop}
    (step : ∀ turns run turn run', Invariant s turns run → Step s mode run turn run' →
      P turns run → P (turns ++ [turn]) run')
    (inv : Invariant s turns run) (start : P turns run) {later : List Turn} {last : Run}
    (steps : Turns s mode run later last) : P (turns ++ later) last := by
  induction steps generalizing turns with
  | done run =>
    rw [List.append_nil]
    exact start
  | @next run first mid rest last taken _ ih =>
    have final := ih (step_invariant sound inv taken).1 (step _ _ _ _ inv taken start)
    rwa [List.append_assoc] at final

theorem turns_invariant (inv : Invariant s turns run) {later : List Turn} {last : Run}
    (steps : Turns s mode run later last) :
    Invariant s (turns ++ later) last ∧ run.Keeps last ∧
      run.registry.Freezes last.registry ∧ last.registry.phase = run.registry.phase := by
  refine turns_induction sound (P := fun turns last => Invariant s turns last ∧ run.Keeps last ∧
    run.registry.Freezes last.registry ∧ last.registry.phase = run.registry.phase) ?_ inv
    ⟨inv, .refl run, .refl _, rfl⟩ steps
  rintro turns mid turn after - step ⟨inv, kept, frozen, phase⟩
  obtain ⟨inv', kept', frozen', phase'⟩ := step_invariant sound inv step
  exact ⟨inv', kept.trans kept', frozen.trans frozen', phase'.trans phase⟩

end Progress

end Dump

end AstXml
