import AstXml.Proofs.Turns

/-!
The course of a dump of a sound snapshot: the start set is registered, the first drain runs until
nothing waits, stubs are accepted, the second drain runs until nothing waits, and the source files
are listed. None of it fails.
-/
namespace AstXml
open Outcome

namespace Snapshot

variable {s : Snapshot} (sound : s.Sound)
include sound

theorem lookup_total {scope : DeclId} (inside : s.HasDecl scope) (name : String) :
    ∃ found, s.lookup scope name = .ok found ∧ ∀ d ∈ found, s.HasDecl d := by
  obtain ⟨body, defined, within⟩ := sound.definition_total inside
  have inside' : s.HasDecl (body.getD scope) := by
    cases body with
    | none => exact inside
    | some b => exact within b rfl
  obtain ⟨decl, found⟩ := decl_total inside'
  have children := inside_of_child sound found
  obtain ⟨found', filtered, kept⟩ := filterDecls_total children (·.name == name)
  refine ⟨found', ?_, fun d member => children d ((kept d).mp member).1⟩
  simp only [Snapshot.lookup, defined, ok_bind, found]
  exact filtered

end Snapshot

namespace StartName

variable {s : Snapshot} (sound : s.Sound)
include sound

theorem walk_total (path : List String) {scope : DeclId} (inside : s.HasDecl scope) :
    ∃ found, walk s path scope = .ok found ∧ ∀ d ∈ found, s.HasDecl d := by
  induction path generalizing scope with
  | nil => exact ⟨[scope], rfl, by simpa using inside⟩
  | cons name rest ih =>
    obtain ⟨found, looked, inside'⟩ := Snapshot.lookup_total sound inside name
    cases rest with
    | nil => exact ⟨found, looked, inside'⟩
    | cons next rest =>
      obtain ⟨scopes, filtered, kept⟩ := Snapshot.filterDecls_total inside' (·.kind.isContainer)
      have within := fun d member => inside' d ((kept d).mp member).1
      obtain ⟨results, mapped⟩ := mapM_total (f := walk s (next :: rest)) fun d member => by
        obtain ⟨found, walked, _⟩ := ih (within d member)
        exact ⟨found, walked⟩
      refine ⟨results.flatten, ?_, fun d member => ?_⟩
      · rw [walk, looked, ok_bind, filtered, ok_bind, mapped]
        · rfl
        · simp
      · obtain ⟨found, listed, member⟩ := List.mem_flatten.mp member
        obtain ⟨d', kept, walked⟩ := (mem_mapM mapped found).mp listed
        obtain ⟨found', walked', inside''⟩ := ih (within d' kept)
        cases walked.symm.trans walked'
        exact inside'' d member

end StartName

namespace Dump

variable {s : Snapshot}

theorem startDecls_total (sound : s.Sound) (names : List String) :
    ∃ start, startDecls s names = .ok start ∧ ∀ d ∈ start, s.HasDecl d := by
  unfold startDecls
  split
  · exact ⟨[.root], rfl, by simpa using sound.hasDecl_root⟩
  · have total := fun name (_ : name ∈ names) =>
      StartName.walk_total sound (StartName.segments name) sound.hasDecl_root
    obtain ⟨results, mapped⟩ := mapM_total (f := StartName.resolve s) fun name listed =>
      (total name listed).imp fun _ => And.left
    refine ⟨results.flatten, by rw [mapped]; rfl, fun d member => ?_⟩
    obtain ⟨found, listed, member⟩ := List.mem_flatten.mp member
    obtain ⟨name, named, walked⟩ := (mem_mapM mapped found).mp listed
    obtain ⟨found', walked', inside⟩ := total name named
    cases walked.symm.trans walked'
    exact inside d member

def Seeds (s : Snapshot) (start : List DeclId) (m : Mention) : Prop :=
  ∃ d ∈ start, ∃ c, s.canonical d = .ok c ∧ m = ⟨.decl c, true⟩

/-- How the report of a dump came about. -/
structure Course (s : Snapshot) (options : Options) (report : Report) where
  start : List DeclId
  seeds : List Mention
  middle : Run
  resolved : startDecls s options.startNames = .ok start
  seeded : start.mapM (s.mentionDecl · true) = .ok seeds
  whole : Turns s options.qualifiers (Run.mentionAll seeds .start).2 report.whole middle
  drained : middle.registry.queue.items = []
  stubs : Turns s options.qualifiers (acceptStubs middle) report.stubs report.last
  finished : report.last.registry.queue.items = []
  listed : report.last.files.unlisted.mapM (listFile s) = .ok report.files

theorem start_invariant : Invariant s [] Run.start where
  consistent := Registry.empty_consistent
  proper e node found := by simp [Run.start] at found
  files file known := by simp [Run.start, FileTable.empty] at known
  written turn member := by simp at member

theorem mem_seeds {start : List DeclId} {seeds : List Mention}
    (seeded : start.mapM (s.mentionDecl · true) = .ok seeds) (m : Mention) :
    m ∈ seeds ↔ Seeds s start m := by
  simp only [mem_mapM seeded, Snapshot.mentionDecl_eq_ok, Seeds]

theorem seed_eq {names : List String} {start : List DeclId} {seeds : List Mention}
    (resolved : startDecls s names = .ok start)
    (seeded : start.mapM (s.mentionDecl · true) = .ok seeds) :
    seed s names = .ok (Run.mentionAll seeds .start).2 := by
  rw [seed_unfold, resolved, ok_bind, seeded]
  rfl

theorem seed_invariant (sound : s.Sound) {start : List DeclId} {seeds : List Mention}
    (seeded : start.mapM (s.mentionDecl · true) = .ok seeds) :
    Invariant s [] (Run.mentionAll seeds .start).2 ∧
      (Run.mentionAll seeds .start).2.registry.phase = .requireComplete := by
  have started : Invariant s [] Run.start := start_invariant
  obtain ⟨consistent, early, proper⟩ := Run.mentionAll_induction
    (P := fun r => r.Consistent [] ∧ r.phase = .requireComplete ∧
      ∀ e node, r.nodes.get? e = some node → s.Proper e)
    (by
      rintro m (member : m ∈ seeds) r ⟨consistent, early, proper⟩
      refine ⟨Registry.register_consistent consistent _ (by simp [early]), early, ?_⟩
      intro e node found
      rcases Registry.get?_of_register found with before | ⟨rfl, _⟩
      · exact proper e node before
      · obtain ⟨d, _, c, hc, rfl⟩ := (mem_seeds seeded m).mp member
        exact sound.canonical_idem hc)
    .start ⟨started.consistent, rfl, started.proper⟩
  refine ⟨⟨consistent, proper, ?_, by simp⟩, early⟩
  rw [Run.mentionAll_files]
  exact started.files

theorem acceptStubs_invariant {turns : List Turn} {run : Run} (inv : Invariant s turns run)
    (drained : run.registry.queue.items = []) (early : run.registry.phase = .requireComplete) :
    Invariant s turns (acceptStubs run) ∧ run.Keeps (acceptStubs run) ∧
      run.registry.Freezes (acceptStubs run).registry := by
  have kept : run.Keeps (acceptStubs run) :=
    ⟨fun _ node found => ⟨node, found, rfl, id⟩, List.prefix_refl _⟩
  have frozen : run.registry.Freezes (acceptStubs run).registry := fun _ _ found _ => found
  refine ⟨⟨?_, inv.proper, inv.files, fun turn member => ?_⟩, kept, frozen⟩
  · exact Registry.acceptIncomplete_consistent inv.consistent drained early
  · exact (inv.written turn member).mono kept frozen

namespace Course

variable {options : Options} {report : Report} (course : Course s options report)
  (sound : s.Sound)
include sound

theorem middle_invariant : Invariant s report.whole course.middle ∧
    course.middle.registry.phase = .requireComplete := by
  obtain ⟨inv, early⟩ := seed_invariant sound course.seeded
  obtain ⟨after, _, _, phase⟩ := turns_invariant sound inv course.whole
  exact ⟨after, phase.trans early⟩

theorem accepted_invariant : Invariant s report.whole (acceptStubs course.middle) :=
  (acceptStubs_invariant (course.middle_invariant sound).1 course.drained
    (course.middle_invariant sound).2).1

include course in
theorem last_invariant : Invariant s (report.whole ++ report.stubs) report.last ∧
    report.last.registry.phase = .acceptIncomplete := by
  have accepted := course.accepted_invariant sound
  obtain ⟨after, _, _, phase⟩ := turns_invariant sound accepted course.stubs
  exact ⟨after, phase⟩

theorem drain_whole : drain s options.qualifiers (turnLimit s)
    (Run.mentionAll course.seeds .start).2 = .ok (report.whole, course.middle) := by
  have bound := turns_le sound (course.middle_invariant sound).1
  exact drain_eq sound (seed_invariant sound course.seeded).1 course.whole course.drained (by omega)

theorem drain_stubs : drain s options.qualifiers (turnLimit s) (acceptStubs course.middle) =
    .ok (report.stubs, report.last) := by
  have bound := turns_le sound (course.last_invariant sound).1
  rw [List.length_append] at bound
  exact drain_eq sound (course.accepted_invariant sound) course.stubs course.finished (by omega)

include course in
theorem dumped : dump s options = .ok report := by
  simp only [dump_unfold, seed_eq course.resolved course.seeded, course.drain_whole sound,
    course.drain_stubs sound, course.listed, ok_bind]
  rfl

include course in
/-- What the start set establishes, and every turn and the change of phase keep, holds at the
end. -/
theorem induction {P : List Turn → Run → Prop}
    (start : P [] (Run.mentionAll course.seeds .start).2)
    (step : ∀ turns run turn run', Invariant s turns run →
      Step s options.qualifiers run turn run' → P turns run → P (turns ++ [turn]) run')
    (accept : ∀ turns run, P turns run → P turns (acceptStubs run)) :
    P (report.whole ++ report.stubs) report.last := by
  have seeded := (seed_invariant sound course.seeded).1
  have middle := turns_induction sound step seeded start course.whole
  exact turns_induction sound step (course.accepted_invariant sound) (accept _ _ middle)
    course.stubs

end Course

theorem course_total (sound : s.Sound) (options : Options) :
    ∃ report, Nonempty (Course s options report) := by
  obtain ⟨start, resolved, inside⟩ := startDecls_total sound options.startNames
  obtain ⟨seeds, seeded⟩ := mapM_total (f := (s.mentionDecl · true)) fun d member => by
    obtain ⟨c, hc, _⟩ := sound.canonical_total (inside d member)
    exact ⟨_, Snapshot.mentionDecl_eq_ok.mpr ⟨c, hc, rfl⟩⟩
  obtain ⟨inv, early⟩ := seed_invariant sound seeded
  obtain ⟨whole, middle, turns, drained⟩ :=
    turns_total sound options.qualifiers (turnLimit s) inv (by simp)
  obtain ⟨middle_inv, _, _, phase⟩ := turns_invariant sound inv turns
  obtain ⟨accepted, _, _⟩ := acceptStubs_invariant middle_inv drained (phase.trans early)
  obtain ⟨stubs, last, turns', finished⟩ :=
    turns_total sound options.qualifiers (turnLimit s) accepted (by omega)
  obtain ⟨last_inv, _⟩ := turns_invariant sound accepted turns'
  obtain ⟨files, listed⟩ := mapM_total (f := listFile s)
    fun file (member : file ∈ last.files.unlisted) => by
      have known : file.1 ∈ last.files.known :=
        List.fst_mem_of_mem_zipIdx (List.mem_of_mem_drop member)
      obtain ⟨name, found⟩ := Snapshot.fileName_total (last_inv.files file.1 known)
      exact ⟨_, by rw [listFile, found]; rfl⟩
  exact ⟨⟨whole, stubs, files, last⟩,
    ⟨⟨start, seeds, middle, resolved, seeded, turns, drained, turns', finished, listed⟩⟩⟩

/-- An accepted document can be dumped. -/
theorem course_of_accepted {d : Document} (accepted : d.validate = .ok ()) (options : Options) :
    ∃ s report, Snapshot.ofDocument d = .ok s ∧ s.Sound ∧ Nonempty (Course s options report) := by
  have wellFormed := (Document.validate_ok_iff d).mp accepted
  obtain ⟨s, indexed, _, sound⟩ := Snapshot.ofDocument_sound wellFormed
  obtain ⟨report, course⟩ := course_total sound options
  exact ⟨s, report, indexed, sound, course⟩

end Dump

end AstXml
