import AstXml.Cli.Run
import AstXml.Proofs.FileSystem
import AstXml.Proofs.RoundTrip
import AstXml.Proofs.Cli.Arguments

/-!
A run of the command line on usable arguments. The configuration is loaded, then the document, then
the output is created, and the first that fails ends the run with the files as they were. After
that only the system can refuse to write: the dump is written in full, to the output file or else
to the standard output.
-/
namespace AstXml
open FileSystem

namespace Snapshot

variable {read : ReadFile} {path text : String} {s : Snapshot}

theorem parse_sound (parsed : parse text = .ok s) : s.Sound := by
  unfold parse at parsed
  split at parsed
  case h_1 => cases parsed
  case h_2 d _ =>
    split at parsed
    case h_1 => cases parsed
    case h_2 accepted =>
      obtain ⟨s', indexed, _, sound⟩ := ofDocument_sound (d.validate_ok_iff.mp accepted)
      rw [indexed] at parsed
      cases parsed
      exact sound

theorem load_eq_ok :
    load read path = .ok s ↔ ∃ text, read path = .ok text ∧ parse text = .ok s := by
  cases found : read path with
  | error why => simp [load, found]
  | ok text => cases parsed : parse text <;> simp [load, found, parsed, Except.mapError]

theorem load_error {why : LoadError} (failed : load read path = .error why) :
    why.message = s!"Failed to read AST document {path}" ∨
      why.message = s!"Failed to load AST document {path}" := by
  unfold load at failed
  split at failed
  case h_1 =>
    cases failed
    exact .inl rfl
  case h_2 text _ =>
    cases parsed : parse text with
    | ok s => simp [parsed, Except.mapError] at failed
    | error cause =>
      simp only [parsed, Except.mapError, Except.error.injEq] at failed
      exact .inr (failed ▸ rfl)

end Snapshot

theorem Config.load_error {read : ReadFile} {path : String} {why : LoadError}
    (failed : Config.load read path = .error why) :
    why.message = s!"Cannot read config {path}" ∨ why.message = s!"Invalid config {path}" := by
  unfold load at failed
  split at failed
  case h_1 =>
    cases failed
    exact .inl rfl
  case h_2 text _ =>
    split at failed <;> cases failed
    exact .inr rfl

theorem FileSystem.read_of_text {σ : Type} [FileSystem σ] {state : σ} {path text : String}
    (found : readBytes path state = some text.toUTF8) : read state path = .ok text := by
  have decoded : String.fromUTF8? text.toUTF8 = some text := dif_pos text.isValidUTF8
  simp only [read, found, decoded]

namespace Cli

namespace Request

variable {request : Request} {read : ReadFile} {config : Config} {s : Snapshot} {why : LoadError}

/-- The configuration of a request, or the default. -/
def configuration (request : Request) (read : ReadFile) : Except LoadError Config :=
  match request.config with
  | some path => Config.load read path
  | none => .ok Config.default

theorem options_eq (request : Request) (read : ReadFile) : request.options read =
    (request.configuration read).map (·.options request.start request.elements) := by
  unfold options configuration
  cases request.config with
  | none => rfl
  | some path => cases Config.load read path <;> rfl

theorem load_unconfigured (failed : request.configuration read = .error why) :
    request.load read = .error why := by
  rw [load, options_eq, failed]
  rfl

theorem load_unloaded (configured : request.configuration read = .ok config)
    (failed : Snapshot.load read request.input = .error why) :
    request.load read = .error why := by
  rw [load, options_eq, configured, failed]
  rfl

theorem load_eq (configured : request.configuration read = .ok config)
    (loaded : Snapshot.load read request.input = .ok s) :
    request.load read = .ok (s, config.options request.start request.elements) := by
  rw [load, options_eq, configured, loaded]
  rfl

/-- A snapshot that can be loaded can be dumped. -/
theorem dump_total {path : String} (loaded : Snapshot.load read path = .ok s) (options : Options) :
    ∃ report, dump s options = .ok report := by
  obtain ⟨_, _, parsed⟩ := Snapshot.load_eq_ok.mp loaded
  have sound := Snapshot.parse_sound parsed
  obtain ⟨report, ⟨course⟩⟩ := Dump.course_total sound options
  exact ⟨report, course.dumped sound⟩

variable {σ : Type} [FileSystem σ]

/-- What a run comes to that is to write the dump of `s` to the file of a path. -/
structure Written (s : Snapshot) (options : Options) (path : String) (state : σ)
    (outcome : Outcome σ) : Prop where
  uncreated : (create path state).1 = none → outcome = ⟨1, "", some (.uncreated path), state⟩
  created : ∀ file start, create path state = (some file, start) →
    ∃ report, dump s options = .ok report ∧
      (∀ last, (writer file).serve report.requests start = (none, last) →
        Replaced state path file report.text.toUTF8 last ∧ outcome = ⟨0, "", none, last⟩) ∧
      ∀ why last, (writer file).serve report.requests start = (some why, last) →
        Touched file state last ∧ outcome = ⟨1, "", some (.unwritten (.refused why)), last⟩

/-- What comes of a request. -/
structure Served (request : Request) (state : σ) (outcome : Outcome σ) : Prop where
  unconfigured : ∀ path why, request.config = some path →
    Config.load (FileSystem.read state) path = .error why →
    (why.message = s!"Cannot read config {path}" ∨ why.message = s!"Invalid config {path}") ∧
      outcome = ⟨1, "", some (.load why), state⟩
  unloaded : ∀ config why, request.configuration (FileSystem.read state) = .ok config →
    Snapshot.load (FileSystem.read state) request.input = .error why →
    (why.message = s!"Failed to read AST document {request.input}" ∨
      why.message = s!"Failed to load AST document {request.input}") ∧
      outcome = ⟨1, "", some (.load why), state⟩
  shown : ∀ config s, request.configuration (FileSystem.read state) = .ok config →
    Snapshot.load (FileSystem.read state) request.input = .ok s → request.output = none →
    ∃ report, dump s (config.options request.start request.elements) = .ok report ∧
      outcome = ⟨0, report.text, none, state⟩
  written : ∀ config s path, request.configuration (FileSystem.read state) = .ok config →
    Snapshot.load (FileSystem.read state) request.input = .ok s → request.output = some path →
    Written s (config.options request.start request.elements) path state outcome

variable [LawfulFileSystem σ] {state : σ}

theorem serve_written {path : String}
    (configured : request.configuration (FileSystem.read state) = .ok config)
    (loaded : Snapshot.load (FileSystem.read state) request.input = .ok s)
    (output : request.output = some path) :
    Written s (config.options request.start request.elements) path state
      (request.serve state) := by
  obtain ⟨report, dumped⟩ := dump_total loaded (config.options request.start request.elements)
  constructor
  case uncreated =>
    intro refused
    cases creation : create path state with
    | mk file after =>
    rw [creation] at refused
    cases refused
    cases LawfulFileSystem.uncreated creation
    simp only [serve, load_eq configured loaded, output, creation]
  case created =>
    intro file start created
    have written := dumpInto_eq (writer file) dumped start
    refine ⟨report, dumped, fun last served => ⟨?_, ?_⟩, fun why last served => ⟨?_, ?_⟩⟩
    · rw [← report.join_writes]
      exact replaced_of_served created served
    · rw [served] at written
      simp only [serve, load_eq configured loaded, output, created, written, Report.ended]
    · have touched := serve_touched file report.requests start
      rw [served] at touched
      exact (LawfulFileSystem.created created).1.trans touched
    · rw [served] at written
      simp only [serve, load_eq configured loaded, output, created, written, Report.ended]

theorem serve_served (request : Request) (state : σ) :
    request.Served state (request.serve state) where
  unconfigured path why given failed := by
    have unconfigured : request.configuration (FileSystem.read state) = .error why := by
      simp only [configuration, given, failed]
    exact ⟨Config.load_error failed, by simp only [serve, load_unconfigured unconfigured]⟩
  unloaded config why configured failed :=
    ⟨Snapshot.load_error failed, by simp only [serve, load_unloaded configured failed]⟩
  shown config s configured loaded output := by
    obtain ⟨report, dumped⟩ := dump_total loaded (config.options request.start request.elements)
    exact ⟨report, dumped, by simp only [serve, load_eq configured loaded, output, dumped]⟩
  written _ _ _ configured loaded output := serve_written configured loaded output

end Request

end Cli

end AstXml
