import AstXml.Proofs.Safety
import AstXml.Streaming

/-!
A dump into a writer. Whatever the writer, the dump makes the same requests, in the same order, up
to the first one that is refused: they are the pieces of the document and then a flush. So a sink
with too little room is left with a prefix of the document, cut where the room ends.
-/
namespace AstXml
open Outcome

/-- The texts written for an element, in order. -/
def Element.writes : Element → List String
  | .node element =>
    Xml.openElement element.tag.text :: Xml.plainAttribute "id" (nodeId element.number)
      :: (element.attributes.flatMap (·.pieces) ++ [Xml.closeElement])
  | other => other.pieces

namespace Report

def writes (r : Report) : List String :=
  Xml.startDocument :: (r.elements.flatMap (·.writes) ++ [Xml.endDocument])

/-- What a dump asks of its writer, in order. -/
def requests (r : Report) : List Writer.Request := r.writes.map .text ++ [.flush]

end Report

/-! The pieces of a document, taken together, are its text. -/

theorem join_flatMap {α : Type} (f : α → List String) (xs : List α) :
    String.join (xs.flatMap f) = String.join (xs.map fun x => String.join (f x)) := by
  induction xs with
  | nil => rfl
  | cons x rest ih => simp [ih]

theorem Xml.join_listPieces (name : String) (values : List String) :
    String.join (Xml.listPieces name values) = Xml.listAttribute name values := by
  have spaced : ∀ (first : String) (rest : List String),
      " ".intercalate (first :: rest) = first ++ String.join (rest.map (" " ++ ·)) := by
    intro first rest
    induction rest generalizing first with
    | nil => simp
    | cons second rest ih => simp [String.intercalate_cons_cons, ih, String.append_assoc]
  cases values with
  | nil => rfl
  | cons first rest =>
    simp [Xml.listPieces, Xml.listAttribute, Xml.plainAttribute, spaced, String.append_assoc]

theorem Attribute.join_pieces (a : Attribute Nat Nat) : String.join a.pieces = a.text := by
  cases a with
  | members nodes => exact Xml.join_listPieces ..
  | location file line => simp [pieces, text, String.append_assoc]
  | _ => simp [pieces, text]

theorem Element.join_writes (element : Element) :
    String.join element.writes = String.join element.pieces := by
  cases element with
  | node element =>
    simp [writes, pieces, tagText, attributeTexts, join_flatMap, Attribute.join_pieces]
  | _ => rfl

theorem Report.join_writes (r : Report) : String.join r.writes = r.text := by
  simp [writes, text, pieces, join_flatMap, Element.join_writes]

namespace Writer

variable {ε σ : Type} (out : Writer ε σ)

theorem serve_append (first second : List Request) (start : σ) :
    out.serve (first ++ second) start =
      match out.serve first start with
      | (none, mid) => out.serve second mid
      | (some why, last) => (some why, last) := by
  induction first generalizing start with
  | nil => rfl
  | cons request rest ih =>
    simp only [List.cons_append, serve]
    split
    · exact ih _
    · rfl

/-- A refusal comes from one of the requests, and it is the last thing that happens. -/
theorem serve_refused {requests : List Request} {start last : σ} {why : ε}
    (refused : out.serve requests start = (some why, last)) :
    ∃ granted request rest mid, requests = granted ++ request :: rest ∧
      out.serve granted start = (none, mid) ∧ out.answer request mid = (some why, last) := by
  induction requests generalizing start with
  | nil => cases refused
  | cons request rest ih =>
    rw [serve] at refused
    cases answered : out.answer request start with
    | mk answer mid =>
      simp only [answered] at refused
      cases answer with
      | none =>
        obtain ⟨granted, request', rest', mid', rfl, served, answered'⟩ := ih refused
        refine ⟨request :: granted, request', rest', mid', rfl, ?_, answered'⟩
        rw [serve, answered]
        exact served
      | some =>
        cases refused
        exact ⟨[], request, rest, start, rfl, rfl, answered⟩

end Writer

namespace Streaming

variable {ε σ α β : Type} (out : Writer ε σ)

/-- On the way from `run` to `last` the action makes the given requests and no others, and has the
given answer in the end. It breaks off when one of them is refused. -/
def Asks (action : Streaming ε σ α) (run : Run) (requests : List Writer.Request) (answer : α)
    (last : Run) : Prop :=
  ∀ start,
    match out.serve requests start with
    | (none, writer) => action ⟨run, start⟩ = .ok answer ⟨last, writer⟩
    | (some why, writer) => ∃ mid, action ⟨run, start⟩ = .error (.refused why) ⟨mid, writer⟩

variable {out}

theorem Asks.bind {action : Streaming ε σ α} {next : α → Streaming ε σ β} {run mid last : Run}
    {first second : List Writer.Request} {a : α} {b : β} (here : Asks out action run first a mid)
    (there : Asks out (next a) mid second b last) :
    Asks out (action >>= next) run (first ++ second) b last := by
  intro start
  have begun := here start
  rw [Writer.serve_append]
  simp only [Bind.bind, EStateM.bind]
  split at begun
  · rename_i writer served
    simp only [begun]
    exact there writer
  · obtain ⟨stopped, begun⟩ := begun
    simp only [begun]
    exact ⟨stopped, rfl⟩

theorem Asks.congr {action : Streaming ε σ α} {run last : Run} {first second : List Writer.Request}
    {a : α} (same : first = second) (h : Asks out action run first a last) :
    Asks out action run second a last :=
  same ▸ h

theorem asks_pure (answer : α) (run : Run) : Asks out (pure answer) run [] answer run :=
  fun _ => rfl

theorem asks_advance (step : Run → α × Run) (run : Run) :
    Asks out (advance step) run [] (step run).1 (step run).2 :=
  fun _ => rfl

theorem asks_attempt {x : Except Fault α} {answer : α} (ended : x = .ok answer) (run : Run) :
    Asks out (attempt x) run [] answer run := by
  subst ended
  exact asks_pure answer run

theorem asks_ask (request : Writer.Request) (run : Run) :
    Asks out (ask out request) run [request] () run := by
  intro start
  simp only [Writer.serve, ask]
  cases out.answer request start with
  | mk refused writer =>
    cases refused with
    | none => rfl
    | some why => exact ⟨run, rfl⟩

theorem asks_writeAll (pieces : List String) (run : Run) :
    Asks out (pieces.forM (write out)) run (pieces.map .text) () run := by
  induction pieces with
  | nil => exact asks_pure () run
  | cons piece rest ih => exact (asks_ask (.text piece) run).bind ih

theorem asks_writeAttribute (mode : QualifierMode) (a : DraftAttribute) (run : Run) :
    Asks out (writeAttribute out mode a) run ((run.number mode a).1.pieces.map .text) ()
      (run.number mode a).2 :=
  (asks_advance (fun run => run.number mode a) run).bind (asks_writeAll _ _)

theorem asks_writeAttributes (mode : QualifierMode) (as : List DraftAttribute) (run : Run) :
    Asks out (as.forM (writeAttribute out mode)) run
      (((Run.numberAll mode as run).1.flatMap (·.pieces)).map .text) ()
      (Run.numberAll mode as run).2 := by
  induction as generalizing run with
  | nil => exact asks_pure () run
  | cons a rest ih =>
    have first : Asks out (writeAttribute out mode a) run _ _ _ := asks_writeAttribute mode a run
    simpa [Run.numberAll_cons] using first.bind (ih (run.number mode a).2)

section Drain

variable {s : Snapshot} {mode : QualifierMode} {run last : Run}

theorem asks_writeNode {e : Entity} {node : Node} {draft : Draft}
    (drafted : s.draft e node.complete = .ok draft) :
    Asks out (writeNode out s mode e node) run
      ((Element.node ⟨e, node.complete, node.number, draft.tag,
        (Run.numberAll mode draft.attributes run).1⟩).writes.map .text) ()
      (Run.numberAll mode draft.attributes run).2 := by
  unfold writeNode
  refine .congr ?_ <| (asks_attempt drafted run).bind <|
    (asks_ask (.text (Xml.openElement draft.tag.text)) run).bind <|
    (asks_ask (.text (Xml.plainAttribute "id" (nodeId node.number))) run).bind <|
    (asks_writeAttributes mode draft.attributes run).bind (asks_ask (.text Xml.closeElement) _)
  simp [Element.writes]

/-- Writing an item makes the requests for the element of its turn. -/
theorem asks_writeItem {item : WorkItem} {turn : Turn}
    (turned : Dump.turn s mode item run = .ok (turn, last)) :
    Asks out (writeItem out s mode item) run
      ((turn.element.toList.flatMap (·.writes)).map .text) turn.element.isSome last := by
  cases item with
  | qualified base quals =>
    cases pure_eq_ok.mp turned
    refine .congr ?_ <| (asks_writeAll _ run).bind (asks_pure true run)
    simp [Element.writes]
  | entity e =>
    rw [Dump.turn_entity] at turned
    refine .congr (List.nil_append _) <| (asks_advance _ run).bind ?_
    cases begun : run.registry.beginOutput (.entity e) with
    | mk claim registry =>
      cases claim with
      | none =>
        simp only [begun] at turned
        cases pure_eq_ok.mp turned
        exact asks_pure false _
      | some node =>
        simp only [begun, bind_eq_ok] at turned
        obtain ⟨draft, drafted, turned⟩ := turned
        cases pure_eq_ok.mp turned
        refine .congr ?_ <| (asks_writeNode drafted).bind (asks_pure true _)
        simp

theorem asks_drain_nil (limit : Nat) (idle : run.registry.next? = none) :
    Asks out (drain out s mode limit) run [] 0 run := by
  rw [drain]
  refine .congr (List.nil_append _) <| (asks_advance _ run).bind ?_
  rw [idle]
  exact asks_pure 0 run

theorem asks_drain {limit : Nat} {turns : List Turn}
    (drained : Dump.drain s mode limit run = .ok (turns, last)) :
    Asks out (drain out s mode limit) run
      (((turns.filterMap (·.element)).flatMap (·.writes)).map .text)
      (turns.filterMap (·.element)).length last := by
  induction limit generalizing run turns with
  | zero =>
    rw [Dump.drain_unfold] at drained
    cases front : run.registry.next? with
    | none =>
      simp only [front] at drained
      cases pure_eq_ok.mp drained
      exact asks_drain_nil 0 front
    | some next =>
      simp only [front] at drained
      cases drained
  | succ limit ih =>
    rw [Dump.drain_unfold] at drained
    cases front : run.registry.next? with
    | none =>
      simp only [front] at drained
      cases pure_eq_ok.mp drained
      exact asks_drain_nil _ front
    | some next =>
      simp only [front, bind_eq_ok] at drained
      obtain ⟨⟨turn, mid⟩, turned, ⟨rest, last'⟩, drained, same⟩ := drained
      cases pure_eq_ok.mp same
      rw [drain]
      refine .congr (List.nil_append _) <| (asks_advance _ run).bind ?_
      rw [front]
      have both : Asks out (do
          let wrote ← writeItem out s mode next.1
          let rest ← drain out s mode limit
          return wrote.toNat + rest) { run with registry := next.2 } _ _ _ :=
        (asks_writeItem turned).bind ((ih drained).bind (asks_pure _ _))
      cases wrote : turn.element <;> simpa [wrote, Nat.add_comm] using both

theorem asks_writeFiles {files : List Element}
    (listed : run.files.unlisted.mapM (Dump.listFile s) = .ok files) :
    Asks out (writeFiles out s) run ((files.flatMap (·.writes)).map .text) files.length run := by
  have each : ∀ (unlisted : List (FileId × Nat)) (files : List Element),
      List.Forall₂ (fun file element => Dump.listFile s file = .ok element) unlisted files →
      Asks out (unlisted.forM fun file => do
        let element ← attempt (Dump.listFile s file)
        element.pieces.forM (write out)) run ((files.flatMap (·.writes)).map .text) () run := by
    intro unlisted files related
    induction related with
    | nil => exact asks_pure () run
    | @cons file element _ _ found _ ih =>
      have plain : element.writes = element.pieces := by
        simp only [Dump.listFile, bind_eq_ok, pure_eq_ok] at found
        obtain ⟨_, _, rfl⟩ := found
        rfl
      refine .congr ?_ <| ((asks_attempt found run).bind (asks_writeAll element.pieces run)).bind ih
      simp [plain]
  have related := mapM_eq_ok.mp listed
  unfold writeFiles
  rw [← related.length_eq]
  refine .congr ?_ <| (asks_advance (fun run => (run, run)) run).bind <|
    (each _ _ related).bind (asks_pure _ run)
  simp

end Drain

variable (out) in
theorem asks_writeDocument {s : Snapshot} {options : Options} {report : Report}
    (dumped : dump s options = .ok report) :
    Asks out (writeDocument out s options) .start report.requests report.summary report.last := by
  simp only [dump_unfold, bind_eq_ok] at dumped
  obtain ⟨seeded, seed, ⟨whole, middle⟩, first, ⟨stubs, last⟩, second, files, listed, same⟩ :=
    dumped
  cases pure_eq_ok.mp same
  unfold writeDocument
  refine .congr ?_ <| (asks_attempt seed .start).bind <|
    (asks_advance (fun _ => ((), seeded)) .start).bind <|
    (asks_ask (.text Xml.startDocument) _).bind <| (asks_drain first).bind <|
    (asks_advance (fun run => ((), Dump.acceptStubs run)) middle).bind <|
    (asks_drain second).bind <| (asks_writeFiles listed).bind <|
    (asks_ask (.text Xml.endDocument) _).bind <| (asks_ask .flush _).bind <|
    (asks_advance (fun run => (run, run)) last).bind (asks_pure _ last)
  simp [Report.requests, Report.writes, Report.elements, Report.wholeElements, Report.stubElements]

end Streaming

namespace Sink

theorem extract_room {bytes : ByteArray} {room : Nat} (fits : bytes.size ≤ room) :
    bytes.extract 0 room = bytes := by
  ext1
  simp [fits]

theorem write_fits {bytes : ByteArray} {room : Nat} (fits : bytes.size ≤ room) (flushFails : Bool)
    (before : ByteArray) : write ⟨some room, flushFails, before⟩ bytes =
      (none, ⟨some (room - bytes.size), flushFails, before ++ bytes⟩) := by
  simp [write, extract_room fits, fits]

theorem write_cut {bytes : ByteArray} {room : Nat} (cut : room < bytes.size) (flushFails : Bool)
    (before : ByteArray) : write ⟨some room, flushFails, before⟩ bytes =
      (some .full, ⟨some 0, flushFails, before ++ bytes.extract 0 room⟩) := by
  have taken : room - (bytes.extract 0 room).size = 0 := by
    rw [ByteArray.size_extract]
    omega
  simp only [write, taken, if_neg (Nat.not_le_of_lt cut)]

/-- A sink takes what there is room for and no more; only what does not fit is a failure. -/
theorem writeAll_limited (pieces : List String) (room : Nat) (flushFails : Bool)
    (before : ByteArray) :
    writeAll pieces ⟨some room, flushFails, before⟩ =
      (if room < (String.join pieces).toUTF8.size then some .full
        else flush ⟨some room, flushFails, before⟩,
        ⟨some (room - (String.join pieces).toUTF8.size), flushFails,
          before ++ (String.join pieces).toUTF8.extract 0 room⟩) := by
  induction pieces generalizing room before with
  | nil =>
    have nothing : ByteArray.empty.extract 0 room = .empty := by simp
    simp [writeAll, nothing]
  | cons piece rest ih =>
    have text : (String.join (piece :: rest)).toUTF8 =
        piece.toUTF8 ++ (String.join rest).toUTF8 := by
      simp
    rw [text, ByteArray.extract_append, ByteArray.size_append, writeAll]
    by_cases fits : piece.toUTF8.size ≤ room
    · have exceeds : room - piece.toUTF8.size < (String.join rest).toUTF8.size ↔
          room < piece.toUTF8.size + (String.join rest).toUTF8.size := by
        omega
      simp only [write_fits fits, ih, extract_room fits, exceeds, Nat.sub_sub, Nat.zero_sub,
        ByteArray.append_assoc]
      rfl
    · have cut := Nat.lt_of_not_le fits
      have exceeds : room < piece.toUTF8.size + (String.join rest).toUTF8.size := by omega
      have full : room - (piece.toUTF8.size + (String.join rest).toUTF8.size) = 0 := by omega
      have short : room - piece.toUTF8.size = 0 := by omega
      simp only [write_cut cut, if_pos exceeds, full, short, Nat.zero_sub,
        ByteArray.extract_same, ByteArray.append_empty]

theorem serve_writer (pieces : List String) (sink : Sink) :
    Sink.writer.serve (pieces.map .text ++ [.flush]) sink = sink.writeAll pieces := by
  induction pieces generalizing sink with
  | nil =>
    cases failure : sink.flush <;> simp [Writer.serve, writer, writeAll, failure]
  | cons piece rest ih =>
    have answer : writer.answer (.text piece) sink = sink.write piece.toUTF8 := rfl
    simp only [List.map_cons, List.cons_append, Writer.serve, writeAll, answer]
    cases sink.write piece.toUTF8 with
    | mk failure sink =>
      cases failure with
      | none => exact ih sink
      | some why => rfl
end Sink

/-- How a dump ends, by what its requests came to. -/
def Report.ended {ε σ : Type} (r : Report) : Option ε × σ → Except (Stop ε) Summary × σ
  | (none, last) => (.ok r.summary, last)
  | (some why, last) => (.error (.refused why), last)

theorem dumpInto_eq {ε σ : Type} (out : Writer ε σ) {s : Snapshot} {options : Options}
    {report : Report} (dumped : dump s options = .ok report) (start : σ) :
    dumpInto out s options start = report.ended (out.serve report.requests start) := by
  have asked := Streaming.asks_writeDocument out dumped start
  unfold dumpInto
  split at asked
  · rename_i served
    simp only [asked, served, Report.ended]
  · rename_i served
    obtain ⟨mid, asked⟩ := asked
    simp only [asked, served, Report.ended]

theorem dumpInto_sink {s : Snapshot} {options : Options} {report : Report}
    (dumped : dump s options = .ok report) (sink : Sink) :
    dumpInto Sink.writer s options sink = report.ended (sink.writeAll report.writes) := by
  rw [dumpInto_eq Sink.writer dumped, Report.requests, Sink.serve_writer]

/-- A dump into any writer, and into a sink that has room for so many bytes only or cannot be
flushed. Here `bytes` is what a sink without a limit has in the end. -/
structure Report.Streams (r : Report) (s : Snapshot) (options : Options) (bytes : ByteArray) :
    Prop where
  whole : dumpInto Sink.writer s options .unlimited = (.ok r.summary, ⟨none, false, bytes⟩)
  cut : ∀ n, dumpInto Sink.writer s options ⟨some n, false, .empty⟩ =
    (if n < bytes.size then .error (.refused .full) else .ok r.summary,
      ⟨some (n - bytes.size), false, bytes.extract 0 (min n bytes.size)⟩)
  unflushed : ∀ room, (∀ n, room = some n → bytes.size ≤ n) →
    ∃ left, dumpInto Sink.writer s options ⟨room, true, .empty⟩ =
      (.error (.refused .flushFailed), ⟨left, true, bytes⟩)
  granted : ∀ {ε σ : Type} (out : Writer ε σ) (start last : σ),
    out.serve r.requests start = (none, last) → dumpInto out s options start = (.ok r.summary, last)
  silent : ∀ {ε σ : Type} (out : Writer ε σ) (start last : σ) (stop : Stop ε),
    dumpInto out s options start = (.error stop, last) →
      ∃ granted request rest mid why, r.requests = granted ++ request :: rest ∧
        out.serve granted start = (none, mid) ∧ out.answer request mid = (some why, last) ∧
        stop = .refused why

/-- Whatever the writer, a dump makes the requests of one document, and a refusal ends it at once;
a sink that is full is left with as much of the document as it has room for. -/
theorem dump_streams (d : Document) (accepted : d.validate = .ok ()) (options : Options) :
    ∃ s report, Snapshot.ofDocument d = .ok s ∧ dump s options = .ok report ∧
      report.Streams s options report.text.toUTF8 := by
  obtain ⟨s, report, indexed, sound, ⟨course⟩⟩ := Dump.course_of_accepted accepted options
  have dumped := course.dumped sound
  refine ⟨s, report, indexed, dumped, ?_⟩
  constructor
  case whole =>
    rw [dumpInto_sink dumped, Sink.unlimited, Sink.writeAll_endless, report.join_writes]
    simp [Report.ended, Sink.flush]
  case cut =>
    intro n
    have prefix_eq : report.text.toUTF8.extract 0 (min n report.text.toUTF8.size) =
        report.text.toUTF8.extract 0 n := by
      ext1
      simp [Array.extract_eq_extract_right]
    rw [dumpInto_sink dumped, Sink.writeAll_limited, report.join_writes, prefix_eq]
    split_ifs <;> simp [Report.ended, Sink.flush]
  case unflushed =>
    rintro (_ | n) enough
    · refine ⟨none, ?_⟩
      rw [dumpInto_sink dumped, Sink.writeAll_endless, report.join_writes]
      simp [Report.ended, Sink.flush]
    · have fits := enough n rfl
      refine ⟨some (n - report.text.toUTF8.size), ?_⟩
      rw [dumpInto_sink dumped, Sink.writeAll_limited, report.join_writes,
        if_neg (Nat.not_lt.mpr fits), Sink.extract_room fits]
      simp [Report.ended, Sink.flush]
  case granted =>
    intro ε σ out start last served
    rw [dumpInto_eq out dumped, served]
    rfl
  case silent =>
    intro ε σ out start last stop stopped
    rw [dumpInto_eq out dumped] at stopped
    cases served : out.serve report.requests start with
    | mk refused after =>
    rw [served] at stopped
    cases refused with
    | none => cases stopped
    | some why =>
      cases stopped
      obtain ⟨granted, request, rest, mid, split, done, answered⟩ := out.serve_refused served
      exact ⟨granted, request, rest, mid, why, split, done, answered, rfl⟩

theorem opaquePointer_streams : Document.opaquePointer.validate = .ok () ∧
    ∃ s report, Snapshot.ofDocument .opaquePointer = .ok s ∧
      dump s ⟨["p"], .element⟩ = .ok report ∧
      report.Streams s ⟨["p"], .element⟩ report.text.toUTF8 :=
  ⟨rfl, dump_streams .opaquePointer rfl ⟨["p"], .element⟩⟩

end AstXml
