import AstXml.Dump
import AstXml.Sink

/-!
A dump that writes as it goes. An attribute is numbered when all before it has been written, and
the first request that the writer refuses ends the dump where it stands.
-/
namespace AstXml

inductive Writer.Request
  | text (piece : String)
  | flush
  deriving DecidableEq

/-- A place to write to. It answers a request with nothing when it grants it, and else with the
reason why not. -/
structure Writer (ε σ : Type) where
  answer : Writer.Request → σ → Option ε × σ

/-- Makes requests in order, up to the first one that is refused. -/
def Writer.serve {ε σ : Type} (out : Writer ε σ) : List Writer.Request → σ → Option ε × σ
  | [], state => (none, state)
  | request :: rest, state =>
    match out.answer request state with
    | (none, state) => out.serve rest state
    | (some why, state) => (some why, state)

def Sink.writer : Writer SinkError Sink where
  answer
    | .text piece, sink => sink.write piece.toUTF8
    | .flush, sink => (sink.flush, sink)

/-- The pieces in which a list attribute is written, value by value. -/
def Xml.listPieces (name : String) : List String → List String
  | [] => []
  | first :: rest => (" " ++ name ++ "=\"") :: first :: (rest.map (" " ++ ·) ++ ["\""])

/-- The pieces in which an attribute is written. -/
def Attribute.pieces : Attribute Nat Nat → List String
  | .location file line =>
    [Xml.plainAttribute "location" (fileId file ++ ":" ++ toString line.toNat),
      Xml.plainAttribute "file" (fileId file), Xml.plainAttribute "line" (toString line.toNat)]
  | .members nodes => Xml.listPieces "members" (nodes.map nodeId)
  | other => [other.text]

/-- Why a dump ends before its document does. -/
inductive Stop (ε : Type)
  | refused (why : ε)
  | fault (fault : Fault)
  deriving DecidableEq

/-- A dump under way and the state of its writer. -/
structure Progress (σ : Type) where
  run : Run
  writer : σ

abbrev Streaming (ε σ : Type) : Type → Type := EStateM (Stop ε) (Progress σ)

namespace Streaming

variable {ε σ α : Type}

/-- Takes the dump itself a step on; nothing is written. -/
def advance (step : Run → α × Run) : Streaming ε σ α := fun progress =>
  let (answer, run) := step progress.run
  .ok answer { progress with run }

def current : Streaming ε σ Run := advance fun run => (run, run)

def attempt : Except Fault α → Streaming ε σ α
  | .ok answer => pure answer
  | .error fault => throw (.fault fault)

variable (out : Writer ε σ)

def ask (request : Writer.Request) : Streaming ε σ Unit := fun progress =>
  match out.answer request progress.writer with
  | (none, writer) => .ok () { progress with writer }
  | (some why, writer) => .error (.refused why) { progress with writer }

def write (piece : String) : Streaming ε σ Unit := ask out (.text piece)

variable (s : Snapshot) (mode : QualifierMode)

def writeAttribute (draft : DraftAttribute) : Streaming ε σ Unit := do
  let numbered ← advance fun run => run.number mode draft
  numbered.pieces.forM (write out)

def writeNode (entity : Entity) (node : Node) : Streaming ε σ Unit := do
  let draft ← attempt (s.draft entity node.complete)
  write out (Xml.openElement draft.tag.text)
  write out (Xml.plainAttribute "id" (nodeId node.number))
  draft.attributes.forM (writeAttribute out mode)
  write out Xml.closeElement

/-- Claims the element of an item and writes it; answers whether there was one to write. -/
def writeItem : WorkItem → Streaming ε σ Bool
  | .qualified base quals => do
    (Element.qualified base quals).pieces.forM (write out)
    return true
  | .entity entity => do
    let claimed ← advance fun run =>
      let (node, registry) := run.registry.beginOutput (.entity entity)
      (node, { run with registry })
    match claimed with
    | none => return false
    | some node => do
      writeNode out s mode entity node
      return true

def nextItem : Streaming ε σ (Option WorkItem) := advance fun run =>
  match run.registry.next? with
  | none => (none, run)
  | some (item, registry) => (some item, { run with registry })

/-- Writes items until the queue is empty, at most `limit` of them; answers how many elements it
has written. -/
def drain (limit : Nat) : Streaming ε σ Nat := do
  match ← nextItem with
  | none => return 0
  | some item =>
    match limit with
    | 0 => throw (.fault .unfinished)
    | limit + 1 => do
      let wrote ← writeItem out s mode item
      let rest ← drain limit
      return wrote.toNat + rest

def writeFiles : Streaming ε σ Nat := do
  let files := (← current).files.unlisted
  files.forM fun file => do
    let element ← attempt (Dump.listFile s file)
    element.pieces.forM (write out)
  return files.length

def writeDocument (options : Options) : Streaming ε σ Summary := do
  let seeded ← attempt (Dump.seed s options.startNames)
  advance fun _ => ((), seeded)
  write out Xml.startDocument
  let complete ← drain out s options.qualifiers (Dump.turnLimit s)
  advance fun run => ((), Dump.acceptStubs run)
  let incomplete ← drain out s options.qualifiers (Dump.turnLimit s)
  let files ← writeFiles out s
  write out Xml.endDocument
  ask out .flush
  return ⟨(← current).registry.count, complete, incomplete, files⟩

end Streaming

/-- Dumps into a writer. The answer comes with the state in which the writer is left. -/
def dumpInto {ε σ : Type} (out : Writer ε σ) (s : Snapshot) (options : Options) (start : σ) :
    Except (Stop ε) Summary × σ :=
  match Streaming.writeDocument out s options ⟨.start, start⟩ with
  | .ok summary progress => (.ok summary, progress.writer)
  | .error stop progress => (.error stop, progress.writer)

end AstXml
