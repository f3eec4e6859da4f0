/-!
A place to write bytes to that may be limited in room. What it accepts is always a prefix of what
is written, and nothing is accepted after a failure.
-/
namespace AstXml

inductive SinkError
  | full
  | flushFailed
  deriving DecidableEq

def SinkError.message : SinkError → String
  | .full => "IO error: sink full"
  | .flushFailed => "IO error: flush failed"

/-- A sink has `room` for so many more bytes, if there is a limit. -/
structure Sink where
  room : Option Nat
  flushFails : Bool
  accepted : ByteArray

namespace Sink

def unlimited : Sink := ⟨none, false, .empty⟩

/-- Accepts what there is room for, and fails if that is not all. -/
def write (sink : Sink) (bytes : ByteArray) : Option SinkError × Sink :=
  match sink.room with
  | none => (none, { sink with accepted := sink.accepted ++ bytes })
  | some room =>
    let taken := bytes.extract 0 room
    (if bytes.size ≤ room then none else some .full,
      { sink with room := some (room - taken.size), accepted := sink.accepted ++ taken })

def flush (sink : Sink) : Option SinkError := if sink.flushFails then some .flushFailed else none

/-- Writes pieces of text until one fails, then flushes. -/
def writeAll : List String → Sink → Option SinkError × Sink
  | [], sink => (sink.flush, sink)
  | piece :: rest, sink =>
    match sink.write piece.toUTF8 with
    | (none, sink) => writeAll rest sink
    | (some failure, sink) => (some failure, sink)

end Sink

end AstXml
