import AstXml.Cli.Run

/-!
The command line program.
-/
namespace AstXml.Main

open Cli

/-- Reads a file the way a request asks for it. -/
def readFile (path : String) : IO (Except ReadError String) := do
  match ← (IO.FS.readBinFile path).toBaseIO with
  | .error _ => return .error .notFound
  | .ok bytes =>
    match String.fromUTF8? bytes with
    | some text => return .ok text
    | none => return .error .notText

def readAll (paths : List String) : IO ReadFile := do
  let contents ← paths.mapM fun path => return (path, ← readFile path)
  return fun path => (contents.lookup path).getD (.error .notFound)

def fail (failure : Failure) : IO UInt32 := do
  IO.eprintln failure.report
  return 1

/-- Creates the file of a path and writes a text to it. -/
def writeFile (path text : String) : IO UInt32 := do
  match ← (IO.FS.Handle.mk path .write).toBaseIO with
  | .error _ => fail (.uncreated path)
  | .ok file =>
    match ← (do file.putStr text; file.flush : IO Unit).toBaseIO with
    | .error why => fail (.unwritten (.refused (toString why)))
    | .ok () => return 0

def perform (request : Request) : IO UInt32 := do
  let read ← readAll (request.config.toList ++ [request.input])
  match request.load read with
  | .error why => fail (.load why)
  | .ok (snapshot, options) =>
    match dump snapshot options, request.output with
    | .error fault, _ => fail (.unwritten (.fault fault))
    | .ok report, none => do
      IO.print report.text
      return 0
    | .ok report, some path => writeFile path report.text

end AstXml.Main

/-- Performs the command that the arguments give. -/
def main (arguments : List String) : IO UInt32 := do
  match AstXml.Cli.Command.ofArguments arguments with
  | .misuse => do
    IO.eprintln "error: unusable arguments"
    return 2
  | .version => do
    IO.print AstXml.Cli.versionText
    return 0
  | .dump request => AstXml.Main.perform request
