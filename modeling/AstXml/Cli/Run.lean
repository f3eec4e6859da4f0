import AstXml.Cli.Arguments
import AstXml.Load

/-!
One run of the command line on the files of a system. The configuration is loaded before the
document, and the document before the output is created; the first failure ends the run.
-/
namespace AstXml.Cli

def versionText : String := "gccxml-dump 0.1.0\n"

inductive Failure
  | load (why : LoadError)
  | uncreated (path : String)
  | unwritten (why : Stop String)
  deriving DecidableEq

def Failure.message : Failure → String
  | .load why => why.message
  | .uncreated path => s!"Cannot create output file {path}"
  | .unwritten _ => "Failed to write dump"

def Failure.report (failure : Failure) : String := "Error: " ++ failure.message

/-- The options of a request: its configuration, or the default, under its arguments. -/
def Request.options (request : Request) (read : ReadFile) : Except LoadError Options := do
  let config ← match request.config with
    | some path => Config.load read path
    | none => pure Config.default
  return config.options request.start request.elements

/-- What a request asks to dump, and how. -/
def Request.load (request : Request) (read : ReadFile) :
    Except LoadError (Snapshot × Options) := do
  let options ← request.options read
  let snapshot ← Snapshot.load read request.input
  return (snapshot, options)

/-- What a run comes to, with the state in which it leaves the files. -/
structure Outcome (σ : Type) where
  code : Nat
  stdout : String
  failure : Option Failure
  directory : σ

section Run

variable {σ : Type} [FileSystem σ]

def Request.serve (request : Request) (state : σ) : Outcome σ :=
  match request.load (FileSystem.read state) with
  | .error why => ⟨1, "", some (.load why), state⟩
  | .ok (snapshot, options) =>
    match request.output with
    | none =>
      match dump snapshot options with
      | .error fault => ⟨1, "", some (.unwritten (.fault fault)), state⟩
      | .ok report => ⟨0, report.text, none, state⟩
    | some path =>
      match FileSystem.create path state with
      | (none, state) => ⟨1, "", some (.uncreated path), state⟩
      | (some file, state) =>
        match dumpInto (FileSystem.writer file) snapshot options state with
        | (.error why, state) => ⟨1, "", some (.unwritten why), state⟩
        | (.ok _, state) => ⟨0, "", none, state⟩

/-- Exit codes: 0 for success, 1 for a failure, 2 for arguments that cannot be used. -/
def run (arguments : List String) (state : σ) : Outcome σ :=
  match Command.ofArguments arguments with
  | .misuse => ⟨2, "", none, state⟩
  | .version => ⟨0, versionText, none, state⟩
  | .dump request => request.serve state

end Run

end AstXml.Cli
