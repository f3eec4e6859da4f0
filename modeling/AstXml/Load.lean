import AstXml.Config
import AstXml.Document.Decode
import AstXml.FileSystem
import AstXml.Snapshot

/-!
Loading snapshots and configurations, from texts and from files.
-/
namespace AstXml

inductive TextError
  | malformed
  | invalid (why : Invalid)
  | fault (fault : Fault)
  deriving DecidableEq

def Snapshot.parse (text : String) : Except TextError Snapshot :=
  match Document.parse? text with
  | none => .error .malformed
  | some document =>
    match document.validate with
    | .error why => .error (.invalid why)
    | .ok () =>
      match Snapshot.ofDocument document with
      | .error fault => .error (.fault fault)
      | .ok snapshot => .ok snapshot

inductive LoadError
  | unreadDocument (path : String) (why : ReadError)
  | refusedDocument (path : String) (why : TextError)
  | unreadConfig (path : String) (why : ReadError)
  | refusedConfig (path : String)
  deriving DecidableEq

def LoadError.message : LoadError → String
  | .unreadDocument path _ => s!"Failed to read AST document {path}"
  | .refusedDocument path _ => s!"Failed to load AST document {path}"
  | .unreadConfig path _ => s!"Cannot read config {path}"
  | .refusedConfig path => s!"Invalid config {path}"

/-- How the text of a file is come by. -/
abbrev ReadFile := String → Except ReadError String

def Snapshot.load (read : ReadFile) (path : String) : Except LoadError Snapshot :=
  match read path with
  | .error why => .error (.unreadDocument path why)
  | .ok text => (Snapshot.parse text).mapError (.refusedDocument path)

def Config.load (read : ReadFile) (path : String) : Except LoadError Config :=
  match read path with
  | .error why => .error (.unreadConfig path why)
  | .ok text =>
    match Config.parse? text with
    | none => .error (.refusedConfig path)
    | some config => .ok config

end AstXml
