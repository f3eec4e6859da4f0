import AstXml.Streaming

/-!
The files that a run works on, as the system gives access to them.
-/
namespace AstXml

inductive ReadError
  | notFound
  | notText
  deriving DecidableEq

/-- Access to files, by the state they are in. A path leads to a file or to none, and several paths
may lead to the same one. -/
class FileSystem (σ : Type) where
  File : Type
  find? : String → σ → Option File
  contents? : File → σ → Option ByteArray
  /-- What reading the file of a path gives, if it can be read. -/
  readBytes : String → σ → Option ByteArray
  /-- Creates the file of a path, or empties the one there is, if that is possible. -/
  create : String → σ → Option File × σ
  /-- A file that has been created as a place to write to. A request that is refused is answered
  with what the system has to say. -/
  writer : File → Writer String σ

namespace FileSystem

variable {σ : Type} [FileSystem σ]

def read (state : σ) (path : String) : Except ReadError String :=
  match readBytes path state with
  | none => .error .notFound
  | some bytes =>
    match String.fromUTF8? bytes with
    | some text => .ok text
    | none => .error .notText

end FileSystem

/-! A directory seen from inside, with nothing around it and nothing below it. -/

/-- Files by name; no name comes twice. -/
structure Directory where
  files : List (String × ByteArray)

namespace Directory

/-- The longest name of a file, in bytes. -/
def maxName : Nat := 255

def splitPath : List Char → List (List Char)
  | [] => [[]]
  | '/' :: rest => [] :: splitPath rest
  | c :: rest =>
    match splitPath rest with
    | [] => [[c]]
    | piece :: pieces => (c :: piece) :: pieces

/-- Leaves out the steps that stay in the same directory: empty ones and dots. The last piece
is always kept. -/
def dropStays : List (List Char) → List (List Char)
  | piece :: next :: rest =>
    if piece = [] || piece = ['.'] then dropStays (next :: rest) else piece :: next :: rest
  | pieces => pieces

def maxPath : Nat := 4095

def isAbsolute (path : String) : Bool := path.toList.head? = some '/'

/-- The name that a path has for a file of this directory. An absolute path, one that leads through
another directory and one that ends in a slash have none; nor does one that is too long. -/
def fileName? (path : String) : Option String :=
  if isAbsolute path || path.utf8ByteSize > maxPath then none
  else
    match dropStays (splitPath path.toList) with
    | [name] =>
      let name := String.ofList name
      if name = "" || name = "." || name = ".." || name.utf8ByteSize > maxName then none
      else some name
    | _ => none

def get? (d : Directory) (name : String) : Option ByteArray :=
  (d.files.find? (·.1 = name)).map (·.2)

/-- Replaces what a file holds, or adds it. -/
def put (d : Directory) (name : String) (bytes : ByteArray) : Directory :=
  if d.files.any (·.1 = name) then
    ⟨d.files.map fun file => if file.1 = name then (name, bytes) else file⟩
  else ⟨d.files ++ [(name, bytes)]⟩

/-- Writes text at the end of a file. -/
def append (d : Directory) (name : String) (text : String) : Directory :=
  d.put name ((d.get? name).getD .empty ++ text.toUTF8)

/-- There is room for everything. -/
instance : FileSystem Directory where
  File := String
  find? path d := (fileName? path).filter fun name => (d.get? name).isSome
  contents? name d := d.get? name
  readBytes path d := (fileName? path).bind d.get?
  create path d :=
    match fileName? path with
    | none => (none, d)
    | some name => (some name, d.put name .empty)
  writer name := ⟨fun request d =>
    match request with
    | .text piece => (none, d.append name piece)
    | .flush => (none, d)⟩

def read (d : Directory) (path : String) : Except ReadError String := FileSystem.read d path

/-- The files that are new in `after` or hold something else than in `before`. -/
def changes (before after : Directory) : List (String × ByteArray) :=
  after.files.filter fun file =>
    match before.files.find? (·.1 = file.1) with
    | some (_, bytes) => bytes.data != file.2.data
    | none => true

end Directory

end AstXml
