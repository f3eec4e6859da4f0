import AstXml.Id

/-!
The source files that locations mention, numbered in the order of their first mention, and a list
of those still to be written out.
-/
namespace AstXml

/-- The files in the order of their numbers; the first `listed` of them are written out. -/
structure FileTable where
  known : List FileId
  listed : Nat

namespace FileTable

def empty : FileTable := ⟨[], 0⟩

def size (t : FileTable) : Nat := t.known.length

def register (t : FileTable) (file : FileId) : Nat × FileTable :=
  match t.known.idxOf? file with
  | some i => (i + 1, t)
  | none => (t.known.length + 1, { t with known := t.known ++ [file] })

/-- The next file to write out, with its number. -/
def next? (t : FileTable) : Option ((FileId × Nat) × FileTable) :=
  t.known[t.listed]?.map fun file => ((file, t.listed + 1), { t with listed := t.listed + 1 })

def unlisted (t : FileTable) : List (FileId × Nat) := (t.known.zipIdx 1).drop t.listed

end FileTable

end AstXml
