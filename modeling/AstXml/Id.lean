/-!
Positions in the three tables of a document: declarations, types and source files. A position is a
32-bit word, which is also the range of the line numbers.
-/
namespace AstXml

structure DeclId where
  number : UInt32
  deriving DecidableEq

structure TypeId where
  number : UInt32
  deriving DecidableEq

structure FileId where
  number : UInt32
  deriving DecidableEq

def DeclId.index (d : DeclId) : Nat := d.number.toNat
def TypeId.index (t : TypeId) : Nat := t.number.toNat
def FileId.index (f : FileId) : Nat := f.number.toNat

def DeclId.ofIndex (n : Nat) : DeclId := ⟨n.toUInt32⟩
def TypeId.ofIndex (n : Nat) : TypeId := ⟨n.toUInt32⟩
def FileId.ofIndex (n : Nat) : FileId := ⟨n.toUInt32⟩

/-- Declaration 0 is the root of every document. -/
def DeclId.root : DeclId := ⟨0⟩

theorem DeclId.index_ofIndex {n : Nat} (h : n < 4294967296) : (DeclId.ofIndex n).index = n := by
  simp only [DeclId.index, DeclId.ofIndex]
  exact UInt32.toNat_ofNat_of_lt' h

theorem DeclId.ofIndex_index (d : DeclId) : DeclId.ofIndex d.index = d := by
  simp [DeclId.index, DeclId.ofIndex]

theorem DeclId.index_inj {a b : DeclId} : a.index = b.index ↔ a = b := by
  constructor
  · intro h
    rw [← DeclId.ofIndex_index a, ← DeclId.ofIndex_index b, h]
  · exact fun h => h ▸ rfl

end AstXml
