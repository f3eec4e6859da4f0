import AstXml.Id

/-!
The qualifiers written directly on a type, and types taken together with them.
-/
namespace AstXml

structure Qualifiers where
  const : Bool
  volatile : Bool
  restrict : Bool
  deriving DecidableEq

namespace Qualifiers

def none : Qualifiers := ⟨false, false, false⟩

def union (a b : Qualifiers) : Qualifiers :=
  ⟨a.const || b.const, a.volatile || b.volatile, a.restrict || b.restrict⟩

def isNone (q : Qualifiers) : Bool := !(q.const || q.volatile || q.restrict)

/-- The letters added to a type's number, always in the order `c`, `v`, `r`. -/
def suffix (q : Qualifiers) : String :=
  (if q.const then "c" else "") ++ (if q.volatile then "v" else "") ++
    (if q.restrict then "r" else "")

/-- The set as a number below 8: its qualifiers weigh 1, 2 and 4. -/
def weight (q : Qualifiers) : Nat := q.const.toNat + 2 * q.volatile.toNat + 4 * q.restrict.toNat

theorem isNone_iff (q : Qualifiers) : q.isNone = true ↔ q = none := by
  obtain ⟨c, v, r⟩ := q
  cases c <;> cases v <;> cases r <;> simp [isNone, none]

end Qualifiers

structure QualType where
  type : TypeId
  quals : Qualifiers
  deriving DecidableEq

namespace QualType

def plain (t : TypeId) : QualType := ⟨t, .none⟩

def isQualified (t : QualType) : Bool := !t.quals.isNone

def unqualified (t : QualType) : QualType := plain t.type

/-- The order of qualified types: the type decides, then the weight of the qualifiers. -/
def before (a b : QualType) : Bool :=
  a.type.index < b.type.index || a.type.index == b.type.index && a.quals.weight < b.quals.weight

end QualType

end AstXml
