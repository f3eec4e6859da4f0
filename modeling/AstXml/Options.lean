/-!
What shapes one dump.
-/
namespace AstXml

/-- How the qualifiers of a type show: only as letters on the type's number, or with an element of
their own for every qualified reference. -/
inductive QualifierMode
  | suffix
  | element
  deriving DecidableEq

/-- The qualified names to start from, none for the whole unit, and the form of qualifiers. -/
structure Options where
  startNames : List String
  qualifiers : QualifierMode
  deriving DecidableEq

end AstXml
