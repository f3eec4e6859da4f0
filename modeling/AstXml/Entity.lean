import AstXml.Qualifiers

/-!
What the nodes of a document stand for.
-/
namespace AstXml

inductive Entity
  | decl (decl : DeclId)
  | type (type : QualType)
  deriving DecidableEq

end AstXml
