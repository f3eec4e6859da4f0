/-!
The text of a document: a frame around one empty element a line. Attribute values stand in double
quotes; user text is escaped.
-/
namespace AstXml.Xml

/-- The five characters with a meaning in markup are written as entities. -/
def escapeChar : Char → List Char
  | '&' => "&amp;".toList
  | '<' => "&lt;".toList
  | '>' => "&gt;".toList
  | '"' => "&quot;".toList
  | '\'' => "&apos;".toList
  | c => [c]

def escape (text : String) : String := .ofList (text.toList.flatMap escapeChar)

def startDocument : String :=
  "<?xml version=\"1.0\"?>\n<GCC_XML version=\"0.9.0\" cvs_revision=\"1.136\">\n"

def endDocument : String := "</GCC_XML>\n"

def openElement (tag : String) : String := "  <" ++ tag

def closeElement : String := "/>\n"

/-- An attribute whose value has no character to escape. -/
def plainAttribute (name value : String) : String := " " ++ name ++ "=\"" ++ value ++ "\""

def textAttribute (name value : String) : String := plainAttribute name (escape value)

/-- Values separated by single blanks; no attribute at all for none. -/
def listAttribute (name : String) : List String → String
  | [] => ""
  | values => plainAttribute name (" ".intercalate values)

end AstXml.Xml
