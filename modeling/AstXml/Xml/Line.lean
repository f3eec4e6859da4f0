import AstXml.Xml

/-!
The lines of a document as a reader finds them: a tag and its attributes, each with the value that
the text stands for. The reader knows the frame of a document and how a line is put together, and
nothing of what the lines say.
-/
namespace AstXml.Xml

/-- One element: its tag and its attributes in order, by name and value. -/
structure Line where
  tag : String
  attributes : List (String × String)
  deriving DecidableEq

def Line.pieces (line : Line) : List String :=
  openElement line.tag ::
    (line.attributes.map (fun (name, value) => textAttribute name value) ++ [closeElement])

/-- Puts characters in the place of the five entities, from left to right. An `&` that begins none
of them stands for itself. -/
def unescape : List Char → List Char
  | '&' :: 'a' :: 'm' :: 'p' :: ';' :: rest => '&' :: unescape rest
  | '&' :: 'l' :: 't' :: ';' :: rest => '<' :: unescape rest
  | '&' :: 'g' :: 't' :: ';' :: rest => '>' :: unescape rest
  | '&' :: 'q' :: 'u' :: 'o' :: 't' :: ';' :: rest => '"' :: unescape rest
  | '&' :: 'a' :: 'p' :: 'o' :: 's' :: ';' :: rest => '\'' :: unescape rest
  | c :: rest => c :: unescape rest
  | [] => []

/-- What stands before the next `stop`, and what stands after it. -/
def upTo? (stop : Char) : List Char → Option (List Char × List Char)
  | [] => none
  | c :: rest =>
    if c = stop then some ([], rest)
    else (upTo? stop rest).map fun (before, after) => (c :: before, after)

/-- A name, and a value between double quotes. -/
def readAttribute? (text : List Char) : Option ((String × String) × List Char) :=
  match upTo? '=' text with
  | some (name, '"' :: rest) =>
    (upTo? '"' rest).map fun (value, rest) =>
      ((.ofList name, .ofList (unescape value)), rest)
  | _ => none

theorem upTo?_shorter {stop : Char} {text before after : List Char}
    (found : upTo? stop text = some (before, after)) : after.length < text.length := by
  induction text generalizing before with
  | nil => cases found
  | cons c rest ih =>
    rw [upTo?] at found
    split at found
    · cases found
      exact Nat.lt_succ_self _
    · obtain ⟨⟨before', after'⟩, found', same⟩ := Option.map_eq_some_iff.mp found
      cases same
      exact Nat.lt_succ_of_lt (ih found')

theorem readAttribute?_shorter {text rest : List Char} {pair : String × String}
    (read : readAttribute? text = some (pair, rest)) : rest.length < text.length := by
  unfold readAttribute? at read
  split at read
  · rename_i name quoted named
    obtain ⟨⟨value, after⟩, ended, same⟩ := Option.map_eq_some_iff.mp read
    cases same
    have first := upTo?_shorter named
    have second := upTo?_shorter ended
    simp only [List.length_cons] at first
    omega
  · cases read

/-- The attributes up to the end of a line, and what stands after it. -/
def readAttributes? : List Char → Option (List (String × String) × List Char)
  | '/' :: '>' :: '\n' :: text => some ([], text)
  | ' ' :: text =>
    match _ : readAttribute? text with
    | none => none
    | some (pair, rest) =>
      (readAttributes? rest).map fun (pairs, rest) => (pair :: pairs, rest)
  | _ => none
termination_by text => text.length
decreasing_by exact Nat.lt_succ_of_lt (readAttribute?_shorter ‹_›)

/-- A tag extends to the first attribute or to the end of its line. -/
def inTag (c : Char) : Bool := c != ' ' && c != '/'

def readLine? : List Char → Option (Line × List Char)
  | ' ' :: ' ' :: '<' :: text =>
    (readAttributes? (text.dropWhile inTag)).map fun (attributes, rest) =>
      (⟨.ofList (text.takeWhile inTag), attributes⟩, rest)
  | _ => none

theorem readAttributes?_shorter {text rest : List Char} {attributes : List (String × String)}
    (read : readAttributes? text = some (attributes, rest)) : rest.length < text.length := by
  fun_induction readAttributes? text generalizing attributes with
  | case1 text =>
    cases read
    simp only [List.length_cons]
    omega
  | case2 => cases read
  | case3 text pair after first ih =>
    obtain ⟨⟨others, rest'⟩, later, same⟩ := Option.map_eq_some_iff.mp read
    cases same
    have here := readAttribute?_shorter first
    have there := ih later
    simp only [List.length_cons]
    omega
  | case4 => cases read

theorem readLine?_shorter {text rest : List Char} {line : Line}
    (read : readLine? text = some (line, rest)) : rest.length < text.length := by
  unfold readLine? at read
  split at read
  · rename_i text
    obtain ⟨⟨attributes, after⟩, found, same⟩ := Option.map_eq_some_iff.mp read
    cases same
    have here := readAttributes?_shorter found
    have tag := (List.dropWhile_suffix inTag (l := text)).length_le
    simp only [List.length_cons]
    omega
  · cases read

/-- The lines up to the end of the document. -/
def readLines? (text : List Char) : Option (List Line) :=
  if text = endDocument.toList then some []
  else
    match _ : readLine? text with
    | none => none
    | some (line, rest) => (readLines? rest).map (line :: ·)
termination_by text.length
decreasing_by exact readLine?_shorter ‹_›

/-- The lines of a document, if the text is one. -/
def read? (text : String) : Option (List Line) :=
  if startDocument.toList.isPrefixOf text.toList then
    readLines? (text.toList.drop startDocument.toList.length)
  else none

end AstXml.Xml
