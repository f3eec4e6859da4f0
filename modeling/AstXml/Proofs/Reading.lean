import AstXml.Proofs.Contents
import AstXml.Proofs.Lines

/-!
A document read back. Every value of an attribute is escaped once, or has nothing to escape, so a
reader that knows the frame and the five entities finds the elements that were written, with the
texts of the tree as the tree has them.
-/
namespace AstXml
open Outcome

namespace Xml

/-- The characters that are written as entities. -/
def marks : List Char := ['&', '<', '>', '"', '\'']

theorem escapeChar_of_not_mark {c : Char} (ordinary : c ∉ marks) : escapeChar c = [c] := by
  unfold escapeChar
  split
  case h_6 => rfl
  all_goals simp [marks] at ordinary

/-- A text that is written as it is. -/
def Ordinary (text : String) : Prop := ∀ c ∈ text.toList, c ∉ marks

theorem Ordinary.escape {text : String} (h : Ordinary text) : escape text = text := by
  have same : text.toList.flatMap escapeChar = text.toList.flatMap fun c => [c] :=
    List.flatMap_congr fun c member => escapeChar_of_not_mark (h c member)
  rw [Xml.escape, same, List.flatMap_singleton', String.ofList_toList]

theorem Ordinary.textAttribute {value : String} (h : Ordinary value) (name : String) :
    textAttribute name value = plainAttribute name value := by
  rw [Xml.textAttribute, h.escape]

/-- The characters of the values that a dump makes: numbers, references and words. -/
def inReference (c : Char) : Bool :=
  c.isDigit || 'a' ≤ c && c ≤ 'z' || 'A' ≤ c && c ≤ 'Z' || c = '_' || c = ':' || c = ' '

/-- A value that a dump makes. -/
def Made (text : String) : Prop := ∀ c ∈ text.toList, inReference c = true

theorem Made.ordinary {text : String} (h : Made text) : Ordinary text := by
  intro c member
  have inside := h c member
  simp only [marks, List.mem_cons, List.not_mem_nil, or_false, not_or]
  refine ⟨?_, ?_, ?_, ?_, ?_⟩ <;> rintro rfl <;> cases inside

theorem Made.textAttribute {value : String} (h : Made value) (name : String) :
    textAttribute name value = plainAttribute name value :=
  h.ordinary.textAttribute name

theorem Made.append {first second : String} (h : Made first) (h' : Made second) :
    Made (first ++ second) := by
  simpa [Made, or_imp, forall_and] using ⟨h, h'⟩

theorem made_digits (n : Nat) : Made (toString n) := by
  intro c member
  have listed : c ∈ Nat.toDigits 10 n := by simpa using member
  have digit : c.isDigit = true := Nat.isDigit_of_mem_toDigits (by decide) (by decide) listed
  simp [inReference, digit]

theorem made_typeReference (n : Nat) (q : Qualifiers) : Made (typeReference n q) := by
  refine .append (.append ?_ (made_digits n)) ?_
  · simp [Made, inReference]
  · obtain ⟨c, v, r⟩ := q
    cases c <;> cases v <;> cases r <;> simp [Made, Qualifiers.suffix, inReference]

theorem made_nodeId (n : Nat) : Made (nodeId n) :=
  typeReference_none n ▸ made_typeReference n .none

theorem made_fileId (n : Nat) : Made (fileId n) :=
  .append (by simp [Made, inReference]) (made_digits n)

theorem made_nodeIds (first : Nat) (rest : List Nat) :
    Made (" ".intercalate ((first :: rest).map nodeId)) := by
  induction rest generalizing first with
  | nil => simpa using made_nodeId first
  | cons second rest ih =>
    rw [List.map_cons, List.map_cons, String.intercalate_cons_cons]
    exact ((made_nodeId first).append (by simp [Made, inReference])).append (ih second)

end Xml

/-- What an attribute is written as: names and values. -/
def Attribute.pairs : Attribute Nat Nat → List (String × String)
  | .name text => [("name", text)]
  | .kind text => [("kind", text)]
  | .typeClass text => [("type_class", text)]
  | .type node quals => [("type", typeReference node quals)]
  | .context node => [("context", nodeId node)]
  | .access a => [("access", a.word)]
  | .location file line =>
    [("location", fileId file ++ ":" ++ toString line.toNat), ("file", fileId file),
      ("line", toString line.toNat)]
  | .members [] => []
  | .members nodes => [("members", " ".intercalate (nodes.map nodeId))]
  | .incomplete => [("incomplete", "1")]

def Qualifiers.pairs (quals : Qualifiers) : List (String × String) :=
  (if quals.const then [("const", "1")] else [])
    ++ (if quals.volatile then [("volatile", "1")] else [])
    ++ (if quals.restrict then [("restrict", "1")] else [])

/-- An element as its reader is to find it, with the values that its texts stand for. -/
def Element.line : Element → Xml.Line
  | .node element =>
    ⟨element.tag.text, ("id", nodeId element.number) :: element.attributes.flatMap (·.pairs)⟩
  | .qualified base quals =>
    ⟨"CvQualifiedType",
      ("id", typeReference base quals) :: ("type", nodeId base) :: quals.pairs⟩
  | .file number name => ⟨"File", [("id", fileId number), ("name", name)]⟩

/-! The text of an element is that of its line. -/

theorem Access.made_word (a : Access) : Xml.Made a.word := by
  cases a <;> simp [Xml.Made, Access.word, Xml.inReference]

theorem Attribute.toList_text (a : Attribute Nat Nat) :
    a.text.toList = a.pairs.flatMap fun pair => (Xml.textAttribute pair.1 pair.2).toList := by
  cases a with
  | type node quals =>
    have value := (Xml.made_typeReference node quals).textAttribute
    simp only [text, pairs, value, List.flatMap_singleton]
  | context node =>
    have value := (Xml.made_nodeId node).textAttribute
    simp only [text, pairs, value, List.flatMap_singleton]
  | access a =>
    simp only [text, pairs, a.made_word.textAttribute, List.flatMap_singleton]
  | location file line =>
    have file' := Xml.made_fileId file
    have line' := Xml.made_digits line.toNat
    have place := (file'.append (by simp [Xml.Made, Xml.inReference] : Xml.Made ":")).append
      line'
    simp only [text, pairs, place.textAttribute, file'.textAttribute, line'.textAttribute,
      List.flatMap_cons, List.flatMap_nil, List.append_nil, String.toList_append,
      List.append_assoc]
  | members nodes =>
    cases nodes with
    | nil => rfl
    | cons first rest =>
      have value := (Xml.made_nodeIds first rest).textAttribute
      simp only [text, pairs, value, List.flatMap_singleton]
      rfl
  | incomplete =>
    have value : Xml.Made "1" := by simp [Xml.Made, Xml.inReference]
    simp only [text, pairs, value.textAttribute, List.flatMap_singleton]
  | _ => simp only [text, pairs, List.flatMap_singleton]

theorem Qualifiers.toList_texts (quals : Qualifiers) : quals.texts.flatMap (·.toList) =
    quals.pairs.flatMap fun pair => (Xml.textAttribute pair.1 pair.2).toList := by
  have value : Xml.Made "1" := by simp [Xml.Made, Xml.inReference]
  obtain ⟨c, v, r⟩ := quals
  cases c <;> cases v <;> cases r <;> simp [texts, pairs, value.textAttribute]

theorem Element.toList_pieces (element : Element) :
    element.pieces.flatMap (·.toList) = (String.join element.line.pieces).toList := by
  rw [Xml.toList_pieces]
  cases element with
  | node element =>
    have attributes : (element.attributes.map (·.text)).flatMap (·.toList) =
        (element.attributes.flatMap (·.pairs)).flatMap
          fun pair => (Xml.textAttribute pair.1 pair.2).toList := by
      rw [List.flatMap_map, List.flatMap_assoc]
      exact List.flatMap_congr fun a _ => a.toList_text
    have value := (Xml.made_nodeId element.number).textAttribute
    simp [pieces, attributeTexts, tagText, line, Xml.openElement, attributes, value]
  | qualified base quals =>
    have own := (Xml.made_typeReference base quals).textAttribute
    have plain := (Xml.made_nodeId base).textAttribute
    simp [pieces, attributeTexts, tagText, line, Xml.openElement, own, plain,
      ← Qualifiers.toList_texts]
  | file number name =>
    have value := (Xml.made_fileId number).textAttribute
    simp [pieces, attributeTexts, tagText, line, Xml.openElement, value]

theorem Report.text_eq (r : Report) : r.text = String.join
    (Xml.startDocument :: ((r.elements.map (·.line)).flatMap (·.pieces) ++ [Xml.endDocument])) := by
  have lines : (r.elements.flatMap (·.pieces)).flatMap (·.toList) =
      ((r.elements.map (·.line)).flatMap (·.pieces)).flatMap (·.toList) := by
    rw [List.flatMap_assoc, List.flatMap_assoc, List.flatMap_map]
    refine List.flatMap_congr fun element _ => ?_
    rw [element.toList_pieces, String.toList_join]
  apply String.ext
  simp [text, pieces, lines]

/-! Tags and names are words, so a reader sees where they end. -/

theorem Attribute.free_pairs (a : Attribute Nat Nat) : ∀ pair ∈ a.pairs, '=' ∉ pair.1.toList := by
  cases a with
  | members nodes => cases nodes <;> simp [pairs]
  | _ => simp [pairs]

theorem Element.line_legible (element : Element) : element.line.Legible := by
  cases element with
  | node element =>
    constructor
    · cases tag : element.tag with
      | record key => cases key <;> simp [line, tag, Tag.text, ClassKey.element, Xml.inTag]
      | _ => simp [line, tag, Tag.text, Xml.inTag]
    · simp only [line, List.forall_mem_cons, List.mem_flatMap, forall_exists_index, and_imp]
      exact ⟨by simp, fun pair a _ listed => a.free_pairs pair listed⟩
  | qualified base quals =>
    obtain ⟨c, v, r⟩ := quals
    constructor
    · simp [line, Xml.inTag]
    · cases c <;> cases v <;> cases r <;> simp [line, Qualifiers.pairs]
  | file number name => constructor <;> simp [line, Xml.inTag]

theorem Report.read (r : Report) : Xml.read? r.text = some (r.elements.map (·.line)) := by
  rw [r.text_eq]
  apply Xml.read?_text
  intro line member
  obtain ⟨element, _, rfl⟩ := List.mem_map.mp member
  exact element.line_legible

/-! The texts of the tree are found as the tree has them. -/

/-- The attributes of a line whose values are texts of the tree. -/
def Xml.Line.texts (line : Line) : List (String × String) :=
  line.attributes.filter fun pair => ["name", "kind", "type_class"].contains pair.1

def Attribute.texts {ν φ : Type} : Attribute ν φ → List (String × String)
  | .name text => [("name", text)]
  | .kind text => [("kind", text)]
  | .typeClass text => [("type_class", text)]
  | _ => []

/-- The text that the element of an entity shows, taken from the tree. -/
def Snapshot.ownTexts (s : Snapshot) : Entity → Except Fault (List (String × String))
  | .decl d => do
    let decl ← s.decl d
    match decl.kind with
    | .translationUnit => return [("name", "::")]
    | .accessSpec | .other _ => return [("kind", decl.kind.name)]
    | _ => return [("name", decl.name)]
  | .type t => do
    match ← s.type t.type with
    | .builtin name => return [("name", name)]
    | .pointer _ => return []
    | type => return [("type_class", type.name)]

theorem Attribute.filter_pairs (a : Attribute Nat Nat) :
    (a.pairs.filter fun pair => ["name", "kind", "type_class"].contains pair.1) = a.texts := by
  cases a with
  | members nodes => cases nodes <;> simp [pairs, texts]
  | _ => simp [pairs, texts]

theorem NodeElement.line_texts (element : NodeElement) :
    (Element.node element).line.texts = element.attributes.flatMap (·.texts) := by
  have attributes : (element.attributes.flatMap (·.pairs)).filter
      (fun pair => ["name", "kind", "type_class"].contains pair.1) =
        element.attributes.flatMap (·.texts) := by
    rw [List.filter_flatMap]
    exact List.flatMap_congr fun a _ => a.filter_pairs
  simp only [Xml.Line.texts, Element.line]
  rw [List.filter_cons_of_neg (by simp), attributes]

theorem Run.texts_resolve (run : Run) (a : DraftAttribute) : (run.resolve a).texts = a.texts := by
  cases a <;> rfl

namespace Snapshot

variable {s : Snapshot} {decl : Declaration} {attributes : List DraftAttribute} {complete : Bool}
  {draft : Draft}

theorem Around.texts (around : s.Around decl attributes) : attributes.flatMap (·.texts) = [] := by
  cases around <;> rfl

theorem MemberList.texts (listed : s.MemberList decl complete attributes) :
    attributes.flatMap (·.texts) = [] := by
  cases listed <;> rfl

theorem texts_location (decl : Declaration) : (draftLocation decl).flatMap (·.texts) = [] := by
  unfold draftLocation
  cases decl.location <;> rfl

theorem texts_draft {e : Entity} (drafted : s.draft e complete = .ok draft) :
    s.ownTexts e = .ok (draft.attributes.flatMap (·.texts)) := by
  cases draft_eq_ok.mp drafted with
  | space found kind around listed =>
    rw [ownTexts, found, ok_bind, List.flatMap_cons, List.flatMap_append, around.texts,
      listed.texts]
    rcases kind with ⟨kind, rfl⟩ | ⟨kind, rfl⟩ <;> rw [kind] <;> rfl
  | @typed _ decl _ _ _ _ found typed _ around =>
    rw [ownTexts, found, ok_bind, List.flatMap_cons, List.flatMap_cons, List.flatMap_append,
      around.texts, texts_location]
    rcases DeclKind.eq_of_typed typed with kind | kind | kind <;> rw [kind] <;> rfl
  | @bodiless _ decl _ _ found record around =>
    rw [ownTexts, found, ok_bind, List.flatMap_cons, List.flatMap_append, List.flatMap_append,
      around.texts, texts_location]
    obtain ⟨_, _, _, kind⟩ := DeclKind.eq_of_record record
    rw [kind]
    rfl
  | @record _ decl _ _ _ _ _ found record around _ _ listed =>
    rw [ownTexts, found, ok_bind, List.flatMap_cons, List.flatMap_append, List.flatMap_append,
      around.texts, texts_location, listed.texts]
    obtain ⟨_, _, _, kind⟩ := DeclKind.eq_of_record record
    rw [kind]
    rfl
  | marker found kind =>
    rw [ownTexts, found, ok_bind]
    rcases kind with kind | ⟨name, kind⟩ <;> rw [kind] <;> rfl
  | builtin found =>
    rw [ownTexts, found]
    rfl
  | pointer found =>
    rw [ownTexts, found]
    rfl
  | @otherType _ type _ found builtin pointer =>
    rw [ownTexts, found, ok_bind]
    cases type with
    | builtin name => exact absurd rfl (builtin name)
    | pointer q => exact absurd rfl (pointer q)
    | _ => rfl

end Snapshot

/-- A report whose document is read back as the elements written, where the texts are those of the
tree; no other elements are written as the same document. -/
structure Report.Readable (r : Report) (s : Snapshot) : Prop where
  read : Xml.read? r.text = some (r.elements.map (·.line))
  texts : ∀ element, .node element ∈ r.elements →
    s.ownTexts element.entity = .ok (Element.node element).line.texts
  names : ∀ number name, .file number name ∈ r.elements →
    ∃ file, r.last.files.numberOf file = number ∧ s.fileName file = .ok name
  unique : ∀ other : Report, other.text = r.text →
    other.elements.map (·.line) = r.elements.map (·.line)

theorem Dump.Course.node_texts {s : Snapshot} {options : Options} {report : Report}
    (course : Course s options report) (sound : s.Sound) {element : NodeElement}
    (member : .node element ∈ report.elements) :
    s.ownTexts element.entity = .ok (Element.node element).line.texts := by
  obtain ⟨draft, drafted, _, shown, _⟩ := course.written sound (Report.mem_nodes.mpr member)
  rw [Snapshot.texts_draft drafted, element.line_texts, shown, List.flatMap_map]
  simp only [Run.texts_resolve]

/-- A dump can be read back, whatever characters the texts of the tree contain. -/
theorem dump_readable (d : Document) (accepted : d.validate = .ok ()) (options : Options) :
    ∃ s report, Snapshot.ofDocument d = .ok s ∧ dump s options = .ok report ∧
      report.Readable s := by
  obtain ⟨s, report, indexed, sound, ⟨course⟩⟩ := Dump.course_of_accepted accepted options
  refine ⟨s, report, indexed, course.dumped sound, ?_⟩
  constructor
  case read => exact report.read
  case texts => exact fun element member => course.node_texts sound member
  case names =>
    intro number name member
    have listed := (course.mem_elements_file sound).mp member
    obtain ⟨file, _, numbered, named⟩ := (course.mem_files sound).mp listed
    exact ⟨file, numbered, named⟩
  case unique =>
    intro other same
    have read := other.read
    rw [same, report.read] at read
    exact (Option.some.inj read).symm

/-- A document whose texts look like parts of a document. -/
def Document.markup : Document where
  files := #["a\"/>\n</GCC_XML>\n"]
  types := #[.builtin "&lt;int&gt;", .other "' name=\"x"]
  decls := #[
    { Declaration.bare .translationUnit "" none with children := [⟨1⟩, ⟨2⟩, ⟨3⟩] },
    { Declaration.bare (.variable (.plain ⟨0⟩)) "x\"/>\n  <File id=\"f1" (some .root) with
      location := some ⟨⟨⟨0⟩, 1⟩, none⟩ },
    .bare (.variable ⟨⟨1⟩, ⟨true, false, true⟩⟩) "&amp;amp;" (some .root),
    .bare (.other "<&>") "" (some .root)]

theorem markup_readable : Document.markup.validate = .ok () ∧
    ∃ s report, Snapshot.ofDocument .markup = .ok s ∧ dump s ⟨[], .element⟩ = .ok report ∧
      report.Readable s :=
  ⟨rfl, dump_readable .markup rfl ⟨[], .element⟩⟩

end AstXml
