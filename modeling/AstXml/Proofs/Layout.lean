import AstXml.Proofs.Reading

/-!
The layout of a dump. What a dump makes itself is printable, and a line feed ends every element;
the texts of the tree are written with all their characters but the five of markup. So these texts
decide whether a document has only characters of XML and a line for each element.
-/
namespace AstXml

namespace Xml

/-- The characters of XML 1.0. -/
def isAllowed (c : Char) : Bool :=
  c = '\t' || c = '\n' || c = '\r' || (0x20 ≤ c.toNat && c.toNat ≠ 0xfffe && c.toNat ≠ 0xffff)

def isPrintable (c : Char) : Bool := 0x20 ≤ c.toNat && c.toNat < 0x7f

theorem isAllowed_of_isPrintable {c : Char} (printable : isPrintable c = true) :
    isAllowed c = true := by
  simp only [isPrintable, Bool.and_eq_true, decide_eq_true_eq] at printable
  simp only [isAllowed, Bool.or_eq_true, Bool.and_eq_true, decide_eq_true_eq]
  omega

theorem isPrintable_of_inReference {c : Char} (inside : inReference c = true) :
    isPrintable c = true := by
  simp only [inReference, Char.isDigit, Char.le_def, Bool.or_eq_true, Bool.and_eq_true,
    decide_eq_true_eq, UInt32.le_iff_toNat_le, ge_iff_le, or_assoc] at inside
  simp only [isPrintable, Bool.and_eq_true, decide_eq_true_eq]
  rcases inside with digit | lower | upper | rfl | rfl | rfl
  · simp at digit
    omega
  · simp at lower
    omega
  · simp at upper
    omega
  all_goals decide

theorem not_mem_of_printable {c : Char} (odd : isPrintable c = false) {text : List Char}
    (printable : text.all isPrintable = true) : c ∉ text := by
  intro member
  cases odd.symm.trans (List.all_eq_true.mp printable c member)

theorem Made.not_mem {text : String} (h : Made text) {c : Char} (odd : isPrintable c = false) :
    c ∉ text.toList := by
  apply not_mem_of_printable odd
  exact List.all_eq_true.mpr fun c member => isPrintable_of_inReference (h c member)

theorem mem_escapeChar {c : Char} (odd : isPrintable c = false) (d : Char) :
    c ∈ escapeChar d ↔ c = d := by
  by_cases mark : d ∈ marks
  · have entities : marks.all (fun d => (d :: escapeChar d).all isPrintable) = true := by decide
    have printable := List.all_eq_true.mp entities d mark
    obtain ⟨differs, absent⟩ :=
      List.ne_and_not_mem_of_not_mem_cons (not_mem_of_printable odd printable)
    exact iff_of_false absent differs
  · simp [escapeChar_of_not_mark mark]

theorem mem_textAttribute {c : Char} (odd : isPrintable c = false) {name : String}
    (made : Made name) (value : String) :
    c ∈ (textAttribute name value).toList ↔ c ∈ value.toList := by
  have signs : c ∉ [' ', '=', '"'] := not_mem_of_printable odd (by decide)
  simp only [List.mem_cons, List.not_mem_nil, or_false, not_or] at signs
  simp [toList_textAttribute, made.not_mem odd, mem_escapeChar odd, signs]

/-- The lines before the first element. -/
def opening : List String :=
  ["<?xml version=\"1.0\"?>", "<GCC_XML version=\"0.9.0\" cvs_revision=\"1.136\">"]

/-- What follows the last element. -/
def closing : List String := ["</GCC_XML>"]

/-- A line without its line feed. -/
def Line.body (line : Line) : String :=
  String.join (openElement line.tag ::
    (line.attributes.map (fun (name, value) => textAttribute name value) ++ ["/>"]))

theorem Line.join_pieces (line : Line) :
    (String.join line.pieces).toList = line.body.toList ++ ['\n'] := by
  simp [pieces, body, closeElement]

/-- Only its values bring characters into a line that are not printable. -/
theorem Line.mem_body {line : Line} {c : Char} (odd : isPrintable c = false)
    (tag : Made line.tag) (names : ∀ pair ∈ line.attributes, Made pair.1) :
    c ∈ line.body.toList ↔ ∃ pair ∈ line.attributes, c ∈ pair.2.toList := by
  have signs : c ∉ [' ', '<', '/', '>'] := not_mem_of_printable odd (by decide)
  simp only [List.mem_cons, List.not_mem_nil, or_false, not_or] at signs
  have text : line.body.toList = ' ' :: ' ' :: '<' :: (line.tag.toList ++
      (line.attributes.flatMap (fun pair => (textAttribute pair.1 pair.2).toList)
        ++ ['/', '>'])) := by
    simp [body, openElement, List.flatMap_map]
  have values : c ∈ line.attributes.flatMap (fun pair => (textAttribute pair.1 pair.2).toList) ↔
      ∃ pair ∈ line.attributes, c ∈ pair.2.toList := by
    rw [List.mem_flatMap]
    exact exists_congr fun pair => and_congr_right fun listed =>
      mem_textAttribute odd (names pair listed) pair.2
  simp [text, tag.not_mem odd, values, signs]

end Xml

/-! Tags and names are words, and so is every value but the texts of the tree. -/

theorem Attribute.made_names (a : Attribute Nat Nat) : ∀ pair ∈ a.pairs, Xml.Made pair.1 := by
  cases a with
  | members nodes => cases nodes <;> simp [pairs, Xml.Made, Xml.inReference]
  | _ => simp [pairs, Xml.Made, Xml.inReference]

theorem Attribute.made_values (a : Attribute Nat Nat) :
    ∀ pair ∈ a.pairs, pair ∉ a.texts → Xml.Made pair.2 := by
  cases a with
  | type node quals => simpa [pairs] using fun _ => Xml.made_typeReference node quals
  | context node => simpa [pairs] using fun _ => Xml.made_nodeId node
  | access a => simpa [pairs] using fun _ => a.made_word
  | location file line =>
    have file' := Xml.made_fileId file
    have line' := Xml.made_digits line.toNat
    have colon : Xml.Made ":" := by simp [Xml.Made, Xml.inReference]
    simpa [pairs, texts] using ⟨(file'.append colon).append line', file', line'⟩
  | members nodes =>
    cases nodes with
    | nil => simp [pairs]
    | cons first rest => simpa [pairs] using fun _ => Xml.made_nodeIds first rest
  | incomplete => simp [pairs, Xml.Made, Xml.inReference]
  | _ => simp [pairs, texts]

theorem Tag.made_text (tag : Tag) : Xml.Made tag.text := by
  cases tag with
  | record key => cases key <;> simp [text, ClassKey.element, Xml.Made, Xml.inReference]
  | _ => simp [text, Xml.Made, Xml.inReference]

theorem Qualifiers.made_pairs (quals : Qualifiers) :
    ∀ pair ∈ quals.pairs, Xml.Made pair.1 ∧ Xml.Made pair.2 := by
  obtain ⟨c, v, r⟩ := quals
  cases c <;> cases v <;> cases r <;> simp [pairs, Xml.Made, Xml.inReference]

/-- What an element is written with besides the texts it shows. -/
theorem Element.made_line (element : Element) : Xml.Made element.line.tag ∧
    ∀ pair ∈ element.line.attributes, Xml.Made pair.1 ∧
      (pair ∉ element.line.texts → Xml.Made pair.2) := by
  have id : Xml.Made "id" := by simp [Xml.Made, Xml.inReference]
  cases element with
  | node element =>
    refine ⟨element.tag.made_text, ?_⟩
    rw [NodeElement.line_texts]
    simp only [line, List.forall_mem_cons, List.mem_flatMap, forall_exists_index, and_imp]
    refine ⟨⟨id, fun _ => Xml.made_nodeId _⟩, fun pair a listed member => ?_⟩
    refine ⟨a.made_names pair member, fun other => a.made_values pair member fun shown => ?_⟩
    exact other ⟨a, listed, shown⟩
  | qualified base quals =>
    have type : Xml.Made "type" := by simp [Xml.Made, Xml.inReference]
    refine ⟨by simp [line, Xml.Made, Xml.inReference], ?_⟩
    simp only [line, List.forall_mem_cons]
    refine ⟨⟨id, fun _ => Xml.made_typeReference base quals⟩,
      ⟨type, fun _ => Xml.made_nodeId base⟩, fun pair listed => ?_⟩
    exact ⟨(quals.made_pairs pair listed).1, fun _ => (quals.made_pairs pair listed).2⟩
  | file number name =>
    have file := Xml.made_fileId number
    refine ⟨by simp [line, Xml.Made, Xml.inReference], ?_⟩
    simpa [line, Xml.Line.texts, id, file] using by simp [Xml.Made, Xml.inReference]

theorem Element.mem_body {element : Element} {c : Char} (odd : Xml.isPrintable c = false) :
    c ∈ element.line.body.toList ↔ ∃ pair ∈ element.line.texts, c ∈ pair.2.toList := by
  obtain ⟨tag, attributes⟩ := element.made_line
  rw [Xml.Line.mem_body odd tag fun pair listed => (attributes pair listed).1]
  constructor
  · rintro ⟨pair, listed, member⟩
    refine ⟨pair, ?_, member⟩
    by_contra other
    exact ((attributes pair listed).2 other).not_mem odd member
  · rintro ⟨pair, shown, member⟩
    exact ⟨pair, (List.mem_filter.mp shown).1, member⟩

theorem not_mem_of_mem_splitOn {α : Type} [BEq α] [LawfulBEq α] {a : α} {text piece : List α}
    (member : piece ∈ text.splitOn a) : a ∉ piece := by
  induction text generalizing piece with
  | nil =>
    cases List.mem_singleton.mp (List.splitOn_nil a ▸ member)
    exact List.not_mem_nil
  | cons c rest ih =>
    obtain ⟨first, others, pieces⟩ := List.exists_cons_of_ne_nil (List.splitOn_ne_nil a rest)
    rw [List.splitOn_cons_eq_if_modifyHead, pieces] at member
    rw [pieces] at ih
    split at member
    · rcases List.mem_cons.mp member with rfl | later
      · exact List.not_mem_nil
      · exact ih later
    · rename_i differs
      rcases List.mem_cons.mp member with rfl | later
      · have unlike : a ≠ c := fun same => differs (by simp [same])
        exact List.not_mem_cons_of_ne_of_not_mem unlike (ih List.mem_cons_self)
      · exact ih (List.mem_cons_of_mem _ later)

/-- Ended lines are told apart by what ends them if none of them contains it. -/
theorem splitOn_lines_iff {α : Type} [BEq α] [LawfulBEq α] {a : α} {lines : List (List α)} :
    (lines.flatMap (· ++ [a])).splitOn a = lines ++ [[]] ↔ ∀ line ∈ lines, a ∉ line := by
  constructor
  · intro split line member
    apply not_mem_of_mem_splitOn
    rw [split]
    exact List.mem_append_left _ member
  · intro free
    induction lines with
    | nil => rfl
    | cons line others ih =>
      obtain ⟨here, later⟩ := List.forall_mem_cons.mp free
      rw [List.flatMap_cons, List.append_assoc, List.singleton_append,
        List.splitOn_append_cons_self_of_not_mem here, ih later, List.cons_append]

namespace Report

variable (r : Report)

/-- The lines of a document: one for each element, in a frame of three. -/
def lines : List String := Xml.opening ++ r.elements.map (·.line.body) ++ Xml.closing

/-- The texts of the tree that a document shows, as the tree has them. -/
def shown : List String := r.elements.flatMap fun element => element.line.texts.map (·.2)

theorem toList_text : r.text.toList = r.lines.flatMap fun line => line.toList ++ ['\n'] := by
  have elements : (r.elements.map (·.line)).flatMap (fun line => (String.join line.pieces).toList) =
      r.elements.flatMap fun element => element.line.body.toList ++ ['\n'] := by
    rw [List.flatMap_map]
    exact List.flatMap_congr fun element _ => element.line.join_pieces
  have pieces : r.text.toList = Xml.startDocument.toList ++
      ((r.elements.map (·.line)).flatMap (fun line => (String.join line.pieces).toList)
        ++ Xml.endDocument.toList) := by
    rw [r.text_eq]
    simp [List.flatMap_assoc]
  rw [pieces, elements]
  simp [lines, List.flatMap_map, Xml.startDocument, Xml.endDocument, Xml.opening, Xml.closing]

variable {r}

theorem mem_lines {c : Char} (odd : Xml.isPrintable c = false) :
    (∃ line ∈ r.lines, c ∈ line.toList) ↔ ∃ text ∈ r.shown, c ∈ text.toList := by
  have frame : ∀ line ∈ Xml.opening ++ Xml.closing, c ∉ line.toList := by
    have printable : (Xml.opening ++ Xml.closing).all (·.toList.all Xml.isPrintable) = true := by
      decide
    intro line listed
    exact Xml.not_mem_of_printable odd (List.all_eq_true.mp printable line listed)
  obtain ⟨before, after⟩ := List.forall_mem_append.mp frame
  have elements : (∃ line ∈ r.elements.map (·.line.body), c ∈ line.toList) ↔
      ∃ text ∈ r.shown, c ∈ text.toList := by
    simp only [shown, List.mem_map, List.mem_flatMap]
    constructor
    · rintro ⟨_, ⟨element, written, rfl⟩, member⟩
      obtain ⟨pair, listed, member⟩ := (Element.mem_body odd).mp member
      exact ⟨pair.2, ⟨element, written, pair, listed, rfl⟩, member⟩
    · rintro ⟨_, ⟨element, written, pair, listed, rfl⟩, member⟩
      exact ⟨_, ⟨element, written, rfl⟩, (Element.mem_body odd).mpr ⟨pair, listed, member⟩⟩
  rw [← elements, lines]
  constructor
  · rintro ⟨line, listed, member⟩
    rcases List.mem_append.mp listed with listed | closing
    · rcases List.mem_append.mp listed with opening | written
      · exact absurd member (before line opening)
      · exact ⟨line, written, member⟩
    · exact absurd member (after line closing)
  · rintro ⟨line, written, member⟩
    exact ⟨line, List.mem_append_left _ (List.mem_append_right _ written), member⟩

theorem mem_text {c : Char} (forbidden : Xml.isAllowed c = false) :
    c ∈ r.text.toList ↔ ∃ text ∈ r.shown, c ∈ text.toList := by
  have odd : Xml.isPrintable c = false := by
    rw [← Bool.not_eq_true] at forbidden ⊢
    exact fun printable => forbidden (Xml.isAllowed_of_isPrintable printable)
  have feed : c ≠ '\n' := by
    rintro rfl
    cases forbidden
  rw [← mem_lines odd, toList_text]
  simp [List.mem_flatMap, feed]

theorem split_text_iff : r.text.toList.splitOn '\n' = r.lines.map (·.toList) ++ [[]] ↔
    ∀ text ∈ r.shown, '\n' ∉ text.toList := by
  have frame : r.text.toList = (r.lines.map (·.toList)).flatMap (· ++ ['\n']) := by
    rw [toList_text, List.flatMap_map]
  rw [frame, splitOn_lines_iff, List.forall_mem_map]
  have shown := (mem_lines (r := r) (c := '\n') rfl).not
  push Not at shown
  exact shown

end Report

/-- The texts of a tree that a document can show. -/
inductive Snapshot.HasText (s : Snapshot) : String → Prop
  | entity {e texts pair} (own : s.ownTexts e = .ok texts) (member : pair ∈ texts) :
      s.HasText pair.2
  | file {f name} (named : s.fileName f = .ok name) : s.HasText name

theorem Dump.Course.hasText {s : Snapshot} {options : Options} {report : Report}
    (course : Course s options report) (sound : s.Sound) {text : String}
    (shown : text ∈ report.shown) : s.HasText text := by
  simp only [Report.shown, List.mem_flatMap, List.mem_map] at shown
  obtain ⟨element, written, pair, listed, rfl⟩ := shown
  cases element with
  | node element => exact .entity (course.node_texts sound written) listed
  | qualified base quals =>
    obtain ⟨c, v, r⟩ := quals
    cases c <;> cases v <;> cases r <;>
      simp [Element.line, Xml.Line.texts, Qualifiers.pairs] at listed
  | file number name =>
    have named : pair.2 = name := by
      simp [Element.line, Xml.Line.texts] at listed
      simp [listed]
    obtain ⟨file, _, _, found⟩ :=
      (course.mem_files sound).mp ((course.mem_elements_file sound).mp written)
    exact named ▸ .file found

/-- How a document is laid out. The texts that it shows, which are texts of the tree, bring into it
what XML forbids, and decide by their line feeds whether its lines are its elements. -/
structure Report.LaidOut (r : Report) (s : Snapshot) : Prop where
  forbidden : ∀ c, Xml.isAllowed c = false →
    (c ∈ r.text.toList ↔ ∃ text ∈ r.shown, c ∈ text.toList)
  lines : r.text.toList.splitOn '\n' = r.lines.map (·.toList) ++ [[]] ↔
    ∀ text ∈ r.shown, '\n' ∉ text.toList
  whole : ∀ element ∈ r.elements,
    Xml.readLine? (element.line.body.toList ++ ['\n']) = some (element.line, [])
  texts : ∀ text ∈ r.shown, s.HasText text

/-- A dump has only characters of XML, and a line for each element, exactly if the texts that it
shows have only such characters and no line feed. -/
theorem dump_laid_out (d : Document) (accepted : d.validate = .ok ()) (options : Options) :
    ∃ s report, Snapshot.ofDocument d = .ok s ∧ dump s options = .ok report ∧
      report.LaidOut s := by
  obtain ⟨s, report, indexed, sound, ⟨course⟩⟩ := Dump.course_of_accepted accepted options
  refine ⟨s, report, indexed, course.dumped sound, ?_⟩
  constructor
  case forbidden => exact fun c forbidden => Report.mem_text forbidden
  case lines => exact Report.split_text_iff
  case whole =>
    intro element _
    rw [← Xml.Line.join_pieces, ← List.append_nil (String.toList _)]
    exact Xml.readLine?_text element.line_legible []
  case texts => exact fun text shown => course.hasText sound shown

theorem markup_laid_out : Document.markup.validate = .ok () ∧
    ∃ s report, Snapshot.ofDocument .markup = .ok s ∧ dump s ⟨[], .element⟩ = .ok report ∧
      report.LaidOut s :=
  ⟨rfl, dump_laid_out .markup rfl ⟨[], .element⟩⟩

/-- A document with a line feed in one name and a control character in another. -/
def Document.controls : Document where
  files := #[]
  types := #[]
  decls := #[
    { Declaration.bare .translationUnit "" none with children := [⟨1⟩, ⟨2⟩] },
    .bare .nameSpace "a\nb" (some .root),
    .bare .nameSpace "\x01" (some .root)]

def Snapshot.controls : Snapshot := ⟨.controls, #[⟨0⟩, ⟨1⟩, ⟨2⟩], #[none, none, none]⟩

/-- Names are not kept from bringing forbidden characters into a document, or from breaking its
lines. -/
theorem controls_broken :
    (¬ ∀ (d : Document) (s : Snapshot) (options : Options) (report : Report),
      d.validate = .ok () → Snapshot.ofDocument d = .ok s → dump s options = .ok report →
      ∀ c ∈ report.text.toList, Xml.isAllowed c = true) ∧
    ¬ ∀ (d : Document) (s : Snapshot) (options : Options) (report : Report),
      d.validate = .ok () → Snapshot.ofDocument d = .ok s → dump s options = .ok report →
      report.text.toList.splitOn '\n' = report.lines.map (·.toList) ++ [[]] := by
  have dumped : (dump .controls ⟨[], .suffix⟩).map (·.shown) = .ok ["::", "a\nb", "\x01"] := by
    decide +kernel
  obtain ⟨report, written, shown⟩ := Outcome.map_eq_ok.mp dumped
  constructor
  · intro allowed
    have member : '\x01' ∈ report.text.toList :=
      (Report.mem_text rfl).mpr ⟨"\x01", by simp [shown], by decide⟩
    cases allowed .controls .controls ⟨[], .suffix⟩ report rfl rfl written _ member
  · intro lines
    have split := lines .controls .controls ⟨[], .suffix⟩ report rfl rfl written
    have free := Report.split_text_iff.mp split "a\nb" (by simp [shown])
    exact free (by decide)

end AstXml
