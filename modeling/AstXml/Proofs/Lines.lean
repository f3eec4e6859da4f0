import Mathlib.Data.List.TakeWhile
import AstXml.Xml.Line

/-!
The text of a line leads its reader back to the line, whatever the values of its attributes are:
escaping leaves no double quote in a value, so a value ends where it was ended.
-/
namespace AstXml.Xml

theorem unescape_cons {c : Char} (ordinary : c ≠ '&') (rest : List Char) :
    unescape (c :: rest) = c :: unescape rest := by
  rw [unescape.eq_def]
  split <;> simp_all

theorem unescape_escapeChar (c : Char) (rest : List Char) :
    unescape (escapeChar c ++ rest) = c :: unescape rest := by
  unfold escapeChar
  split
  case h_6 ordinary _ _ _ _ => exact unescape_cons ordinary rest
  all_goals rfl

theorem unescape_escape (text : List Char) : unescape (text.flatMap escapeChar) = text := by
  induction text with
  | nil => rfl
  | cons c rest ih => rw [List.flatMap_cons, unescape_escapeChar, ih]

theorem quote_not_mem_escape (text : List Char) : '"' ∉ text.flatMap escapeChar := by
  rw [List.mem_flatMap]
  rintro ⟨c, _, member⟩
  unfold escapeChar at member
  split at member
  case h_6 _ _ _ notQuote _ => exact notQuote (List.mem_singleton.mp member).symm
  all_goals simp at member

theorem upTo?_append {stop : Char} {before : List Char} (free : stop ∉ before)
    (after : List Char) : upTo? stop (before ++ stop :: after) = some (before, after) := by
  induction before with
  | nil => simp [upTo?]
  | cons c rest ih =>
    obtain ⟨differs, free⟩ := List.ne_and_not_mem_of_not_mem_cons free
    simp [upTo?, ih free, Ne.symm differs]

theorem toList_textAttribute (name value : String) : (textAttribute name value).toList =
    ' ' :: (name.toList ++ '=' :: '"' :: (value.toList.flatMap escapeChar ++ ['"'])) := by
  simp [textAttribute, plainAttribute, escape]

/-- A line whose tag and names end where the reader takes them to end. Its values may be any
text. -/
structure Line.Legible (line : Line) : Prop where
  tag : ∀ c ∈ line.tag.toList, inTag c = true
  names : ∀ pair ∈ line.attributes, '=' ∉ pair.1.toList

theorem readAttribute?_text {name : String} (free : '=' ∉ name.toList) (value : String)
    (rest : List Char) :
    readAttribute? (name.toList ++ '=' :: '"' :: (value.toList.flatMap escapeChar ++ '"' :: rest)) =
      some ((name, value), rest) := by
  unfold readAttribute?
  simp only [upTo?_append free, upTo?_append (quote_not_mem_escape _), unescape_escape,
    Option.map_some, String.ofList_toList]

theorem readAttributes?_text {pairs : List (String × String)}
    (free : ∀ pair ∈ pairs, '=' ∉ pair.1.toList) (rest : List Char) :
    readAttributes? (pairs.flatMap (fun pair => (textAttribute pair.1 pair.2).toList)
      ++ (closeElement.toList ++ rest)) = some (pairs, rest) := by
  induction pairs with
  | nil =>
    change readAttributes? ('/' :: '>' :: '\n' :: rest) = _
    rw [readAttributes?]
  | cons pair others ih =>
    obtain ⟨here, later⟩ := List.forall_mem_cons.mp free
    rw [List.flatMap_cons, toList_textAttribute]
    simp only [List.cons_append, List.append_assoc, List.nil_append]
    rw [readAttributes?, readAttribute?_text here]
    simp only [ih later, Option.map_some]

theorem toList_pieces (line : Line) : (String.join line.pieces).toList =
    ' ' :: ' ' :: '<' :: (line.tag.toList ++
      (line.attributes.flatMap (fun pair => (textAttribute pair.1 pair.2).toList)
        ++ closeElement.toList)) := by
  simp [Line.pieces, openElement, List.flatMap_map]

theorem readLine?_text {line : Line} (legible : line.Legible) (rest : List Char) :
    readLine? ((String.join line.pieces).toList ++ rest) = some (line, rest) := by
  have stops : ∃ c after, inTag c = false ∧
      line.attributes.flatMap (fun pair => (textAttribute pair.1 pair.2).toList)
        ++ (closeElement.toList ++ rest) = c :: after := by
    cases line.attributes with
    | nil => exact ⟨'/', _, rfl, rfl⟩
    | cons pair others =>
      rw [List.flatMap_cons, toList_textAttribute]
      exact ⟨' ', _, rfl, rfl⟩
  have read := readAttributes?_text legible.names rest
  obtain ⟨c, after, outside, attributes⟩ := stops
  rw [attributes] at read
  rw [toList_pieces]
  simp only [List.cons_append, List.append_assoc, attributes, readLine?]
  rw [List.takeWhile_append_of_pos legible.tag, List.dropWhile_append_of_pos legible.tag,
    List.takeWhile_cons_of_neg (by simp [outside]), List.dropWhile_cons_of_neg (by simp [outside]),
    read]
  simp

theorem readLines?_text {lines : List Line} (legible : ∀ line ∈ lines, line.Legible) :
    readLines? (lines.flatMap (fun line => (String.join line.pieces).toList)
      ++ endDocument.toList) = some lines := by
  induction lines with
  | nil => rw [List.flatMap_nil, List.nil_append, readLines?, if_pos rfl]
  | cons line others ih =>
    obtain ⟨here, later⟩ := List.forall_mem_cons.mp legible
    have more : (String.join line.pieces).toList ++
        (others.flatMap (fun line => (String.join line.pieces).toList) ++ endDocument.toList) ≠
        endDocument.toList := by
      rw [toList_pieces]
      simp [endDocument]
    rw [List.flatMap_cons, List.append_assoc, readLines?, if_neg more, readLine?_text here]
    simp only [ih later, Option.map_some]

/-- Legible lines in a document's frame are read back as they are. -/
theorem read?_text {lines : List Line} (legible : ∀ line ∈ lines, line.Legible) :
    read? (String.join (startDocument :: (lines.flatMap (·.pieces) ++ [endDocument]))) =
      some lines := by
  have text : (String.join (startDocument :: (lines.flatMap (·.pieces) ++ [endDocument]))).toList =
      startDocument.toList ++ (lines.flatMap (fun line => (String.join line.pieces).toList)
        ++ endDocument.toList) := by
    simp [List.flatMap_assoc]
  rw [read?, text, if_pos (List.isPrefixOf_iff_prefix.mpr (List.prefix_append ..)),
    List.drop_left, readLines?_text legible]

end AstXml.Xml
