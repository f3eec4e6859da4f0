import AstXml.Proofs.Document.Places
import AstXml.Proofs.Json.Trees

/-!
A document is read from what its text says, not from how it is written. The order of members,
blanks, escapes and foreign members with simple values are a matter of writing.
-/
namespace AstXml
open Json

/-- The values of foreign keys are skipped unread. -/
def Role.skips : Role → Bool
  | document | location | expansion => true
  | declaration | type | qualified => false

/-- Null, a boolean, a string, or an integer of 32 bits and a sign. Where the values of foreign keys
are read, a string has to stand for a text. -/
inductive Role.Simple (role : Role) : Tree → Prop
  | null : Simple role .null
  | bool (b : Bool) : Simple role (.bool b)
  | integer {n : Numeral} (unbroken : n.fraction = []) (unscaled : n.exponent = none)
    (small : Numeral.value n.whole < 4294967296) : Simple role (.number n)
  | text {t : Text} (proper : role.skips = true ∨ t.value?.isSome = true) : Simple role (.text t)

theorem Role.Simple.accepted {role : Role} {value : Tree} (simple : role.Simple value) :
    role.schema.foreign value = true := by
  have readable : role.skips = true ∨ ∀ level, value.isReadable level = true := by
    cases simple with
    | null => exact .inr fun _ => rfl
    | bool => exact .inr fun _ => rfl
    | integer unbroken unscaled small =>
      exact .inr fun _ => Numeral.isFinite_of_integer unbroken unscaled small
    | text proper => exact proper.imp_right fun text _ => text
  rcases readable with skips | readable
  · cases role with
    | document | location | expansion => rfl
    | declaration | type | qualified => cases skips
  · cases role with
    | document | location | expansion => rfl
    | declaration | type => exact readable 3
    | qualified => exact readable 4

theorem Document.parse?_of_written {tree : Tree} {text : String} (written : tree.Written text) :
    Document.parse? text = Document.ofJson? tree := by
  rw [Document.parse?, Tree.parse?_eq_some_iff.mpr written, Option.bind_some]

/-- Reading a document goes by what its text says. The order of the members of objects, blanks
between tokens, and the spelling of tokens do not matter. Neither does a member that no field of a
structure reads, if its key stands for a text and its value is simple. A key of a structure that is
given twice is refused wherever the two members stand. -/
theorem Document.spelling_irrelevant :
    (∀ tree tree' text text', Relation.ReflTransGen Shuffled tree tree' → tree.Written text →
      tree'.Written text' → Document.parse? text' = Document.parse? text) ∧
    (∀ tree before after front blanks back, Tree.tokens tree = before ++ after →
      TokenText before front → TokenText after back → (∀ c ∈ blanks, isBlank c = true) →
      Document.parse? (.ofList (front ++ blanks ++ back)) =
        Document.parse? (.ofList (front ++ back))) ∧
    (∀ role fill before key k value after text text', Place role .document fill →
      Text.value? key = some k → k ∉ role.schema.keys (.object (before ++ after)) →
      role.Simple value → (fill (.object (before ++ after))).Written text →
      (fill (.object (before ++ (key, value) :: after))).Written text' →
      Document.parse? text' = Document.parse? text) ∧
    (∀ role fill members k text, Place role .document fill →
      k ∈ role.schema.keys (.object members) → Twice k members →
      (fill (.object members)).Written text → Document.parse? text = none) := by
  have something : ∀ members, Tree.object members ≠ .null := by
    intro members null
    cases null
  refine ⟨?_, ?_, ?_, ?_⟩
  · intro tree tree' text text' shuffled written written'
    rw [parse?_of_written written, parse?_of_written written']
    exact (Document.blind.steps shuffled).symm
  · intro tree before after front blanks back tokens first second blank
    have plain : tree.Written (.ofList (front ++ back)) := by
      rw [Tree.Written, String.toList_ofList, tokens]
      exact first.append second
    have spaced : tree.Written (.ofList (front ++ blanks ++ back)) := by
      rw [Tree.Written, String.toList_ofList, tokens]
      simpa using (first.append (.blanks blank)).append second
    rw [parse?_of_written plain, parse?_of_written spaced]
  · intro role fill before key k value after text text' place named other simple written written'
    rw [parse?_of_written written, parse?_of_written written']
    refine place.through.congr (something _) (something _) ?_
    exact Schema.read?_foreign named other simple.accepted
  · intro role fill members k text place own twice written
    rw [parse?_of_written written]
    refine place.through.refused (something _) ?_
    exact Schema.read?_twice own twice

/-- A document with its fields in another order and blanks between them, one with a blank more, one
with a foreign member in a qualified type, and one that names a declaration twice. -/
theorem Document.spelled_runs :
    Document.parse? "\x7b \"types\" : [ ],\n\"files\":[ ] \x7d" =
      Document.parse? "\x7b\"files\":[],\"types\":[]\x7d" ∧
    Document.parse? (.ofList (['\x7b'] ++ ['\t'] ++ ['\x7d'])) =
      Document.parse? (.ofList (['\x7b'] ++ ['\x7d'])) ∧
    Document.parse?
        "\x7b\"types\":[\x7b\"kind\":\"pointer\",\"pointee\":\x7b\"x\":7,\"type\":0\x7d\x7d]\x7d" =
      Document.parse?
        "\x7b\"types\":[\x7b\"kind\":\"pointer\",\"pointee\":\x7b\"type\":0\x7d\x7d]\x7d" ∧
    Document.parse?
        "\x7b\"decls\":[\x7b\"name\":\"a\",\"kind\":\"namespace\",\"name\":\"b\"\x7d]\x7d" =
      none := by
  obtain ⟨ordered, spaced, added, twice⟩ := Document.spelling_irrelevant
  have read : ∀ {text tree}, Tree.parse? text = some tree → tree.Written text :=
    Tree.parse?_eq_some_iff.mp
  have decls : Place .declaration .document fun tree =>
      (Gap.member [] (.ofString "decls") []).fill (.array ([] ++ tree :: [])) :=
    .many rfl (fun _ => rfl) [] [] .here
  have pointee : Place .qualified .document fun tree =>
      (Gap.member [] (.ofString "types") []).fill (.array ([] ++
        (Gap.member [(.ofString "kind", ofString "pointer")] (.ofString "pointee") []).fill tree ::
          [])) :=
    .many rfl (fun _ => rfl) [] [] (.one rfl (fun _ => rfl) .here)
  refine ⟨?_, ?_, ?_, ?_⟩
  · exact ordered (.object [(.ofString "files", .array []), (.ofString "types", .array [])]) _ _ _
      (.single (.members (.swap ..))) (read rfl) (read rfl)
  · exact spaced (.object []) [.openObject] [.closeObject] _ _ _ rfl
      (TokenText.nil.token (.mark rfl)) (TokenText.nil.token (.mark rfl))
      (List.forall_mem_singleton.mpr rfl)
  · have small : Numeral.value (Numeral.ofNat 7).whole < 4294967296 := by
      rw [Numeral.ofNat, Numeral.value_digitsOf]
      decide
    have simple : Role.qualified.Simple (.number (.ofNat 7)) := .integer rfl rfl small
    exact added .qualified _ [] (.ofString "x") "x" _ [(.ofString "type", ofWord 0)] _ _ pointee
      rfl (by decide) simple (read rfl) (read rfl)
  · exact twice .declaration _ [(.ofString "name", ofString "a"),
      (.ofString "kind", ofString "namespace"), (.ofString "name", ofString "b")] "name" _
      decls (by decide) ⟨[], _, [_], _, [], rfl, rfl, rfl⟩ (read rfl)

/-- Half of a surrogate pair stands for no text. As a key it is refused everywhere, although it is
no key of a structure, and as a string where the values of foreign keys are read. -/
theorem Document.half_refused :
    (∀ k ∈ Role.document.schema.keys (.object []), Text.value? [.half 0xD800] ≠ some k) ∧
    Document.parse? "\x7b\x7d" = some ⟨#[], #[], #[]⟩ ∧
    Document.parse? "\x7b\"\\ud800\":null\x7d" = none ∧
    Document.parse? "\x7b\"types\":[\x7b\"kind\":\"other\",\"type_class\":\"a\"\x7d]\x7d" =
      some ⟨#[], #[.other "a"], #[]⟩ ∧
    Document.parse?
      "\x7b\"types\":[\x7b\"kind\":\"other\",\"type_class\":\"a\",\"x\":\"\\ud800\"\x7d]\x7d" =
        none := by
  refine ⟨by decide, rfl, ?_, rfl, ?_⟩
  · decide +kernel
  · decide +kernel

end AstXml
