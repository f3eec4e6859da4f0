import AstXml.Element

/-!
What an id says can be read back from its text: whether it is the id of a node, of a qualified
form or of a source file, its number, and its qualifiers.
-/
namespace AstXml

theorem digits_inj {a b : Nat} (same : Nat.toDigits 10 a = Nat.toDigits 10 b) : a = b := by
  rw [← Nat.ofDigitChars_ten_toDigits (n := a), same, Nat.ofDigitChars_ten_toDigits]

namespace Qualifiers

theorem suffix_inj {p q : Qualifiers} (same : p.suffix.toList = q.suffix.toList) : p = q := by
  obtain ⟨c, v, r⟩ := p
  obtain ⟨c', v', r'⟩ := q
  revert c v r c' v' r'
  decide

theorem suffix_digits (q : Qualifiers) : q.suffix.toList.takeWhile Char.isDigit = [] := by
  obtain ⟨c, v, r⟩ := q
  revert c v r
  decide

theorem suffix_ne_empty {q : Qualifiers} : q.suffix ≠ "" ↔ q ≠ none := by
  obtain ⟨c, v, r⟩ := q
  revert c v r
  decide

end Qualifiers

theorem typeReference_toList (n : Nat) (q : Qualifiers) :
    (typeReference n q).toList = '_' :: (Nat.toDigits 10 n ++ q.suffix.toList) := by
  simp [typeReference, nodeId]

theorem typeReference_none (n : Nat) : typeReference n .none = nodeId n := by
  simp [typeReference, Qualifiers.suffix, Qualifiers.none]

theorem typeReference_inj {a b : Nat} {p q : Qualifiers}
    (same : typeReference a p = typeReference b q) : a = b ∧ p = q := by
  have lists := congrArg String.toList same
  simp only [typeReference_toList, List.cons.injEq, true_and] at lists
  have digits : ∀ n, ∀ c ∈ Nat.toDigits 10 n, c.isDigit = true :=
    fun n c member => Nat.isDigit_of_mem_toDigits (by decide) (by decide) member
  have numbers := congrArg (List.takeWhile Char.isDigit) lists
  simp only [List.takeWhile_append_of_pos (digits _), Qualifiers.suffix_digits,
    List.append_nil] at numbers
  rw [numbers] at lists
  exact ⟨digits_inj numbers, Qualifiers.suffix_inj (List.append_cancel_left lists)⟩

theorem nodeId_inj {a b : Nat} (same : nodeId a = nodeId b) : a = b := by
  rw [← typeReference_none, ← typeReference_none] at same
  exact (typeReference_inj same).1

theorem fileId_inj {a b : Nat} (same : fileId a = fileId b) : a = b := by
  have lists := congrArg String.toList same
  exact digits_inj (by simpa [fileId] using lists)

theorem fileId_ne_typeReference (a b : Nat) (q : Qualifiers) : fileId a ≠ typeReference b q := by
  intro same
  have lists := congrArg String.toList same
  simp [typeReference_toList, fileId] at lists

end AstXml
