import Mathlib.Data.Option.Basic
import AstXml.Json.Token

/-!
Numerals: the characters they are made of, how natural numbers are written, and that those of
32 bits are representable.
-/
namespace AstXml.Json.Numeral

/-! A numeral goes on as long as its characters do. -/

theorem startsNumeral_facts {c : Char} (starts : startsNumeral c = true) :
    isBlank c = false ∧ c ≠ '"' ∧ isLetter c = false ∧ continuesNumeral c = true := by
  have range : c.toNat ≤ 57 ∧ 43 ≤ c.toNat := by
    simp only [startsNumeral, Bool.or_eq_true, Bool.and_eq_true, decide_eq_true_eq] at starts
    rcases starts with (digit | rfl) | rfl
    · omega
    · decide
    · decide
  have other : ∀ d : Char, d.toNat < 43 → c ≠ d := by
    rintro d small rfl
    omega
  have letter : isLetter c = false := by
    simp only [isLetter, Bool.and_eq_false_iff, decide_eq_false_iff_not]
    omega
  have blank : isBlank c = false := by
    simp only [isBlank, Bool.or_eq_false_iff, decide_eq_false_iff_not]
    exact ⟨⟨⟨other _ (by decide), other _ (by decide)⟩, other _ (by decide)⟩, other _ (by decide)⟩
  exact ⟨blank, other _ (by decide), letter, by simp [continuesNumeral, starts]⟩

theorem startsNumeral_digit {c : Char} {d : Digit} (digit : Digit.ofChar? c = some d) :
    startsNumeral c = true := by
  unfold Digit.ofChar? at digit
  split at digit
  · rename_i range
    simp [startsNumeral, range]
  · cases digit

/-- What stands in front of the rest is the run of digits. -/
theorem splitDigits_chars (text : List Char) : ∃ front, text = front ++ (splitDigits text).2 ∧
    front.length = (splitDigits text).1.length ∧ ∀ c ∈ front, startsNumeral c = true := by
  induction text with
  | nil => exact ⟨[], rfl, rfl, fun _ member => nomatch member⟩
  | cons c rest ih =>
    unfold splitDigits
    split
    · rename_i d digit
      obtain ⟨front, parts, counted, starts⟩ := ih
      refine ⟨c :: front, congrArg (c :: ·) parts, congrArg (· + 1) counted, ?_⟩
      exact List.forall_mem_cons.mpr ⟨startsNumeral_digit digit, starts⟩
    · exact ⟨[], rfl, rfl, fun _ member => nomatch member⟩

theorem continues_digits (text : List Char)
    (rest : ∀ c ∈ (splitDigits text).2, continuesNumeral c = true) :
    ∀ c ∈ text, continuesNumeral c = true := by
  obtain ⟨front, parts, _, starts⟩ := splitDigits_chars text
  rw [parts]
  refine List.forall_mem_append.mpr ⟨fun c member => ?_, rest⟩
  exact (startsNumeral_facts (starts c member)).2.2.2

theorem continues_exponent {text : List Char} {e : Option Int} (known : exponentOf? text = some e) :
    ∀ c ∈ text, continuesNumeral c = true := by
  unfold exponentOf? at known
  split at known
  · exact fun _ member => nomatch member
  · rename_i mark rest
    split at known
    · rename_i marked
      have first : continuesNumeral mark = true := by
        simp only [Bool.or_eq_true, decide_eq_true_eq] at marked
        rcases marked with rfl | rfl <;> decide
      -- the sign is split off first, then the digits end the text
      have ended : ∀ digits, (splitDigits digits).2 = [] →
          ∀ c ∈ digits, continuesNumeral c = true :=
        fun digits none => continues_digits digits (by simp [none])
      refine List.forall_mem_cons.mpr ⟨first, ?_⟩
      split at known
      rename_i negative digits signed
      split at known
      · rename_i d others split
        have later := ended digits (by rw [split])
        split at signed
        · cases signed
          exact List.forall_mem_cons.mpr ⟨by decide, later⟩
        · cases signed
          exact List.forall_mem_cons.mpr ⟨by decide, later⟩
        · cases signed
          exact later
      · cases known
    · cases known

/-- A run of digits that is a whole part has a first one. -/
theorem starts_whole {text : List Char} (whole : isWhole (splitDigits text).1 = true) :
    ∃ c rest, text = c :: rest ∧ startsNumeral c = true := by
  obtain ⟨front, parts, counted, starts⟩ := splitDigits_chars text
  cases front with
  | nil =>
    rw [List.eq_nil_of_length_eq_zero counted.symm] at whole
    cases whole
  | cons c rest => exact ⟨c, _, parts, starts c (List.mem_cons_self ..)⟩

theorem ofChars?_chars {text : List Char} {n : Numeral} (known : ofChars? text = some n) :
    (∃ c rest, text = c :: rest ∧ startsNumeral c = true) ∧
      ∀ c ∈ text, continuesNumeral c = true := by
  unfold ofChars? at known
  split at known
  rename_i negative unsigned signed
  simp only [Option.bind_eq_bind, Option.bind_eq_some_iff] at known
  obtain ⟨_, whole, known⟩ := known
  have first := starts_whole ((Option.guard_eq_some' _).mp whole)
  have later : ∀ c ∈ (splitDigits unsigned).2, continuesNumeral c = true := by
    split at known
    · rename_i fraction point
      rw [point]
      obtain ⟨_, _, known⟩ := Option.bind_eq_some_iff.mp known
      obtain ⟨_, exponent, _⟩ := Option.bind_eq_some_iff.mp known
      exact List.forall_mem_cons.mpr ⟨by decide, continues_digits _ (continues_exponent exponent)⟩
    · obtain ⟨_, exponent, _⟩ := Option.bind_eq_some_iff.mp known
      exact continues_exponent exponent
  have all := continues_digits unsigned later
  split at signed
  · cases signed
    exact ⟨⟨'-', unsigned, rfl, by decide⟩, List.forall_mem_cons.mpr ⟨by decide, all⟩⟩
  · cases signed
    exact ⟨first, all⟩

/-! A natural number is read from its digits. -/

theorem digitsUpTo_head {limit n : Nat} (fits : n ≤ limit) (positive : 0 < n) :
    ∃ d rest, digitsUpTo limit n = d :: rest ∧ d.val ≠ 0 := by
  induction limit generalizing n with
  | zero => omega
  | succ limit ih =>
    unfold digitsUpTo
    split
    · rename_i small
      refine ⟨Fin.ofNat 10 n, [], rfl, ?_⟩
      simp only [Fin.ofNat, Nat.mod_eq_of_lt small]
      omega
    · obtain ⟨d, rest, same, nonzero⟩ := ih (n := n / 10) (by omega) (by omega)
      exact ⟨d, rest ++ [Fin.ofNat 10 n], by rw [same]; rfl, nonzero⟩

theorem isWhole_digitsOf (n : Nat) : isWhole (digitsOf n) = true := by
  by_cases zero : n = 0
  · subst zero
    rfl
  · obtain ⟨d, rest, same, nonzero⟩ := digitsUpTo_head (Nat.le_refl n) (by omega)
    rw [digitsOf, same]
    simp [isWhole, nonzero]

theorem toChar_unsigned : ∀ d : Digit, d.toChar ≠ '-' := by decide

theorem chars_ofNat (n : Nat) : (ofNat n).chars = (digitsOf n).map Digit.toChar := by
  simp [chars, ofNat]

theorem ofChars?_ofNat (n : Nat) : ofChars? (ofNat n).chars = some (ofNat n) := by
  have digits : splitDigits ((digitsOf n).map Digit.toChar) = (digitsOf n, []) := by
    have whole := splitDigits_toChar (digitsOf n) [] (by simp)
    rwa [List.append_nil] at whole
  have unsigned : ∀ rest, (digitsOf n).map Digit.toChar ≠ '-' :: rest := by
    intro rest same
    obtain ⟨d, _, spelled⟩ := List.mem_map.mp (same ▸ List.mem_cons_self ..)
    exact toChar_unsigned d spelled
  rw [chars_ofNat]
  unfold ofChars?
  generalize (digitsOf n).map Digit.toChar = text at digits unsigned
  split
  rename_i sign
  split at sign
  · exact absurd rfl (unsigned _)
  · cases sign
    simp only [digits, isWhole_digitsOf, exponentOf?]
    rfl

/-! Small numbers need no rounding. -/

theorem le_digits (digits : List Digit) (start : Nat) :
    start ≤ digits.foldl (fun v d => 10 * v + d.val) start := by
  induction digits generalizing start with
  | nil => exact Nat.le_refl _
  | cons d rest ih =>
    have later := ih (10 * start + d.val)
    rw [List.foldl_cons]
    omega

theorem extend_of_small {digits : List Digit} {start : Nat}
    (small : digits.foldl (fun v d => 10 * v + d.val) start ≤ maxSignificand) :
    extend start digits = (digits.foldl (fun v d => 10 * v + d.val) start, 0) := by
  induction digits generalizing start with
  | nil => rfl
  | cons d rest ih =>
    rw [List.foldl_cons] at small ⊢
    have fits := Nat.le_trans (le_digits rest _) small
    simp only [extend, if_pos fits]
    exact ih small

theorem round53_of_small {n : Nat} (small : n < 4294967296) : round53 n = n := by
  have short : n.log2 - 52 = 0 := by
    have bound : n.log2 < 32 := by
      by_cases zero : n = 0
      · subst zero; decide
      · exact (Nat.log2_lt zero).mpr small
    omega
  simp [round53, short]

theorem pow_le_sub {low half whole : Nat} (below : low ≤ half) (above : half < whole) :
    Nat.pow 2 low ≤ Nat.pow 2 whole - Nat.pow 2 half := by
  have word : Nat.pow 2 low ≤ Nat.pow 2 half := Nat.pow_le_pow_right Nat.two_pos below
  have double : Nat.pow 2 half * 2 ≤ Nat.pow 2 whole := Nat.pow_le_pow_right Nat.two_pos above
  omega

theorem word_le_overflow : 4294967296 ≤ overflow := by
  have word : 4294967296 = Nat.pow 2 32 := rfl
  apply Nat.le_trans (Nat.le_of_eq word)
  unfold overflow
  apply pow_le_sub
  · decide
  · decide

/-- Integers of 32 bits are representable. -/
theorem isFinite_of_integer {n : Numeral} (unbroken : n.fraction = [])
    (unscaled : n.exponent = none) (small : value n.whole < 4294967296) : n.isFinite = true := by
  have read : extend 0 n.whole = (value n.whole, 0) :=
    extend_of_small (Nat.le_trans (Nat.le_of_lt small) (by decide))
  have scale : n.scaled = (value n.whole, 0) := by
    simp [scaled, read, unbroken, unscaled, extend]
  have rounded : round53 (value n.whole) * round53 (Nat.pow 10 0) < overflow := by
    rw [round53_of_small small, show round53 (Nat.pow 10 0) = 1 from rfl, Nat.mul_one]
    exact Nat.lt_of_lt_of_le small word_le_overflow
  simp only [isFinite, scale, Bool.or_eq_true, Bool.and_eq_true, decide_eq_true_eq]
  exact .inr ⟨by decide, rounded⟩

end AstXml.Json.Numeral
