/-!
Numerals of JSON texts, kept digit by digit. A numeral without sign, fraction and exponent is a
natural number. A numeral is representable when the double nearest to it, found from at most
64 bits of its digits, is finite.
-/
namespace AstXml.Json

abbrev Digit := Fin 10

def Digit.ofChar? (c : Char) : Option Digit :=
  if h : 48 ≤ c.toNat ∧ c.toNat ≤ 57 then some ⟨c.toNat - 48, by omega⟩ else none

def Digit.toChar (d : Digit) : Char := Char.ofNat (48 + d.val)

theorem Digit.ofChar?_toChar : ∀ d : Digit, Digit.ofChar? d.toChar = some d := by decide

/-- A numeral by its parts; the fraction is empty when there is no point. -/
structure Numeral where
  negative : Bool
  whole : List Digit
  fraction : List Digit
  exponent : Option Int
  deriving DecidableEq

namespace Numeral

def value (digits : List Digit) : Nat := digits.foldl (fun v d => 10 * v + d.val) 0

/-- The digits of a number that has at most `limit + 1` of them, most significant first. -/
def digitsUpTo : Nat → Nat → List Digit
  | 0, n => [Fin.ofNat 10 n]
  | limit + 1, n =>
    if n < 10 then [Fin.ofNat 10 n] else digitsUpTo limit (n / 10) ++ [Fin.ofNat 10 n]

def digitsOf (n : Nat) : List Digit := digitsUpTo n n

def ofNat (n : Nat) : Numeral := ⟨false, digitsOf n, [], none⟩

/-- The number that a bare run of digits stands for. -/
def natural? (n : Numeral) : Option Nat :=
  if !n.negative && n.fraction.isEmpty && n.exponent.isNone then some (value n.whole) else none

def splitDigits : List Char → List Digit × List Char
  | [] => ([], [])
  | c :: rest =>
    match Digit.ofChar? c with
    | some d =>
      let (digits, rest) := splitDigits rest
      (d :: digits, rest)
    | none => ([], c :: rest)

/-- A run of digits that is a whole part: no zero stands before another digit. -/
def isWhole : List Digit → Bool
  | [] => false
  | d :: rest => d.val ≠ 0 || rest.isEmpty

/-- An optional exponent, which ends the text. -/
def exponentOf? : List Char → Option (Option Int)
  | [] => some none
  | mark :: rest =>
    if mark = 'e' || mark = 'E' then
      let (negative, rest) := match rest with
        | '-' :: rest => (true, rest)
        | '+' :: rest => (false, rest)
        | rest => (false, rest)
      match splitDigits rest with
      | (d :: digits, []) =>
        some (some (if negative then -(value (d :: digits) : Int) else value (d :: digits)))
      | _ => none
    else none

def ofChars? (text : List Char) : Option Numeral := do
  let (negative, rest) := match text with
    | '-' :: rest => (true, rest)
    | rest => (false, rest)
  let (whole, rest) := splitDigits rest
  guard (isWhole whole)
  match rest with
  | '.' :: rest =>
    let (fraction, rest) := splitDigits rest
    guard (!fraction.isEmpty)
    return ⟨negative, whole, fraction, ← exponentOf? rest⟩
  | rest => return ⟨negative, whole, [], ← exponentOf? rest⟩

def chars (n : Numeral) : List Char :=
  (if n.negative then ['-'] else []) ++ n.whole.map Digit.toChar
    ++ (if n.fraction.isEmpty then [] else '.' :: n.fraction.map Digit.toChar)
    ++ match n.exponent with
      | none => []
      | some e =>
        'e' :: ((if e < 0 then ['-'] else []) ++ (digitsOf e.natAbs).map Digit.toChar)

def maxSignificand : Nat := 18446744073709551615

/-- Extends a significand by digits while it fits; the second part counts the digits left over. -/
def extend : Nat → List Digit → Nat × Nat
  | significand, [] => (significand, 0)
  | significand, d :: rest =>
    let longer := 10 * significand + d.val
    if longer ≤ maxSignificand then extend longer rest else (significand, rest.length + 1)

/-- The significand and the power of ten that it is scaled by. -/
def scaled (n : Numeral) : Nat × Int :=
  let (whole, dropped) := extend 0 n.whole
  let (significand, unread) := extend whole n.fraction
  (significand, (dropped : Int) - (n.fraction.length - unread : Nat) + n.exponent.getD 0)

/-- The nearest number of 53 binary digits and a scale; a tie goes to the even one. -/
def round53 (n : Nat) : Nat :=
  let shift := n.log2 - 52
  let kept := n >>> shift
  let lost := 2 * (n - kept <<< shift)
  let up := lost > 1 <<< shift || lost = 1 <<< shift && shift ≠ 0 && kept % 2 = 1
  (if up then kept + 1 else kept) <<< shift

/-- From here on numbers round to infinity. -/
def overflow : Nat := Nat.pow 2 1024 - Nat.pow 2 970

/-- The product of significand and power of ten, each rounded first, stays below infinity. -/
def isFinite (n : Numeral) : Bool :=
  let (significand, exponent) := n.scaled
  significand = 0 || exponent < 0
    || exponent ≤ 308 && round53 significand * round53 (Nat.pow 10 exponent.toNat) < overflow

theorem value_concat (digits : List Digit) (d : Digit) :
    value (digits ++ [d]) = 10 * value digits + d.val := by
  simp [value, List.foldl_append]

theorem value_digitsUpTo {limit n : Nat} (fits : n ≤ limit) : value (digitsUpTo limit n) = n := by
  induction limit generalizing n with
  | zero =>
    have zero : n = 0 := by omega
    subst zero
    rfl
  | succ limit ih =>
    unfold digitsUpTo
    split
    · rename_i small
      simp [value, Fin.ofNat, Nat.mod_eq_of_lt small]
    · rw [value_concat, ih (by omega)]
      simp only [Fin.ofNat]
      omega

theorem value_digitsOf (n : Nat) : value (digitsOf n) = n := value_digitsUpTo (Nat.le_refl n)

theorem natural?_ofNat (n : Nat) : (ofNat n).natural? = some n := by
  simp [natural?, ofNat, value_digitsOf]

theorem splitDigits_toChar (digits : List Digit) (rest : List Char)
    (stop : ∀ c ∈ rest.head?, Digit.ofChar? c = none) :
    splitDigits (digits.map Digit.toChar ++ rest) = (digits, rest) := by
  induction digits with
  | nil =>
    cases rest with
    | nil => rfl
    | cons c rest => simp [splitDigits, stop c (by simp)]
  | cons d digits ih => simp [splitDigits, Digit.ofChar?_toChar, ih]

end Numeral

end AstXml.Json
