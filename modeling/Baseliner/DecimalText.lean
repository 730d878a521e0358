import Mathlib.Algebra.Order.Ring.Int
import Mathlib.Order.Lattice

/-! Decimal numbers and words in a text, as a C library prints and reads them: what has been
printed is read back, up to the first character that is not part of it. -/

namespace Baseliner.DecimalText

/-- The space and the characters from the tabulator to the carriage return. -/
def isSpace (c : Char) : Bool := c.toNat = 32 || (9 ≤ c.toNat && c.toNat ≤ 13)

def decimal : ℤ → List Char
  | .ofNat n => Nat.toDigits 10 n
  | .negSucc n => '-' :: Nat.toDigits 10 (n + 1)

def leading (s : List Char) : Option ℕ :=
  let digits := s.takeWhile Char.isDigit
  if digits = [] then none else some (Nat.ofDigitChars 10 digits 0)

/-- The integer that a text starts with behind blanks; one that does not fit in 64 bits is
replaced by the nearest that does. -/
def strtol (s : List Char) : Option ℤ :=
  match s.dropWhile isSpace with
  | '-' :: s => (leading s).map fun n : ℕ => max (-(n : ℤ)) (-2 ^ 63)
  | '+' :: s => (leading s).map fun n : ℕ => min (n : ℤ) (2 ^ 63 - 1)
  | s => (leading s).map fun n : ℕ => min (n : ℤ) (2 ^ 63 - 1)

/-- The words from a place on, `word` being what was read of the first. -/
def scan (word : List Char) : List Char → List (List Char)
  | [] => if word = [] then [] else [word]
  | c :: s =>
      if isSpace c then if word = [] then scan [] s else word :: scan [] s
      else scan (word ++ [c]) s

def words (s : List Char) : List (List Char) := scan [] s

section Words

theorem solid_of_all {w : List Char} (solid : (w.all fun c => !isSpace c) = true) :
    ∀ c ∈ w, isSpace c = false := by simpa using solid

theorem scan_append {w : List Char} (solid : ∀ c ∈ w, isSpace c = false) (word s : List Char) :
    scan word (w ++ s) = scan (word ++ w) s := by
  induction w generalizing word with
  | nil => rw [List.nil_append, List.append_nil]
  | cons c w ih =>
      rw [List.forall_mem_cons] at solid
      rw [List.cons_append, scan, if_neg (by rw [solid.1]; decide), ih solid.2, List.append_assoc,
        List.singleton_append]

theorem words_blank {c : Char} (blank : isSpace c = true) (s : List Char) :
    words (c :: s) = words s := by
  rw [words, scan, if_pos blank, if_pos rfl, words]

theorem words_append {w : List Char} (some : w ≠ []) (solid : ∀ c ∈ w, isSpace c = false) {c : Char}
    (blank : isSpace c = true) (s : List Char) : words (w ++ c :: s) = w :: words s := by
  rw [words, scan_append solid, List.nil_append, scan, if_pos blank, if_neg some, words]

end Words

section Digits

theorem decimal_natCast (n : ℕ) : decimal n = Nat.toDigits 10 n := rfl

theorem isSpace_of_isDigit {c : Char} (digit : c.isDigit = true) : isSpace c = false := by
  simp only [Char.isDigit, Bool.and_eq_true, decide_eq_true_eq] at digit
  have low : 48 ≤ c.toNat := UInt32.le_iff_toNat_le.mp digit.1
  simp only [isSpace, Bool.or_eq_false_iff, decide_eq_false_iff_not, Bool.and_eq_false_iff]
  omega

theorem toDigits_isDigit {n : ℕ} {c : Char} (member : c ∈ Nat.toDigits 10 n) :
    c.isDigit = true :=
  Nat.isDigit_of_mem_toDigits (by decide) (by decide) member

def Ends (rest : List Char) : Prop := ∀ c s, rest = c :: s → c.isDigit = false

theorem ends_cons {c : Char} (other : c.isDigit = false) (s : List Char) : Ends (c :: s) := by
  intro d t same
  obtain ⟨rfl, rfl⟩ := List.cons.inj same
  exact other

theorem leading_toDigits (n : ℕ) {rest : List Char} (ends : Ends rest) :
    leading (Nat.toDigits 10 n ++ rest) = some n := by
  have stop : rest.takeWhile Char.isDigit = [] := by
    cases rest with
    | nil => rfl
    | cons c s => rw [List.takeWhile_cons_of_neg (by rw [ends c s rfl]; decide)]
  have digits : (Nat.toDigits 10 n ++ rest).takeWhile Char.isDigit = Nat.toDigits 10 n := by
    rw [List.takeWhile_append_of_pos fun c member => toDigits_isDigit member, stop,
      List.append_nil]
  rw [leading, digits]
  exact (if_neg Nat.toDigits_ne_nil).trans
    (congrArg some (Nat.ofDigitChars_toDigits (by decide) (by decide)))

theorem toDigits_front (n : ℕ) (rest : List Char) :
    ∃ c s, Nat.toDigits 10 n ++ rest = c :: s ∧ c.isDigit = true := by
  cases digits : Nat.toDigits 10 n with
  | nil => exact absurd digits Nat.toDigits_ne_nil
  | cons c s => exact ⟨c, s ++ rest, rfl, toDigits_isDigit (n := n) (by rw [digits]; simp)⟩

theorem strtol_digits (n : ℕ) {rest : List Char} (ends : Ends rest) :
    strtol (Nat.toDigits 10 n ++ rest) = some (min (n : ℤ) (2 ^ 63 - 1)) := by
  have read := leading_toDigits n ends
  obtain ⟨c, s, front, digit⟩ := toDigits_front n rest
  have plus : c ≠ '+' := by
    rintro rfl
    exact absurd digit (by decide)
  have minus : c ≠ '-' := by
    rintro rfl
    exact absurd digit (by decide)
  rw [front] at read ⊢
  have drop : (c :: s).dropWhile isSpace = c :: s :=
    List.dropWhile_cons_of_neg (by rw [isSpace_of_isDigit digit]; decide)
  unfold strtol
  rw [drop]
  split
  · exact absurd (List.cons.inj ‹_›).1 minus
  · exact absurd (List.cons.inj ‹_›).1 plus
  · rw [read]
    rfl

theorem strtol_decimal {x : ℤ} (low : -2 ^ 63 ≤ x) (high : x < 2 ^ 63) {rest : List Char}
    (ends : Ends rest) : strtol (decimal x ++ rest) = some x := by
  cases x with
  | ofNat n =>
      have fits : (n : ℤ) ≤ 2 ^ 63 - 1 := Int.le_sub_one_of_lt high
      rw [decimal, strtol_digits n ends, min_eq_left fits]
      rfl
  | negSucc n =>
      have read := leading_toDigits (n + 1) ends
      rw [decimal, List.cons_append, strtol, List.dropWhile_cons_of_neg (by decide)]
      change (leading _).map _ = _
      rw [read, Option.map_some, max_eq_left (by omega)]
      rfl

theorem decimal_ne_nil (x : ℤ) : decimal x ≠ [] := by
  cases x with
  | ofNat n => exact Nat.toDigits_ne_nil
  | negSucc n => exact List.cons_ne_nil _ _

theorem decimal_front (x : ℤ) : ∃ c s, decimal x = c :: s ∧ (c = '-' ∨ c.isDigit = true) := by
  cases x with
  | ofNat n =>
      obtain ⟨c, s, front, digit⟩ := toDigits_front n []
      rw [List.append_nil] at front
      exact ⟨c, s, front, .inr digit⟩
  | negSucc n => exact ⟨'-', _, rfl, .inl rfl⟩

theorem length_decimal {x : ℤ} {k : ℕ} (some : 0 < k) (low : -10 ^ k < x) (high : x < 10 ^ k) :
    (decimal x).length ≤ k + 1 := by
  cases x with
  | ofNat n =>
      have small : n < 10 ^ k := by
        have cast : ((n : ℕ) : ℤ) < ((10 ^ k : ℕ) : ℤ) := by simpa using high
        exact_mod_cast cast
      exact ((Nat.length_toDigits_le_iff (by decide) some).mpr small).trans (Nat.le_succ k)
  | negSucc n =>
      have small : n + 1 < 10 ^ k := by
        have cast : ((n + 1 : ℕ) : ℤ) < ((10 ^ k : ℕ) : ℤ) := by
          rw [Int.negSucc_eq] at low
          push_cast
          omega
        exact_mod_cast cast
      rw [decimal, List.length_cons]
      exact Nat.succ_le_succ ((Nat.length_toDigits_le_iff (by decide) some).mpr small)

theorem mem_decimal {x : ℤ} {c : Char} (member : c ∈ decimal x) : c = '-' ∨ c.isDigit = true := by
  cases x with
  | ofNat n => exact .inr (toDigits_isDigit member)
  | negSucc n => exact (List.mem_cons.mp member).imp_right toDigits_isDigit

theorem decimal_solid (x : ℤ) : ∀ c ∈ decimal x, isSpace c = false := by
  intro c member
  rcases mem_decimal member with rfl | digit
  · decide
  · exact isSpace_of_isDigit digit

end Digits

end Baseliner.DecimalText
