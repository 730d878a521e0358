import Mathlib.Algebra.Order.Ring.Nat
import Mathlib.Tactic.Common

/-! Words in memory: two and four bytes in either order, and numbers of any width with the low
byte first. -/

namespace Baseliner.ByteOrder

inductive Endian
  | little | big
  deriving DecidableEq

def word : Endian → UInt8 → UInt8 → ℕ
  | .little, a, b => a.toNat + 256 * b.toNat
  | .big, a, b => 256 * a.toNat + b.toNat

/-- The bytes of a stored `unsigned short`. -/
def stored : Endian → UInt16 → List UInt8
  | .little, x => [UInt8.ofNat (x.toNat % 256), UInt8.ofNat (x.toNat / 256)]
  | .big, x => [UInt8.ofNat (x.toNat / 256), UInt8.ofNat (x.toNat % 256)]

def load (e : Endian) (a b : UInt8) : UInt16 := UInt16.ofNat (word e a b)

/-- `ntohs` and `htons` where the low byte comes first. -/
def ntohs (x : UInt16) : UInt16 := UInt16.ofNat (256 * (x.toNat % 256) + x.toNat / 256)

def long (high low : UInt16) : UInt32 := UInt32.ofNat (high.toNat * 65536 + low.toNat)

/-- `htonl`. -/
def storedLong (x : UInt32) : List UInt8 :=
  stored .big (UInt16.ofNat (x.toNat / 65536)) ++ stored .big (UInt16.ofNat (x.toNat % 65536))

theorem word_le (e : Endian) (a b : UInt8) : word e a b ≤ 65535 := by
  have ha := a.toNat_lt
  have hb := b.toNat_lt
  cases e <;> simp only [word] <;> omega

theorem toNat_load (e : Endian) (a b : UInt8) : (load e a b).toNat = word e a b := by
  have le := word_le e a b
  rw [load, UInt16.toNat_ofNat']
  omega

@[simp] theorem stored_length (e : Endian) (x : UInt16) : (stored e x).length = 2 := by
  cases e <;> rfl

theorem load_low (x : UInt16) :
    load .little (UInt8.ofNat (x.toNat % 256)) (UInt8.ofNat (x.toNat / 256)) = x := by
  have small := x.toNat_lt
  refine UInt16.toNat_inj.mp ?_
  simp only [toNat_load, word, UInt8.toNat_ofNat']
  omega

theorem load_high (x : UInt16) :
    load .big (UInt8.ofNat (x.toNat / 256)) (UInt8.ofNat (x.toNat % 256)) = x := by
  have small := x.toNat_lt
  refine UInt16.toNat_inj.mp ?_
  simp only [toNat_load, word, UInt8.toNat_ofNat']
  omega

theorem stored_eq (e : Endian) (x : UInt16) : ∃ a b, stored e x = [a, b] ∧ load e a b = x := by
  cases e with
  | little => exact ⟨_, _, rfl, load_low x⟩
  | big => exact ⟨_, _, rfl, load_high x⟩

@[simp] theorem storedLong_length (x : UInt32) : (storedLong x).length = 4 := rfl

theorem ntohs_load (a b : UInt8) : ntohs (load .little a b) = load .big a b := by
  have ha := a.toNat_lt
  have hb := b.toNat_lt
  have turned : 256 * (word .little a b % 256) + word .little a b / 256 = word .big a b := by
    simp only [word]
    omega
  rw [ntohs, toNat_load, turned, load]

theorem long_split (x : UInt32) :
    long (UInt16.ofNat (x.toNat / 65536)) (UInt16.ofNat (x.toNat % 65536)) = x := by
  have small := x.toNat_lt
  have value : (UInt16.ofNat (x.toNat / 65536)).toNat * 65536 +
      (UInt16.ofNat (x.toNat % 65536)).toNat = x.toNat := by
    simp only [UInt16.toNat_ofNat']
    omega
  rw [long, value, UInt32.ofNat_toNat]

/-! ### Numbers with the low byte first -/

def lowBytes : ℕ → ℕ → List UInt8
  | 0, _ => []
  | width + 1, n => UInt8.ofNat n :: lowBytes width (n / 256)

def lowValue (bytes : List UInt8) : ℕ := bytes.foldr (fun b rest => b.toNat + 256 * rest) 0

theorem lowBytes_length (width n : ℕ) : (lowBytes width n).length = width := by
  induction width generalizing n with
  | zero => rfl
  | succ width ih => rw [lowBytes, List.length_cons, ih]

theorem lowValue_lowBytes (width : ℕ) {n : ℕ} (fits : n < 256 ^ width) :
    lowValue (lowBytes width n) = n := by
  induction width generalizing n with
  | zero =>
      rw [Nat.pow_zero] at fits
      obtain rfl : n = 0 := by omega
      rfl
  | succ width ih =>
      rw [Nat.pow_succ] at fits
      have rest := ih (n := n / 256) (Nat.div_lt_of_lt_mul (by rwa [Nat.mul_comm] at fits))
      rw [lowBytes, lowValue, List.foldr_cons]
      change (UInt8.ofNat n).toNat + 256 * lowValue (lowBytes width (n / 256)) = n
      rw [rest, UInt8.toNat_ofNat']
      omega

end Baseliner.ByteOrder
