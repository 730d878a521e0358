import Mathlib.Data.Rat.Floor
import Mathlib.Tactic.Ring
import Mathlib.Tactic.Linarith

/-! Straight-line floating-point programs. Each arithmetic result is a rational that is
rounded before the program goes on, and a conversion cuts a value off towards zero. A
program whose exact values are all left alone by the rounding computes what it computes
exactly. -/

namespace Baseliner.RoundedSteps

inductive Steps (α : Type) where
  | done (value : α)
  | round (q : ℚ) (next : ℚ → Steps α)
  | cut (q : ℚ) (next : ℤ → Steps α)

def truncate (q : ℚ) : ℤ := if 0 ≤ q then ⌊q⌋ else ⌈q⌉

namespace Steps

variable {α β : Type}

def bind : Steps α → (α → Steps β) → Steps β
  | done value, next => next value
  | round q rest, next => round q fun v => (rest v).bind next
  | cut q rest, next => cut q fun v => (rest v).bind next

instance : Monad Steps where
  pure := done
  bind := bind

def exec (rnd : ℚ → ℚ) : Steps α → α
  | done value => value
  | round q next => (next (rnd q)).exec rnd
  | cut q next => (next (truncate q)).exec rnd

def exact (s : Steps α) : α := s.exec id

/-- What is true of every value and of every conversion of the exact run. -/
def Always (value : ℚ → Prop) (converted : ℤ → Prop) : Steps α → Prop
  | done _ => True
  | round q next => value q ∧ (next q).Always value converted
  | cut q next => converted (truncate q) ∧ (next (truncate q)).Always value converted

def result (q : ℚ) : Steps ℚ := round q done

def whole (q : ℚ) : Steps ℚ := cut q fun j => round j done

theorem exec_bind (rnd : ℚ → ℚ) (s : Steps α) (next : α → Steps β) :
    (s >>= next).exec rnd = (next (s.exec rnd)).exec rnd := by
  induction s with
  | done value => rfl
  | round q rest ih => exact ih (rnd q)
  | cut q rest ih => exact ih (truncate q)

@[simp] theorem exact_bind (s : Steps α) (next : α → Steps β) :
    (s >>= next).exact = (next s.exact).exact :=
  exec_bind id s next

@[simp] theorem exact_pure (value : α) : (pure value : Steps α).exact = value := rfl

@[simp] theorem exact_result (q : ℚ) : (result q).exact = q := rfl

@[simp] theorem exact_whole (q : ℚ) : (whole q).exact = truncate q := rfl

variable {value : ℚ → Prop} {converted : ℤ → Prop}

@[simp] theorem always_bind (s : Steps α) (next : α → Steps β) :
    (s >>= next).Always value converted ↔
      s.Always value converted ∧ (next s.exact).Always value converted := by
  induction s with
  | done v => exact ⟨fun h => ⟨trivial, h⟩, fun h => h.2⟩
  | round q rest ih => exact (and_congr_right fun _ => ih q).trans and_assoc.symm
  | cut q rest ih => exact (and_congr_right fun _ => ih (truncate q)).trans and_assoc.symm

@[simp] theorem always_pure (v : α) : (pure v : Steps α).Always value converted := trivial

@[simp] theorem always_result (q : ℚ) : (result q).Always value converted ↔ value q :=
  ⟨fun h => h.1, fun h => ⟨h, trivial⟩⟩

@[simp] theorem always_whole (q : ℚ) :
    (whole q).Always value converted ↔ converted (truncate q) ∧ value (truncate q) :=
  ⟨fun h => ⟨h.1, h.2.1⟩, fun h => ⟨h.1, h.2, trivial⟩⟩

theorem Always.exec_eq {s : Steps α} (h : s.Always value converted) {rnd : ℚ → ℚ}
    (keeps : ∀ q, value q → rnd q = q) : s.exec rnd = s.exact := by
  induction s with
  | done v => rfl
  | round q next ih =>
      rw [exec, keeps q h.1]
      exact ih q h.2
  | cut q next ih => exact ih (truncate q) h.2

end Steps

theorem truncate_div (n d : ℕ) : truncate ((n : ℚ) / d) = ((n / d : ℕ) : ℤ) := by
  rw [truncate, if_pos (by positivity)]
  exact Rat.floor_natCast_div_natCast n d

end Baseliner.RoundedSteps
