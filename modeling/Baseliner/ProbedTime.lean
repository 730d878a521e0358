import Mathlib.Tactic.SplitIfs

/-! `ts_t` and the time arithmetic of SLANG-probed's `util.c`. Both fields are
unbounded integers: the C `long` subtractions are taken without overflow. -/

namespace Baseliner.ProbedTime

structure Ts where
  tvSec : Int
  tvNsec : Int
  deriving DecidableEq, Repr

namespace Ts

def zero : Ts := ⟨0, 0⟩

def nanoseconds (t : Ts) : Int := t.tvSec * 1000000000 + t.tvNsec

/-- The presence test of the result handling: both fields are zero. -/
def isZero (t : Ts) : Bool := t.tvSec == 0 && t.tvNsec == 0

structure Normal (t : Ts) : Prop where
  nonneg : 0 ≤ t.tvNsec
  lt : t.tvNsec < 1000000000

instance (t : Ts) : Decidable t.Normal :=
  decidable_of_iff (0 ≤ t.tvNsec ∧ t.tvNsec < 1000000000)
    ⟨fun h => ⟨h.1, h.2⟩, fun h => ⟨h.1, h.2⟩⟩

end Ts

/-- `diff_ts`: the stored difference, and the returned sign (`true` for 1). -/
def diffTs (a b : Ts) : Ts × Bool :=
  if a.tvSec > b.tvSec then
    if a.tvNsec > b.tvNsec then (⟨a.tvSec - b.tvSec, a.tvNsec - b.tvNsec⟩, false)
    else if a.tvNsec < b.tvNsec then
      (⟨a.tvSec - b.tvSec - 1, 1000000000 + a.tvNsec - b.tvNsec⟩, false)
    else (⟨a.tvSec - b.tvSec, 0⟩, false)
  else if a.tvSec < b.tvSec then
    if a.tvNsec > b.tvNsec then
      (⟨b.tvSec - a.tvSec - 1, b.tvNsec + 1000000000 - a.tvNsec⟩, true)
    else if a.tvNsec < b.tvNsec then (⟨b.tvSec - a.tvSec, b.tvNsec - a.tvNsec⟩, true)
    else (⟨b.tvSec - a.tvSec, 0⟩, true)
  else
    if a.tvNsec > b.tvNsec then (⟨0, a.tvNsec - b.tvNsec⟩, false)
    else if a.tvNsec < b.tvNsec then (⟨0, b.tvNsec - a.tvNsec⟩, true)
    else (⟨0, 0⟩, false)

def cmpTs (t1 t2 : Ts) : Int :=
  if t1.tvSec < t2.tvSec then -1
  else if t1.tvSec > t2.tvSec then 1
  else if t1.tvNsec < t2.tvNsec then -1
  else if t1.tvNsec > t2.tvNsec then 1
  else 0

section Differences

variable {a b : Ts}

theorem diffTs_spec (ha : a.Normal) (hb : b.Normal) :
    (diffTs a b).1.Normal ∧ 0 ≤ (diffTs a b).1.tvSec ∧
      ((diffTs a b).2 = true ↔ a.nanoseconds < b.nanoseconds) ∧
      (diffTs a b).1.nanoseconds =
        if a.nanoseconds < b.nanoseconds then b.nanoseconds - a.nanoseconds
        else a.nanoseconds - b.nanoseconds := by
  obtain ⟨low, high⟩ := ha
  obtain ⟨low', high'⟩ := hb
  unfold diffTs Ts.nanoseconds
  split_ifs <;> refine ⟨⟨?_, ?_⟩, ?_, ?_, ?_⟩ <;> simp <;> omega

theorem cmpTs_spec (ha : a.Normal) (hb : b.Normal) :
    (cmpTs a b = -1 ↔ a.nanoseconds < b.nanoseconds) ∧
      (cmpTs a b = 1 ↔ b.nanoseconds < a.nanoseconds) := by
  obtain ⟨low, high⟩ := ha
  obtain ⟨low', high'⟩ := hb
  unfold cmpTs Ts.nanoseconds
  split_ifs <;> refine ⟨?_, ?_⟩ <;> simp <;> omega

end Differences

end Baseliner.ProbedTime
