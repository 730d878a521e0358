import Mathlib.Data.List.Basic

/-! Reads of an endless store of which only the first cells have been written.
A read is settled when it does not depend on the cells behind them. -/

namespace Baseliner.PrefixReads

variable {α β : Type} {n : Nat} {f g : Nat → α}

def Agree (n : Nat) (f g : Nat → α) : Prop := ∀ i < n, f i = g i

theorem Agree.refl (n : Nat) (f : Nat → α) : Agree n f f := fun _ _ => rfl

theorem Agree.shift {k : Nat} (h : Agree (k + n) f g) :
    Agree n (fun i => f (k + i)) fun i => g (k + i) :=
  fun i bound => h (k + i) (by omega)

/-- The first `n` cells of `f` before those of `rest`. -/
def splice (n : Nat) (f rest : Nat → α) : Nat → α := fun i => if i < n then f i else rest i

theorem agree_splice (n : Nat) (f rest : Nat → α) : Agree n f (splice n f rest) := by
  intro i bound
  rw [splice, if_pos bound]

theorem splice_of_lt {i : Nat} (h : i < n) (rest : Nat → α) : splice n f rest i = f i :=
  if_pos h

theorem splice_of_le {i : Nat} (h : n ≤ i) (rest : Nat → α) : splice n f rest i = rest i :=
  if_neg (by omega)

def Settled (n : Nat) (f : Nat → α) (read : (Nat → α) → β) : Prop :=
  ∀ g g', Agree n f g → Agree n f g' → read g = read g'

theorem settled_of_const {read : (Nat → α) → β} (v : β) (h : ∀ g, Agree n f g → read g = v) :
    Settled n f read := by
  intro g g' agree agree'
  rw [h g agree, h g' agree']

theorem settled_of_eq {read : (Nat → α) → β} (h : ∀ g, Agree n f g → read g = read f) :
    Settled n f read :=
  settled_of_const (read f) h

theorem Settled.congr {read read' : (Nat → α) → β} (h : Settled n f read)
    (same : ∀ g, Agree n f g → read' g = read g) : Settled n f read' := by
  intro g g' agree agree'
  rw [same g agree, same g' agree']
  exact h g g' agree agree'

theorem settled_congr {read read' : (Nat → α) → β}
    (same : ∀ g, Agree n f g → read g = read' g) : Settled n f read ↔ Settled n f read' :=
  ⟨fun h => h.congr fun g agree => (same g agree).symm, fun h => h.congr same⟩

theorem settled_shift (k : Nat) (read : (Nat → α) → β) :
    Settled (k + n) f (fun g => read fun i => g (k + i)) ↔
      Settled n (fun i => f (k + i)) read := by
  constructor
  · intro h g g' agree agree'
    have moved (g : Nat → α) (agree : Agree n (fun i => f (k + i)) g) :
        Agree (k + n) f (splice k f fun i => g (i - k)) := by
      intro i bound
      by_cases written : i < k
      · rw [splice_of_lt written]
      · rw [splice_of_le (by omega), ← agree (i - k) (by omega)]
        congr 1
        omega
    have behind (g : Nat → α) : (fun i => splice k f (fun i => g (i - k)) (k + i)) = g := by
      funext i
      rw [splice_of_le (by omega)]
      congr 1
      omega
    have eq := h _ _ (moved g agree) (moved g' agree')
    dsimp only at eq
    rw [behind, behind] at eq
    exact eq
  · intro h g g' agree agree'
    exact h _ _ agree.shift agree'.shift

end Baseliner.PrefixReads
