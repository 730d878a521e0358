import Mathlib.Data.List.Basic
import Mathlib.Logic.Function.Basic

/-! An array cut into layers, each with a first slot and a capacity. A layer is filled from
its first slot on; as long as none holds more than its capacity they do not meet. -/

namespace Baseliner.LayeredPool

variable {α : Type*}

structure Pool (α : Type*) where
  slots : Nat → α
  population : Nat → Nat

def Pool.layer (start : Nat → Nat) (p : Pool α) (l : Nat) : List α :=
  (List.range (p.population l)).map fun k => p.slots (start l + k)

def Pool.push (start : Nat → Nat) (p : Pool α) (l : Nat) (x : α) : Pool α where
  slots := Function.update p.slots (start l + p.population l) x
  population := Function.update p.population l (p.population l + 1)

variable {start capacity : Nat → Nat} {p : Pool α} {l : Nat}

theorem Pool.length_layer (start : Nat → Nat) (p : Pool α) (l : Nat) :
    (p.layer start l).length = p.population l := by
  simp [layer]

theorem layer_push (start : Nat → Nat) (p : Pool α) (l : Nat) (x : α) :
    (p.push start l x).layer start l = p.layer start l ++ [x] := by
  have before : (List.range (p.population l)).map
      (fun k => (p.push start l x).slots (start l + k)) = p.layer start l := by
    refine List.map_congr_left ?_
    intro k hk
    rw [List.mem_range] at hk
    exact Function.update_of_ne (by omega) ..
  rw [Pool.layer]
  simp only [Pool.push, Function.update_self] at before ⊢
  rw [List.range_succ, List.map_append, before, List.map_singleton, Function.update_self]

def Apart (start capacity : Nat → Nat) : Prop := ∀ i j, i < j → start i + capacity i ≤ start j

theorem layer_push_other (apart : Apart start capacity)
    (room : ∀ i, p.population i ≤ capacity i) (more : p.population l < capacity l) {j : Nat}
    (other : j ≠ l) (x : α) : (p.push start l x).layer start j = p.layer start j := by
  have population : (p.push start l x).population j = p.population j :=
    Function.update_of_ne other ..
  rw [Pool.layer, population, Pool.layer]
  refine List.map_congr_left ?_
  intro k hk
  rw [List.mem_range] at hk
  have own := room j
  refine Function.update_of_ne ?_ ..
  rcases Nat.lt_or_gt_of_ne other with before | behind
  · have := apart j l before
    omega
  · have := apart l j behind
    omega

end Baseliner.LayeredPool
