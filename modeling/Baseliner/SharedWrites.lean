import Mathlib.Data.List.Perm.Basic
import Mathlib.Logic.Function.Basic

/-! Writes of several threads to one array. The threads may interleave in any way:
what they write together is some permutation of all their writes. When every
write stores the value that belongs to its index, the order does not matter. -/

namespace Baseliner.SharedWrites

variable {ι α : Type*} [DecidableEq ι]

def applyWrites (mem : ι → α) (writes : List (ι × α)) : ι → α :=
  writes.foldl (fun mem w => Function.update mem w.1 w.2) mem

@[simp] theorem applyWrites_nil (mem : ι → α) : applyWrites mem [] = mem := rfl

@[simp] theorem applyWrites_cons (mem : ι → α) (w : ι × α) (writes : List (ι × α)) :
    applyWrites mem (w :: writes) = applyWrites (Function.update mem w.1 w.2) writes := rfl

theorem applyWrites_of_agree {value : ι → α} {writes : List (ι × α)}
    (agree : ∀ w ∈ writes, w.2 = value w.1) (mem : ι → α) (i : ι) :
    applyWrites mem writes i = if i ∈ writes.map Prod.fst then value i else mem i := by
  induction writes generalizing mem with
  | nil => simp
  | cons w rest ih =>
      simp only [List.mem_cons, forall_eq_or_imp] at agree
      rw [applyWrites_cons, ih agree.2]
      by_cases later : i ∈ rest.map Prod.fst
      · simp [later]
      · by_cases here : i = w.1
        · subst here
          simp [later, agree.1]
        · simp [later, here]

theorem applyWrites_of_nodup {writes : List (ι × α)} (once : (writes.map Prod.fst).Nodup)
    (mem : ι → α) {w : ι × α} (h : w ∈ writes) : applyWrites mem writes w.1 = w.2 := by
  induction writes generalizing mem with
  | nil => simp at h
  | cons first rest ih =>
      rw [List.map_cons, List.nodup_cons] at once
      rw [applyWrites_cons]
      rcases List.mem_cons.mp h with rfl | later
      · have untouched : ∀ (mem : ι → α) (l : List (ι × α)), w.1 ∉ l.map Prod.fst →
            applyWrites mem l w.1 = mem w.1 := by
          intro mem l
          induction l generalizing mem with
          | nil => intro _; rfl
          | cons x l ihl =>
              intro absent
              simp only [List.map_cons, List.mem_cons, not_or] at absent
              rw [applyWrites_cons, ihl _ absent.2, Function.update_of_ne absent.1]
        rw [untouched _ rest once.1, Function.update_self]
      · exact ih once.2 _ later

/-- Writes that store `value` at exactly the indices of a region. -/
structure Fills (value : ι → α) (region : ι → Prop) (writes : List (ι × α)) : Prop where
  agree : ∀ w ∈ writes, w.2 = value w.1
  covers : ∀ i, i ∈ writes.map Prod.fst ↔ region i

namespace Fills

variable {value : ι → α} {region other : ι → Prop} {writes more : List (ι × α)}

omit [DecidableEq ι] in
theorem nil (value : ι → α) : Fills value (fun _ => False) [] :=
  ⟨by simp, by simp⟩

omit [DecidableEq ι] in
theorem append (h : Fills value region writes) (h' : Fills value other more) :
    Fills value (fun i => region i ∨ other i) (writes ++ more) where
  agree w hw := (List.mem_append.mp hw).elim (h.agree w) (h'.agree w)
  covers i := by rw [List.map_append, List.mem_append, h.covers, h'.covers]

omit [DecidableEq ι] in
theorem congr (h : Fills value region writes) (same : ∀ i, region i ↔ other i) :
    Fills value other writes :=
  ⟨h.agree, fun i => (h.covers i).trans (same i)⟩

omit [DecidableEq ι] in
theorem interleaved {threads : List (List (ι × α))}
    (agree : ∀ t ∈ threads, ∀ w ∈ t, w.2 = value w.1)
    (covers : ∀ i, (∃ t ∈ threads, i ∈ t.map Prod.fst) ↔ region i)
    (order : writes.Perm threads.flatten) : Fills value region writes where
  agree w hw := by
    obtain ⟨t, ht, hwt⟩ := List.mem_flatten.mp (order.mem_iff.mp hw)
    exact agree t ht w hwt
  covers i := by
    rw [← covers, (order.map Prod.fst).mem_iff, List.map_flatten]
    simp only [List.mem_flatten, List.mem_map, exists_exists_and_eq_and]

theorem applyWrites_eq (h : Fills value region writes) (h' : Fills value region more)
    (mem : ι → α) : applyWrites mem writes = applyWrites mem more := by
  funext i
  have same : i ∈ writes.map Prod.fst ↔ i ∈ more.map Prod.fst :=
      (h.covers i).trans (h'.covers i).symm
  rw [applyWrites_of_agree h.agree, applyWrites_of_agree h'.agree]
  simp only [same]

end Fills

end Baseliner.SharedWrites
