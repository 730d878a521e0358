import Mathlib.Algebra.Ring.Defs
import Mathlib.Data.List.GetD
import Mathlib.Logic.Function.Basic
import Baseliner.KeyedSums

/-! The innermost loop of `sparse` of the CG benchmark: a column is entered into the segment of
its row, which is kept in order. A larger column and those behind it are moved up, a slot
that is free is taken, and a column that is there already is marked as duplicated. -/

namespace Baseliner.CgInsertion

open KeyedSums

variable {K : Type*}

inductive Stop
  | spaceExceeded
  | internalError
  | outside
  deriving DecidableEq

/-- The arrays `v` and `iv`; a column 0 marks a free slot. -/
structure Slots (K : Type*) where
  v : ℕ → K
  iv : ℕ → ℕ

def Slots.store (lo hi k jcol : ℕ) (x : K) (s : Slots K) : Except Stop (Slots K) :=
  if lo ≤ k ∧ k < hi then .ok ⟨Function.update s.v k x, Function.update s.iv k jcol⟩
  else .error .outside

def Slots.moveUp (lo hi k : ℕ) : ℕ → Slots K → Except Stop (Slots K)
  | 0, s => .ok s
  | d + 1, s =>
      if s.iv (k + d) > 0 then
        match s.store lo hi (k + d + 1) (s.iv (k + d)) (s.v (k + d)) with
        | .ok s => s.moveUp lo hi k d
        | .error e => .error e
      else s.moveUp lo hi k d

section Entries

variable [CommRing K]

def Slots.free (lo hi : ℕ) (s : Slots K) : Slots K where
  v k := if lo ≤ k ∧ k < hi then 0 else s.v k
  iv k := if lo ≤ k ∧ k < hi then 0 else s.iv k

/-- The loop over `k`, with the slots left in the segment: the arrays behind it, and whether
the column was there. -/
def Slots.insert (lo hi jcol : ℕ) (va : K) : ℕ → ℕ → Slots K → Except Stop (Slots K × Bool)
  | 0, _, _ => .error .internalError
  | left + 1, k, s =>
      if s.iv k > jcol then
        match s.moveUp lo hi k (hi - 1 - k) with
        | .ok s => (s.store lo hi k jcol (0 + va)).map (·, false)
        | .error e => .error e
      else if s.iv k = 0 then (s.store lo hi k jcol (s.v k + va)).map (·, false)
      else if s.iv k = jcol then (s.store lo hi k jcol (s.v k + va)).map (·, true)
      else s.insert lo hi jcol va left (k + 1)

/-- The segment holds these entries and is free behind them. -/
structure Holds (lo hi : ℕ) (entries : List (ℕ × K)) (s : Slots K) : Prop where
  le : lo + entries.length ≤ hi
  slot : ∀ p, lo + p < hi → (s.iv (lo + p), s.v (lo + p)) = entries.getD p (0, 0)
  positive : ∀ e ∈ entries, 0 < e.1

end Entries

def SameOutside (lo hi : ℕ) (s s' : Slots K) : Prop :=
  ∀ k, k < lo ∨ hi ≤ k → s'.iv k = s.iv k ∧ s'.v k = s.v k

variable {lo hi k jcol : ℕ} {va : K} {s : Slots K}

theorem store_ok (low : lo ≤ k) (high : k < hi) (x : K) :
    s.store lo hi k jcol x =
      .ok ⟨Function.update s.v k x, Function.update s.iv k jcol⟩ :=
  if_pos ⟨low, high⟩

/-- Every occupied slot from `k` on ends up one further on, and slot `k` is left for the new
column. The slots are read before they are stored to. -/
theorem moveUp_spec (s : Slots K) {d : ℕ} (low : lo ≤ k) (high : k + d < hi) :
    ∃ s', s.moveUp lo hi k d = .ok s' ∧
      ∀ x, (s'.iv x, s'.v x) =
        if k < x ∧ x ≤ k + d ∧ 0 < s.iv (x - 1) then (s.iv (x - 1), s.v (x - 1))
        else (s.iv x, s.v x) := by
  induction d generalizing s with
  | zero =>
      refine ⟨s, rfl, fun x => ?_⟩
      rw [if_neg (by omega)]
  | succ d ih =>
      rw [Slots.moveUp]
      by_cases used : s.iv (k + d) > 0
      · rw [if_pos used, store_ok (by omega) (by omega)]
        obtain ⟨s', done, each⟩ := ih (s := ⟨Function.update s.v (k + d + 1) (s.v (k + d)),
          Function.update s.iv (k + d + 1) (s.iv (k + d))⟩) (by omega)
        refine ⟨s', done, fun x => ?_⟩
        rw [each]
        by_cases last : x = k + d + 1
        · subst last
          rw [if_neg (by omega), if_pos ⟨by omega, by omega, used⟩]
          simp
        · by_cases inside : k < x ∧ x ≤ k + d
          · have before : x - 1 ≠ k + d + 1 := by omega
            have same : (k < x ∧ x ≤ k + d ∧ 0 < s.iv (x - 1)) ↔
                (k < x ∧ x ≤ k + (d + 1) ∧ 0 < s.iv (x - 1)) := by omega
            simp only [Function.update_of_ne before, Function.update_of_ne last, same]
          · rw [if_neg (by omega), if_neg (by omega)]
            simp only [Function.update_of_ne last]
      · rw [if_neg used]
        obtain ⟨s', done, each⟩ := ih (s := s) (by omega)
        refine ⟨s', done, fun x => ?_⟩
        rw [each]
        by_cases last : x = k + d + 1
        · subst last
          rw [if_neg (by omega), if_neg (fun both => used both.2.2)]
        · have same : (k < x ∧ x ≤ k + d ∧ 0 < s.iv (x - 1)) ↔
              (k < x ∧ x ≤ k + (d + 1) ∧ 0 < s.iv (x - 1)) := by omega
          simp only [same]

theorem SameOutside.update (low : lo ≤ k) (high : k < hi) (x : K) {s' : Slots K}
    (same : SameOutside lo hi s s') :
    SameOutside lo hi s ⟨Function.update s'.v k x, Function.update s'.iv k jcol⟩ := by
  intro q outside
  have other : q ≠ k := by omega
  simp only [Function.update_of_ne other]
  exact same q outside

section Insert

variable [CommRing K] {pre suf : List (ℕ × K)} {c : ℕ} {y : K}

theorem getD_split (pre l : List (ℕ × K)) (p : ℕ) :
    (pre ++ l).getD p (0, 0) =
      if p < pre.length then pre.getD p (0, 0) else l.getD (p - pre.length) (0, 0) := by
  split_ifs with first
  · rw [List.getD_append _ _ _ _ first]
  · rw [List.getD_append_right _ _ _ _ (by omega)]

theorem holds_free (le : lo ≤ hi) : Holds lo hi [] (s.free lo hi) := by
  refine ⟨by simpa using le, fun p inside => ?_, by simp⟩
  have segment : lo ≤ lo + p ∧ lo + p < hi := ⟨Nat.le_add_right .., inside⟩
  simp only [Slots.free, if_pos segment, List.getD_nil]

theorem sameOutside_free : SameOutside lo hi s (s.free lo hi) := by
  intro k outside
  have other : ¬ (lo ≤ k ∧ k < hi) := by omega
  simp only [Slots.free, if_neg other, and_self]

theorem Holds.of_same {entries : List (ℕ × K)} {s' : Slots K} (h : Holds lo hi entries s)
    (same : ∀ k, lo ≤ k → k < hi → s'.iv k = s.iv k ∧ s'.v k = s.v k) :
    Holds lo hi entries s' := by
  refine ⟨h.le, fun p inside => ?_, h.positive⟩
  obtain ⟨column, value⟩ := same (lo + p) (Nat.le_add_right ..) inside
  rw [column, value]
  exact h.slot p inside

theorem Holds.update {l : List (ℕ × K)} (h : Holds lo hi (pre ++ l) s)
    (room : lo + pre.length < hi) (pos : 0 < jcol) (x : K) :
    Holds lo hi (pre ++ (jcol, x) :: l.tail)
      ⟨Function.update s.v (lo + pre.length) x, Function.update s.iv (lo + pre.length) jcol⟩ := by
  have le := h.le
  refine ⟨?_, ?_, ?_⟩
  · rw [List.length_append, List.length_cons, List.length_tail]
    rw [List.length_append] at le
    omega
  · intro p inside
    have old := h.slot p inside
    rw [getD_split] at old ⊢
    by_cases here : p = pre.length
    · subst here
      simp
    · have other : lo + p ≠ lo + pre.length := by omega
      simp only [Function.update_of_ne other]
      rw [old]
      split_ifs with first
      · rfl
      · obtain ⟨q, hq⟩ : ∃ q, p - pre.length = q + 1 := ⟨p - pre.length - 1, by omega⟩
        rw [hq, List.getD_cons_succ]
        cases l with
        | nil => rfl
        | cons e l => rfl
  · intro e he
    rcases List.mem_append.mp he with first | rest
    · exact h.positive e (List.mem_append_left _ first)
    · rcases List.mem_cons.mp rest with rfl | behind
      · exact pos
      · exact h.positive e (List.mem_append_right _ (List.mem_of_mem_tail behind))

theorem insert_moved (h : Holds lo hi (pre ++ suf) s) (room : lo + (pre.length + suf.length) < hi)
    (pos : 0 < jcol) (x : K) :
    ∃ s', s.moveUp lo hi (lo + pre.length) (hi - 1 - (lo + pre.length)) = .ok s' ∧
      Holds lo hi (pre ++ (jcol, x) :: suf)
        ⟨Function.update s'.v (lo + pre.length) x,
          Function.update s'.iv (lo + pre.length) jcol⟩ ∧
      SameOutside lo hi s s' := by
  obtain ⟨s', done, each⟩ := moveUp_spec s
    (show lo ≤ lo + pre.length by omega)
    (show lo + pre.length + (hi - 1 - (lo + pre.length)) < hi by omega)
  refine ⟨s', done, ⟨?_, ?_, ?_⟩, ?_⟩
  · rw [List.length_append, List.length_cons]
    omega
  · intro p inside
    have moved := each (lo + p)
    rw [getD_split]
    rcases Nat.lt_trichotomy p pre.length with before | here | behind
    · have other : lo + p ≠ lo + pre.length := by omega
      rw [if_neg (by omega), h.slot p inside, getD_split, if_pos before] at moved
      simp only [Function.update_of_ne other]
      rw [if_pos before, moved]
    · subst here
      simp
    · have other : lo + p ≠ lo + pre.length := by omega
      have down : lo + p - 1 = lo + (p - 1) := by omega
      obtain ⟨q, hq⟩ : ∃ q, p - pre.length = q + 1 := ⟨p - pre.length - 1, by omega⟩
      have previous := h.slot (p - 1) (by omega)
      rw [getD_split, if_neg (by omega), show p - 1 - pre.length = q by omega] at previous
      simp only [Function.update_of_ne other]
      rw [if_neg (by omega), hq, List.getD_cons_succ, moved, down]
      by_cases used : q < suf.length
      · have filled : 0 < s.iv (lo + (p - 1)) := by
          have column : s.iv (lo + (p - 1)) = (suf.getD q (0, 0)).1 := congrArg Prod.fst previous
          rw [column, List.getD_eq_getElem _ _ used]
          exact h.positive _ (List.mem_append_right _ (List.getElem_mem used))
        rw [if_pos ⟨by omega, by omega, filled⟩, previous]
      · have free : s.iv (lo + (p - 1)) = 0 := by
          have column : s.iv (lo + (p - 1)) = (suf.getD q (0, 0)).1 := congrArg Prod.fst previous
          rw [column, List.getD_eq_default _ _ (by omega)]
        rw [if_neg (by omega), h.slot p inside, getD_split, if_neg (by omega), hq,
          List.getD_eq_default _ _ (by omega), List.getD_eq_default _ _ (by omega)]
  · intro e he
    rcases List.mem_append.mp he with first | rest
    · exact h.positive e (List.mem_append_left _ first)
    · rcases List.mem_cons.mp rest with rfl | behind
      · exact pos
      · exact h.positive e (List.mem_append_right _ behind)
  · intro q outside
    have same := each q
    rw [if_neg (by omega)] at same
    exact ⟨congrArg Prod.fst same, congrArg Prod.snd same⟩

theorem insert_spec (pre suf : List (ℕ × K)) (va : K) (h : Holds lo hi (pre ++ suf) s)
    (room : lo + (pre.length + suf.length) < hi) (pos : 0 < jcol) :
    ∃ s' dup, s.insert lo hi jcol va (hi - (lo + pre.length)) (lo + pre.length) = .ok (s', dup) ∧
      Holds lo hi (pre ++ insertRow (jcol, va) suf) s' ∧ SameOutside lo hi s s' ∧
      (insertRow (jcol, va) suf).length + (if dup then 1 else 0) = suf.length + 1 := by
  induction suf generalizing pre with
  | nil =>
      obtain ⟨left, hleft⟩ : ∃ left, hi - (lo + pre.length) = left + 1 :=
        ⟨hi - (lo + pre.length) - 1, by omega⟩
      have here := h.slot pre.length (by omega)
      rw [getD_split, if_neg (by omega), List.getD_nil] at here
      have column : s.iv (lo + pre.length) = 0 := congrArg Prod.fst here
      have value : s.v (lo + pre.length) = 0 := congrArg Prod.snd here
      rw [hleft, Slots.insert, if_neg (by omega), if_pos column, value, zero_add,
        store_ok (by omega) (by omega)]
      exact ⟨_, false, rfl, h.update (by omega) pos va,
        SameOutside.update (by omega) (by omega) va (fun _ _ => ⟨rfl, rfl⟩), rfl⟩
  | cons e suf ih =>
      rw [List.length_cons] at room
      obtain ⟨left, hleft⟩ : ∃ left, hi - (lo + pre.length) = left + 1 :=
        ⟨hi - (lo + pre.length) - 1, by omega⟩
      have here := h.slot pre.length (by omega)
      rw [getD_split, if_neg (by omega), Nat.sub_self, List.getD_cons_zero] at here
      have column : s.iv (lo + pre.length) = e.1 := congrArg Prod.fst here
      have value : s.v (lo + pre.length) = e.2 := congrArg Prod.snd here
      have filled : 0 < e.1 :=
        h.positive e (List.mem_append_right _ (List.mem_cons_self ..))
      rw [hleft, Slots.insert, column, value, insertRow]
      by_cases before : e.1 > jcol
      · obtain ⟨s', done, holds, same⟩ := insert_moved h
          (by rw [List.length_cons]; omega) pos (0 + va)
        rw [if_pos before, if_pos before, done]
        simp only [store_ok (show lo ≤ lo + pre.length by omega)
          (show lo + pre.length < hi by omega)]
        rw [zero_add] at holds ⊢
        exact ⟨_, false, rfl, holds, same.update (by omega) (by omega) va, rfl⟩
      · rw [if_neg before, if_neg filled.ne', if_neg before]
        by_cases there : e.1 = jcol
        · rw [if_pos there, if_neg (by omega), store_ok (by omega) (by omega)]
          have merged := h.update (by omega) pos (e.2 + va)
          rw [← there] at merged
          rw [← there]
          exact ⟨_, true, rfl, merged,
            SameOutside.update (by omega) (by omega) _ (fun _ _ => ⟨rfl, rfl⟩), rfl⟩
        · have length : (pre ++ [e]).length = pre.length + 1 := by simp
          obtain ⟨s', dup, done, holds, same, count⟩ := ih (pre ++ [e])
            (by rw [List.append_assoc]; exact h) (by rw [length]; omega)
          rw [length] at done
          rw [if_neg there, if_pos (show e.1 < jcol by omega),
            show left = hi - (lo + (pre.length + 1)) by omega]
          rw [List.append_assoc] at holds
          refine ⟨s', dup, done, holds, same, ?_⟩
          rw [List.length_cons, List.length_cons]
          omega

end Insert

end Baseliner.CgInsertion
