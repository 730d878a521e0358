import Mathlib.Data.List.Basic
import Mathlib.Data.List.Perm.Basic
import Mathlib.Data.List.Nodup
import Mathlib.Data.List.Perm.Subperm
import Mathlib.Data.List.Range

/-! A buffer that is filled in two passes over one list. The first pass counts
the elements to store, up to a limit, and how many of them are early ones. The
second pass stores early elements from the start of the buffer and late ones
behind the counted early ones. Each pass has its own test. -/

namespace Baseliner.TwoPassStore

variable {α : Type*}

structure Count where
  total : Nat
  early : Nat
  truncated : Bool
  deriving DecidableEq, Repr

/-- The first pass. It stops where one more element would reach the limit. -/
def countPass (limit : Nat) (keep late : α → Bool) : List α → Nat → Nat → Count
  | [], total, early => ⟨total, early, false⟩
  | x :: xs, total, early =>
      if keep x then
        if limit ≤ total + 1 then ⟨total, early, true⟩
        else countPass limit keep late xs (total + 1) (if late x then early else early + 1)
      else countPass limit keep late xs total early

/-- The second pass: the slots it writes, with the elements stored there. -/
def storePass (total early : Nat) (keep late : α → Bool) :
    List α → Nat → Nat → Nat → List (Nat × α)
  | [], _, _, _ => []
  | x :: xs, seen, front, back =>
      if seen < total then
        if keep x then
          if late x then
            (early + back, x) :: storePass total early keep late xs (seen + 1) front (back + 1)
          else (front, x) :: storePass total early keep late xs (seen + 1) (front + 1) back
        else storePass total early keep late xs seen front back
      else []

def counted (limit : Nat) (keep : α → Bool) (l : List α) : List α :=
  (l.filter keep).take (limit - 1)

def arranged (late : α → Bool) (l : List α) : List α :=
  (l.filter fun x => !late x) ++ l.filter late

/-- Every slot of the arranged elements is written once, and with its element. -/
def Stores (late : α → Bool) (writes : List (Nat × α)) (l : List α) : Prop :=
  (writes.map Prod.fst).Perm (List.range l.length) ∧
    ∀ w ∈ writes, (arranged late l)[w.1]? = some w.2

section Counting

variable {limit : Nat} {keep late : α → Bool}

theorem countPass_eq (l : List α) (total early : Nat) (room : total < limit) :
    countPass limit keep late l total early =
      let taken := (l.filter keep).take (limit - 1 - total)
      ⟨total + taken.length, early + (taken.filter fun x => !late x).length,
        decide (limit - 1 - total < (l.filter keep).length)⟩ := by
  induction l generalizing total early with
  | nil => simp [countPass]
  | cons x xs ih =>
      by_cases kept : keep x
      · by_cases full : limit ≤ total + 1
        · have none : limit - 1 - total = 0 := by omega
          simp [countPass, kept, full, none]
        · have rest : limit - 1 - total = (limit - 1 - (total + 1)) + 1 := by omega
          rw [countPass, if_pos kept, if_neg full, ih _ _ (by omega), rest]
          cases isLate : late x
          · simp [kept, isLate]
            omega
          · simp [kept, isLate]
            omega
      · simpa [countPass, kept] using ih total early room

theorem countPass_start (positive : 0 < limit) (l : List α) :
    countPass limit keep late l 0 0 =
      ⟨(counted limit keep l).length, ((counted limit keep l).filter fun x => !late x).length,
        decide (limit ≤ (l.filter keep).length)⟩ := by
  have whole := @countPass_eq _ limit keep late l 0 0 positive
  have bound : limit - 1 < (l.filter keep).length ↔ limit ≤ (l.filter keep).length := by omega
  simpa [counted, bound] using whole

theorem counted_eq_filter {l : List α} (few : (l.filter keep).length < limit) :
    counted limit keep l = l.filter keep :=
  List.take_of_length_le (by omega)

theorem keep_of_mem_counted {l : List α} {x : α} (h : x ∈ counted limit keep l) :
    keep x = true := (List.mem_filter.mp (List.mem_of_mem_take h)).2

end Counting

section Placing

variable {late : α → Bool}

/-- The slots that `storePass` gives the elements of `l`. -/
def place (late : α → Bool) (early : Nat) : List α → Nat → Nat → List (Nat × α)
  | [], _, _ => []
  | x :: xs, front, back =>
      if late x then (early + back, x) :: place late early xs front (back + 1)
      else (front, x) :: place late early xs (front + 1) back

theorem storePass_eq {total early : Nat} {keep : α → Bool} (l : List α)
    (seen front back : Nat) :
    storePass total early keep late l seen front back =
      place late early ((l.filter keep).take (total - seen)) front back := by
  induction l generalizing seen front back with
  | nil => simp [storePass, place]
  | cons x xs ih =>
      by_cases room : seen < total
      · by_cases kept : keep x
        · have rest : total - seen = (total - (seen + 1)) + 1 := by omega
          by_cases isLate : late x
          · simp [storePass, room, kept, isLate, ih, rest, place]
          · simp [storePass, room, kept, isLate, ih, rest, place]
        · simp [storePass, room, kept, ih]
      · have none : total - seen = 0 := by omega
        simp [storePass, room, none, place]

theorem place_snd (early : Nat) (l : List α) (front back : Nat) :
    (place late early l front back).map Prod.snd = l := by
  induction l generalizing front back with
  | nil => rfl
  | cons x xs ih => by_cases isLate : late x <;> simp [place, isLate, ih]

theorem place_fst_perm (early : Nat) (l : List α) (front back : Nat) :
    ((place late early l front back).map Prod.fst).Perm
      (List.range' front (l.filter fun x => !late x).length ++
        List.range' (early + back) (l.filter late).length) := by
  induction l generalizing front back with
  | nil => simp [place]
  | cons x xs ih =>
      by_cases isLate : late x
      · have step := (ih front (back + 1)).cons (early + back)
        simp only [place, isLate, if_true, List.map_cons]
        refine step.trans ?_
        simpa [isLate, List.range'_succ, Nat.add_assoc] using List.perm_middle.symm
      · have step := (ih (front + 1) back).cons front
        simpa [place, isLate, List.range'_succ] using step

theorem getElem?_of_mem_place (early : Nat) (l : List α) (front back : Nat) :
    ∀ w ∈ place late early l front back,
      (late w.2 = false ∧ front ≤ w.1 ∧
          (l.filter fun x => !late x)[w.1 - front]? = some w.2) ∨
        (late w.2 = true ∧ early + back ≤ w.1 ∧
          (l.filter late)[w.1 - (early + back)]? = some w.2) := by
  induction l generalizing front back with
  | nil => simp [place]
  | cons x xs ih =>
      intro w hw
      by_cases isLate : late x
      · simp only [place, isLate, if_true, List.mem_cons] at hw
        rcases hw with rfl | hw
        · exact .inr ⟨isLate, le_rfl, by simp [isLate]⟩
        · rcases ih front (back + 1) w hw with ⟨here, low, at_⟩ | ⟨here, low, at_⟩
          · exact .inl ⟨here, low, by simpa [isLate] using at_⟩
          · refine .inr ⟨here, by omega, ?_⟩
            have shift : w.1 - (early + back) = (w.1 - (early + (back + 1))) + 1 := by omega
            simpa [isLate, shift] using at_
      · simp only [place, isLate, Bool.false_eq_true, if_false, List.mem_cons] at hw
        rcases hw with rfl | hw
        · exact .inl ⟨by simpa using isLate, le_rfl, by simp [isLate]⟩
        · rcases ih (front + 1) back w hw with ⟨here, low, at_⟩ | ⟨here, low, at_⟩
          · refine .inl ⟨here, by omega, ?_⟩
            have shift : w.1 - front = (w.1 - (front + 1)) + 1 := by omega
            simpa [isLate, shift] using at_
          · exact .inr ⟨here, low, by simpa [isLate] using at_⟩

theorem stores_place (l : List α) :
    Stores late (place late (l.filter fun x => !late x).length l 0 0) l := by
  constructor
  · have slots := @place_fst_perm _ late (l.filter fun x => !late x).length l 0 0
    have both : (l.filter fun x => !late x).length + (l.filter late).length = l.length := by
      have := List.length_eq_length_filter_add late (l := l)
      omega
    rw [Nat.add_zero] at slots
    have joined := List.range'_append_1 (s := 0) (m := (l.filter fun x => !late x).length)
      (n := (l.filter late).length)
    rw [Nat.zero_add] at joined
    rwa [joined, both, ← List.range_eq_range'] at slots
  · intro w hw
    rcases getElem?_of_mem_place _ l 0 0 w hw with ⟨-, -, at_⟩ | ⟨-, low, at_⟩
    · have inside := (List.getElem?_eq_some_iff.mp at_).1
      rw [arranged, List.getElem?_append_left (by simpa using inside)]
      simpa using at_
    · rw [arranged, List.getElem?_append_right (by simpa using low)]
      simpa using at_

theorem mem_arranged {l : List α} {x : α} : x ∈ arranged late l ↔ x ∈ l := by
  simp only [arranged, List.mem_append, List.mem_filter]
  cases late x <;> simp

theorem length_arranged (l : List α) : (arranged late l).length = l.length := by
  have := List.length_eq_length_filter_add late (l := l)
  simp [arranged]
  omega

theorem mem_of_stores {writes : List (Nat × α)} {l : List α} (h : Stores late writes l) {x : α} :
    x ∈ writes.map Prod.snd ↔ x ∈ l := by
  rw [← @mem_arranged _ late l, List.mem_map]
  constructor
  · rintro ⟨w, hw, rfl⟩
    exact List.mem_of_getElem? (h.2 w hw)
  · intro hx
    obtain ⟨k, hk, rfl⟩ := List.getElem_of_mem hx
    have slot : k ∈ writes.map Prod.fst := by
      rw [h.1.mem_iff, List.mem_range]
      simpa [length_arranged] using hk
    obtain ⟨w, hw, rfl⟩ := List.mem_map.mp slot
    have at_ := h.2 w hw
    rw [List.getElem?_eq_getElem hk] at at_
    exact ⟨w, hw, (Option.some.inj at_).symm⟩

end Placing

section Agreement

variable {keep store late : α → Bool}

/-- Two tests whose first matches pass each other's test take the same elements. -/
theorem take_filter_eq (l : List α) (m : Nat)
    (kept : ∀ x ∈ (l.filter keep).take m, store x = true)
    (stored : ∀ x ∈ (l.filter store).take ((l.filter keep).take m).length, keep x = true) :
    (l.filter store).take ((l.filter keep).take m).length = (l.filter keep).take m := by
  induction l generalizing m with
  | nil => simp
  | cons x xs ih =>
      cases m with
      | zero => simp
      | succ m =>
          by_cases hk : keep x
          · have hs : store x = true := kept x (by simp [hk])
            have rest := ih m (fun y hy => kept y (by simp [hk, hy]))
              (fun y hy => stored y (by
                rw [List.length_take] at hy
                simp [hk, hs, hy]))
            simpa [hk, hs] using rest
          · by_cases hs : store x
            · cases size : ((xs.filter keep).take (m + 1)).length with
              | zero =>
                  have none : (xs.filter keep).take (m + 1) = [] := List.length_eq_zero_iff.mp size
                  simp [hk, none]
              | succ n =>
                  have mem : x ∈ ((x :: xs).filter store).take
                      (((x :: xs).filter keep).take (m + 1)).length := by
                    simp [hk, hs, size]
                  exact absurd (stored x mem) hk
            · have rest := ih (m + 1) (fun y hy => kept y (by simpa [hk] using hy))
                (fun y hy => stored y (by simpa [hk, hs] using hy))
              simpa [hk, hs] using rest

theorem stores_iff (limit : Nat) (l : List α) :
    Stores late
        (storePass (counted limit keep l).length
          ((counted limit keep l).filter fun x => !late x).length store late l 0 0 0)
        (counted limit keep l) ↔
      (l.filter store).take (counted limit keep l).length = counted limit keep l := by
  rw [storePass_eq, Nat.sub_zero]
  constructor
  · intro h
    have same : ∀ x, x ∈ (l.filter store).take (counted limit keep l).length ↔
        x ∈ counted limit keep l := by
      intro x
      have members := mem_of_stores h (x := x)
      rwa [place_snd] at members
    refine take_filter_eq l (limit - 1) ?_ ?_
    · intro x hx
      exact (List.mem_filter.mp (List.mem_of_mem_take ((same x).mpr hx))).2
    · intro x hx
      exact keep_of_mem_counted ((same x).mp hx)
  · intro same
    rw [same]
    exact stores_place _

theorem forall_split_cons {P : List α → α → Prop} {y : α} {ys : List α} :
    (∀ pre x post, y :: ys = pre ++ x :: post → P pre x) ↔
      P [] y ∧ ∀ pre x post, ys = pre ++ x :: post → P (y :: pre) x := by
  constructor
  · intro h
    exact ⟨h [] y ys rfl, fun pre x post split => h (y :: pre) x post (by simp [split])⟩
  · rintro ⟨here, there⟩ pre x post split
    cases pre with
    | nil =>
        simp only [List.nil_append, List.cons.injEq] at split
        rwa [← split.1]
    | cons z zs =>
        simp only [List.cons_append, List.cons.injEq] at split
        rw [← split.1]
        exact there zs x post split.2

/-- When the second test is the weaker one, what it adds must stand behind. -/
theorem take_filter_eq_iff_of_imp (weaker : ∀ x, keep x = true → store x = true) (l : List α)
    (n : Nat) (enough : n ≤ (l.filter keep).length) :
    (l.filter store).take n = (l.filter keep).take n ↔
      ∀ pre x post, l = pre ++ x :: post →
        (pre.filter keep).length < n → store x = true → keep x = true := by
  induction l generalizing n with
  | nil => simp
  | cons y ys ih =>
      rw [forall_split_cons]
      cases n with
      | zero => simp
      | succ n =>
          by_cases hk : keep y
          · have hs := weaker y hk
            have rest := ih n (by simpa [hk] using enough)
            simpa [hk, hs] using rest
          · by_cases hs : store y
            · constructor
              · intro same
                have mem : y ∈ ((y :: ys).filter keep).take (n + 1) := by
                  rw [← same]
                  simp [hs]
                exact absurd (List.mem_filter.mp (List.mem_of_mem_take mem)).2 hk
              · rintro ⟨here, -⟩
                exact absurd (here (by simp) hs) hk
            · have rest := ih (n + 1) (by simpa [hk] using enough)
              simpa [hk, hs] using rest

end Agreement

section Contents

/-- What stands in a slot: the last element that was written there. -/
def slotAt (writes : List (Nat × α)) (k : Nat) : Option α :=
  (writes.reverse.find? fun w => w.1 == k).map Prod.snd

/-- What stands in the first `n` slots. -/
def contents (n : Nat) (writes : List (Nat × α)) : List α :=
  (List.range n).filterMap (slotAt writes)

variable {n : Nat} {writes : List (Nat × α)}

theorem slotAt_isSome (k : Nat) : (slotAt writes k).isSome = decide (k ∈ writes.map Prod.fst) := by
  rw [slotAt, Option.isSome_map, Bool.eq_iff_iff, List.find?_isSome, decide_eq_true_iff,
    List.mem_map]
  simp

theorem mem_of_mem_contents {x : α} (h : x ∈ contents n writes) : x ∈ writes.map Prod.snd := by
  obtain ⟨k, -, at_⟩ := List.mem_filterMap.mp h
  obtain ⟨w, found, rfl⟩ := Option.map_eq_some_iff.mp at_
  exact List.mem_map_of_mem (List.mem_reverse.mp (List.mem_of_find?_eq_some found))

/-- No slot is written twice, and none behind the first `n`. -/
def Fits (n : Nat) (slots : List Nat) : Prop := slots.Nodup ∧ ∀ k ∈ slots, k < n

def filledSlots (n : Nat) (slots : List Nat) : List Nat := (List.range n).filter (· ∈ slots)

theorem filledSlots_subperm (n : Nat) (slots : List Nat) : (filledSlots n slots).Subperm slots := by
  apply (List.nodup_range.filter _).subperm
  intro k hk
  exact of_decide_eq_true (List.mem_filter.mp hk).2

theorem fits_iff_perm (slots : List Nat) : Fits n slots ↔ (filledSlots n slots).Perm slots := by
  unfold filledSlots
  constructor
  · rintro ⟨once, inside⟩
    rw [List.perm_ext_iff_of_nodup (List.nodup_range.filter _) once]
    intro k
    rw [List.mem_filter, List.mem_range, decide_eq_true_iff]
    exact ⟨And.right, fun hk => ⟨inside k hk, hk⟩⟩
  · intro same
    refine ⟨same.nodup_iff.mp (List.nodup_range.filter _), fun k hk => ?_⟩
    exact List.mem_range.mp (List.mem_filter.mp (same.mem_iff.mpr hk)).1

theorem length_contents : (contents n writes).length =
    (filledSlots n (writes.map Prod.fst)).length := by
  rw [contents, List.length_filterMap_eq_countP, filledSlots, List.countP_eq_length_filter]
  simp only [slotAt_isSome]

theorem contents_perm (fits : Fits n (writes.map Prod.fst)) :
    (contents n writes).Perm (writes.map Prod.snd) := by
  have each : ∀ w ∈ writes, slotAt writes w.1 = some w.2 := by
    intro w hw
    cases found : writes.reverse.find? fun v => v.1 == w.1 with
    | none =>
        have missing := List.find?_eq_none.mp found w (List.mem_reverse.mpr hw)
        simp at missing
    | some v =>
        have member := List.mem_reverse.mp (List.mem_of_find?_eq_some found)
        have slot := List.find?_some found
        rw [beq_iff_eq] at slot
        have same := List.inj_on_of_nodup_map fits.1 member hw slot
        rw [slotAt, found, same]
        rfl
  have values : (writes.map Prod.fst).filterMap (slotAt writes) = writes.map Prod.snd := by
    rw [List.filterMap_map, ← List.filterMap_eq_map]
    exact List.filterMap_congr each
  have filled : contents n writes =
      (filledSlots n (writes.map Prod.fst)).filterMap (slotAt writes) := by
    rw [contents, filledSlots, List.filterMap_filter]
    refine List.filterMap_congr fun k _ => ?_
    rw [← slotAt_isSome]
    cases slotAt writes k with
    | none => rfl
    | some x => rfl
  rw [filled, ← values]
  exact ((fits_iff_perm _).mp fits).filterMap _

theorem subperm_contents_iff (l : List α) (stored : writes.map Prod.snd = l.take n) :
    l.Subperm (contents n writes) ↔ l.length ≤ n ∧ Fits n (writes.map Prod.fst) := by
  have size : writes.length = min n l.length := by
    rw [← List.length_map (f := Prod.snd), stored, List.length_take]
  constructor
  · intro all
    have room := all.length_le
    have filled := (filledSlots_subperm n (writes.map Prod.fst)).length_le
    rw [length_contents] at room
    rw [List.length_map, size] at filled
    refine ⟨by omega, (fits_iff_perm _).mpr ?_⟩
    apply (filledSlots_subperm n _).perm_of_length_le
    rw [List.length_map, size]
    omega
  · rintro ⟨few, fits⟩
    rw [List.take_of_length_le few] at stored
    rw [← stored]
    exact (contents_perm fits).symm.subperm

theorem fits_place_iff {late : α → Bool} (early : Nat) (l : List α) :
    Fits n ((place late early l 0 0).map Prod.fst) ↔
      (l.filter fun x => !late x).length ≤ n ∧
        (l.filter late = [] ∨
          (l.filter fun x => !late x).length ≤ early ∧ early + (l.filter late).length ≤ n) := by
  have slots := @place_fst_perm _ late early l 0 0
  rw [Nat.add_zero] at slots
  rw [Fits, slots.nodup_iff, ← List.length_eq_zero_iff]
  have inside : (∀ k ∈ (place late early l 0 0).map Prod.fst, k < n) ↔
      ∀ k ∈ List.range' 0 (l.filter fun x => !late x).length ++
        List.range' early (l.filter late).length, k < n :=
    forall_congr' fun k => by rw [slots.mem_iff]
  rw [inside, List.nodup_append]
  generalize (l.filter fun x => !late x).length = front
  generalize (l.filter late).length = back
  simp only [List.mem_append, List.mem_range'_1]
  constructor
  · rintro ⟨⟨-, -, apart⟩, low⟩
    have first : front ≤ n := by
      by_contra more
      have := low n (Or.inl (by omega))
      omega
    refine ⟨first, ?_⟩
    by_cases none : back = 0
    · exact Or.inl none
    · have last := low (early + back - 1) (Or.inr (by omega))
      refine Or.inr ⟨?_, by omega⟩
      by_contra more
      exact apart early (by omega) early (by omega) rfl
  · rintro ⟨first, none | ⟨behind, last⟩⟩
    · refine ⟨⟨List.nodup_range', List.nodup_range', ?_⟩, ?_⟩
      · intro a _ b hb
        omega
      · intro k hk
        omega
    · refine ⟨⟨List.nodup_range', List.nodup_range', ?_⟩, ?_⟩
      · intro a ha b hb
        omega
      · intro k hk
        omega

theorem storePass_complete_iff {late : α → Bool} (early : Nat) (store : α → Bool) (l : List α) :
    (l.filter store).Subperm (contents n (storePass n early store late l 0 0 0)) ↔
      (l.filter store).length ≤ n ∧
        ((l.filter store).filter late = [] ∨
          ((l.filter store).filter fun x => !late x).length ≤ early ∧
            early + ((l.filter store).filter late).length ≤ n) := by
  rw [storePass_eq, Nat.sub_zero, subperm_contents_iff _ (place_snd _ _ _ _)]
  refine and_congr_right fun few => ?_
  rw [List.take_of_length_le few, fits_place_iff]
  exact and_iff_right ((List.length_filter_le _ _).trans few)

theorem mem_contents_storePass {late store : α → Bool} {early : Nat} {l : List α} {x : α}
    (h : x ∈ contents n (storePass n early store late l 0 0 0)) : store x = true := by
  have stored := mem_of_mem_contents h
  rw [storePass_eq, place_snd] at stored
  exact (List.mem_filter.mp (List.mem_of_mem_take stored)).2

theorem length_contents_le : (contents n writes).length ≤ n := by
  refine (List.length_filterMap_le _ _).trans ?_
  rw [List.length_range]

end Contents

end Baseliner.TwoPassStore
