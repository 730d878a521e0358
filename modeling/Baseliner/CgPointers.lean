import Mathlib.Tactic.Ring
import Baseliner.CgSparse

/-! The running sums of `sparse`. Each thread sums up over its own rows and publishes the last
sum, and behind the barrier it adds what the threads before it have published. A thread
without rows publishes whatever it finds; only threads without rows read that. -/

namespace Baseliner.CgPointers

open BarrierPhases CgInsertion CgSparse CountingScatter KeyedSums

section Ranges

variable {n threads t u : ℕ}

/-- The team of a run: not empty, and within the limit of `makea`. -/
structure Team (n threads : ℕ) : Prop where
  rows : 1 ≤ n
  low : 1 ≤ threads
  high : threads ≤ maxThreads

namespace Team

variable (h : Team n threads)

include h

theorem numThreads_eq : numThreads threads = threads := if_neg (Nat.not_lt.mpr h.high)

theorem work_pos : 1 ≤ work n threads := by
  have rows := h.rows
  have low := h.low
  rw [work, h.numThreads_eq, Nat.one_le_div_iff (by omega)]
  omega

theorem le_work_mul : n ≤ work n threads * threads := by
  have low := h.low
  have division := Nat.div_add_mod (n + threads - 1) threads
  have rest := Nat.mod_lt (n + threads - 1) low
  rw [work, h.numThreads_eq, Nat.mul_comm]
  omega

theorem ihigh_of_empty (empty : n < ilow n threads t) : ihigh n threads t = n := by
  have pos := h.work_pos
  rw [ihigh]
  split_ifs with above
  · rfl
  · omega

omit h in
theorem ihigh_le (n threads t : ℕ) : ihigh n threads t ≤ n := by
  rw [ihigh]
  split_ifs with above
  · exact le_rfl
  · omega

theorem ilow_le_ihigh (some_ : ilow n threads t ≤ n) : ilow n threads t ≤ ihigh n threads t := by
  have pos := h.work_pos
  rw [ihigh]
  split_ifs with above
  · exact some_
  · omega

theorem ihigh_succ (some_ : ilow n threads (t + 1) ≤ n) :
    ihigh n threads t + 1 = ilow n threads (t + 1) := by
  have pos := h.work_pos
  have next : ilow n threads (t + 1) = ilow n threads t + work n threads := by
    rw [ilow, ilow, Nat.mul_succ]
    omega
  rw [ihigh, next]
  split_ifs with above
  · omega
  · omega

omit h in
theorem ilow_mono (le : t ≤ u) : ilow n threads t ≤ ilow n threads u := by
  rw [ilow, ilow]
  exact Nat.succ_le_succ (Nat.mul_le_mul_left _ le)

theorem ihigh_lt_ilow (before : t < u) (some_ : ilow n threads u ≤ n) :
    ihigh n threads t < ilow n threads u := by
  have step : ilow n threads (t + 1) ≤ ilow n threads u := ilow_mono before
  have next := h.ihigh_succ (t := t) (by omega)
  omega

theorem owner {j : ℕ} (low : 1 ≤ j) (high : j ≤ n) :
    ∃ t < threads, ilow n threads t ≤ j ∧ j ≤ ihigh n threads t := by
  have pos := h.work_pos
  have enough := h.le_work_mul
  have division := Nat.div_add_mod (j - 1) (work n threads)
  have rest := Nat.mod_lt (j - 1) pos
  refine ⟨(j - 1) / work n threads, ?_, ?_, ?_⟩
  · rw [Nat.div_lt_iff_lt_mul pos, Nat.mul_comm]
    omega
  · rw [ilow]
    omega
  · rw [ihigh, ilow]
    split_ifs with above
    · exact high
    · omega

theorem apart (other : t ≠ u) {j : ℕ} (low : ilow n threads t ≤ j) (high : j ≤ ihigh n threads t)
    (low' : ilow n threads u ≤ j) (high' : j ≤ ihigh n threads u) : False := by
  have inside := ihigh_le n threads t
  rcases Nat.lt_or_gt_of_ne other with before | after
  · have gap := h.ihigh_lt_ilow before (by omega)
    omega
  · have gap := h.ihigh_lt_ilow after (by omega)
    omega

end Team

@[simp] theorem ilow_zero (n threads : ℕ) : ilow n threads 0 = 1 := by
  rw [ilow, Nat.mul_zero]

theorem firstPointer_succ (h : Team n threads) (some_ : ilow n threads (t + 1) ≤ n) :
    firstPointer n threads (t + 1) = ihigh n threads t + 2 := by
  rw [firstPointer, if_neg (Nat.succ_ne_zero t), ← h.ihigh_succ some_]

theorem firstPointer_le (n threads t : ℕ) :
    firstPointer n threads t ≤ ilow n threads t + 1 := by
  rw [firstPointer]
  split_ifs
  · exact Nat.le_add_left ..
  · exact le_rfl

theorem ilow_le_firstPointer (n threads t : ℕ) :
    ilow n threads t ≤ firstPointer n threads t := by
  rw [firstPointer]
  split_ifs with first
  · rw [first, ilow_zero]
  · exact Nat.le_succ _

end Ranges

section Cells

variable {K : Type*}

/-- The cells that a thread uses; the slots of the rows are not stored to. -/
structure Cells where
  rowstr : ℕ → Prop
  lastN : ℕ → Prop
  nzrow : ℕ → Prop
  nzloc : ℕ → Prop

structure Agree (c : Cells) (m m' : Mem K) : Prop where
  rowstr : ∀ x, c.rowstr x → m.rowstr x = m'.rowstr x
  lastN : ∀ x, c.lastN x → m.lastN x = m'.lastN x
  nzrow : ∀ x, c.nzrow x → m.nzrow x = m'.nzrow x
  nzloc : ∀ x, c.nzloc x → m.nzloc x = m'.nzloc x
  slots : m.slots = m'.slots

def Local (c : Cells) (step : Step K) : Prop :=
  ∀ m m' x, Agree c m m' → step m = .ok x → ∃ x', step m' = .ok x' ∧ Agree c x x'

def Keeps (c : Cells) (step : Step K) : Prop := ∀ m x, step m = .ok x → Agree c m x

variable {c : Cells} {x : ℕ} {value : Mem K → ℕ}

theorem update_agree {f g : ℕ → ℕ} {P : ℕ → Prop} (same : ∀ y, P y → f y = g y) {v w : ℕ}
    (stored : P x → v = w) :
    ∀ y, P y → Function.update f x v y = Function.update g x w y := by
  intro y hy
  by_cases here : y = x
  · subst here
    rw [Function.update_self, Function.update_self, stored hy]
  · rw [Function.update_of_ne here, Function.update_of_ne here, same y hy]

theorem update_keeps (f : ℕ → ℕ) {P : ℕ → Prop} (other : ¬ P x) (v : ℕ) :
    ∀ y, P y → f y = Function.update f x v y := by
  intro y hy
  have apart : y ≠ x := fun same => other (same ▸ hy)
  rw [Function.update_of_ne apart]

theorem local_storeRowstr (h : c.rowstr x → ∀ m m', Agree c m m' → value m = value m') :
    Local c (storeRowstr x value) := by
  intro m m' y agree made
  cases made
  exact ⟨_, rfl, update_agree agree.rowstr fun hx => h hx m m' agree, agree.lastN, agree.nzrow,
    agree.nzloc, agree.slots⟩

theorem local_storeLastN (h : c.lastN x → ∀ m m', Agree c m m' → value m = value m') :
    Local c (storeLastN x value) := by
  intro m m' y agree made
  cases made
  exact ⟨_, rfl, agree.rowstr, update_agree agree.lastN fun hx => h hx m m' agree, agree.nzrow,
    agree.nzloc, agree.slots⟩

theorem local_storeNzrow (h : c.nzrow x → ∀ m m', Agree c m m' → value m = value m') :
    Local c (storeNzrow x value) := by
  intro m m' y agree made
  cases made
  exact ⟨_, rfl, agree.rowstr, agree.lastN, update_agree agree.nzrow fun hx => h hx m m' agree,
    agree.nzloc, agree.slots⟩

theorem local_storeNzloc (h : c.nzloc x → ∀ m m', Agree c m m' → value m = value m') :
    Local c (storeNzloc x value) := by
  intro m m' y agree made
  cases made
  exact ⟨_, rfl, agree.rowstr, agree.lastN, agree.nzrow,
    update_agree agree.nzloc fun hx => h hx m m' agree, agree.slots⟩

theorem keeps_storeRowstr (other : ¬ c.rowstr x) : Keeps c (storeRowstr x value) := by
  intro m y made
  cases made
  exact ⟨update_keeps _ other _, fun _ _ => rfl, fun _ _ => rfl, fun _ _ => rfl, rfl⟩

theorem keeps_storeLastN (other : ¬ c.lastN x) : Keeps c (storeLastN x value) := by
  intro m y made
  cases made
  exact ⟨fun _ _ => rfl, update_keeps _ other _, fun _ _ => rfl, fun _ _ => rfl, rfl⟩

theorem keeps_storeNzrow (other : ¬ c.nzrow x) : Keeps c (storeNzrow x value) := by
  intro m y made
  cases made
  exact ⟨fun _ _ => rfl, fun _ _ => rfl, update_keeps _ other _, fun _ _ => rfl, rfl⟩

theorem keeps_storeNzloc (other : ¬ c.nzloc x) : Keeps c (storeNzloc x value) := by
  intro m y made
  cases made
  exact ⟨fun _ _ => rfl, fun _ _ => rfl, fun _ _ => rfl, update_keeps _ other _, rfl⟩

theorem views_of_cells {threads : ℕ} {prog : ℕ → List (Step K)} {cells : ℕ → Cells}
    (inside : ∀ t < threads, ∀ step ∈ prog t, Local (cells t) step)
    (outside : ∀ t < threads, ∀ u < threads, u ≠ t → ∀ step ∈ prog u, Keeps (cells t) step) :
    Views (· < threads) prog fun t => Agree (cells t) where
  refl _ _ := ⟨fun _ _ => rfl, fun _ _ => rfl, fun _ _ => rfl, fun _ _ => rfl, rfl⟩
  trans _ _ _ _ h h' :=
    ⟨fun x hx => (h.rowstr x hx).trans (h'.rowstr x hx),
      fun x hx => (h.lastN x hx).trans (h'.lastN x hx),
      fun x hx => (h.nzrow x hx).trans (h'.nzrow x hx),
      fun x hx => (h.nzloc x hx).trans (h'.nzloc x hx), h.slots.trans h'.slots⟩
  inside := inside
  outside t u ht hu apart step member s x := outside t ht u hu apart step member s x

theorem runAlone_storeRowstr {α : Type*} (l : List α) (at_ : α → ℕ) (value : α → (ℕ → ℕ) → ℕ)
    (m : Mem K) :
    runAlone (l.map fun e => storeRowstr (at_ e) fun m => value e m.rowstr) m =
      .ok { m with
        rowstr := l.foldl (fun f e => Function.update f (at_ e) (value e f)) m.rowstr } := by
  induction l generalizing m with
  | nil => rfl
  | cons e l ih => exact ih _

theorem runAlone_storeNzloc {α : Type*} (l : List α) (at_ : α → ℕ) (value : α → (ℕ → ℕ) → ℕ)
    (m : Mem K) :
    runAlone (l.map fun e => storeNzloc (at_ e) fun m => value e m.nzloc) m =
      .ok { m with
        nzloc := l.foldl (fun f e => Function.update f (at_ e) (value e f)) m.nzloc } := by
  induction l generalizing m with
  | nil => rfl
  | cons e l ih => exact ih _

end Cells

section CountRows

variable {K : Type*} {p : Problem K} {threads t : ℕ}

theorem foldl_add_apply (l : List (ℕ × ℕ)) (f : ℕ → ℕ) (x : ℕ) :
    l.foldl (fun f e => Function.update f (e.1 + 1) (f (e.1 + 1) + e.2)) f x =
      f x + sumOver (fun k => decide (k + 1 = x)) l := by
  induction l generalizing f with
  | nil => rfl
  | cons e l ih =>
      rw [List.foldl_cons, ih, sumOver_cons]
      by_cases here : e.1 + 1 = x
      · subst here
        rw [Function.update_self, if_pos (decide_eq_true rfl), Nat.add_assoc]
      · have other : decide (e.1 + 1 = x) ≠ true := fun same => here (of_decide_eq_true same)
        rw [Function.update_of_ne (Ne.symm here), if_neg other, Nat.zero_add]

theorem counted_width {low high x : ℕ} (above : low + 1 ≤ x) (below : x ≤ high + 1)
    (pos : 1 ≤ low) :
    sumOver (fun k => decide (k + 1 = x))
      (p.counted.filter fun e => decide (low ≤ e.1 ∧ e.1 ≤ high)) = p.width x := by
  have notFirst : x ≠ 1 := by omega
  have same : (p.counted.filter fun e => decide (low ≤ e.1 ∧ e.1 ≤ high)).filter
      (fun e => decide (e.1 + 1 = x)) = p.counted.filter fun e => decide (e.1 = x - 1) := by
    rw [List.filter_filter]
    refine List.filter_congr fun e _ => ?_
    rw [← Bool.decide_and]
    exact decide_eq_decide.mpr (by omega)
  rw [Problem.width, if_neg notFirst, Problem.count, sumOver, same, sumOver]

def tallied (p : Problem K) (threads t : ℕ) (f : ℕ → ℕ) : ℕ → ℕ :=
  (p.counted.filter fun e => ilow p.n threads t ≤ e.1 ∧ e.1 ≤ ihigh p.n threads t).foldl
    (fun f e => Function.update f (e.1 + 1) (f (e.1 + 1) + e.2))
    (clear (ilow p.n threads t + 1) (ihigh p.n threads t + 1 - ilow p.n threads t) f)

def opened (p : Problem K) (threads t : ℕ) (f : ℕ → ℕ) : ℕ → ℕ :=
  if t = 0 then Function.update (tallied p threads t f) 1 1 else tallied p threads t f

def summed (p : Problem K) (threads t : ℕ) (f : ℕ → ℕ) : ℕ → ℕ :=
  prefixSums (firstPointer p.n threads t)
    (ihigh p.n threads t + 1 - firstPointer p.n threads t) (opened p threads t f)

theorem opened_apply (team : Team p.n threads) (some_ : ilow p.n threads t ≤ p.n) (f : ℕ → ℕ)
    {x : ℕ} (above : firstPointer p.n threads t ≤ x) (below : x ≤ ihigh p.n threads t + 1) :
    opened p threads t f x = p.width x := by
  have low : 1 ≤ ilow p.n threads t := Nat.le_add_left ..
  have order := team.ilow_le_ihigh some_
  by_cases one : x = 1
  · subst one
    have first : t = 0 := by
      by_contra later
      rw [firstPointer, if_neg later] at above
      omega
    rw [opened, if_pos first, Function.update_self, Problem.width, if_pos rfl]
  · have inside : ilow p.n threads t + 1 ≤ x := by
      rw [firstPointer] at above
      split_ifs at above with first
      · rw [first, ilow_zero]
        omega
      · exact above
    have before : opened p threads t f x = tallied p threads t f x := by
      rw [opened]
      split_ifs
      · exact Function.update_of_ne one _ _
      · rfl
    rw [before, tallied, foldl_add_apply, clear_apply, if_pos ⟨inside, by omega⟩, Nat.zero_add,
      counted_width inside below low]

theorem summed_apply (team : Team p.n threads) (some_ : ilow p.n threads t ≤ p.n) (f : ℕ → ℕ)
    {x : ℕ} (above : firstPointer p.n threads t ≤ x) (below : x ≤ ihigh p.n threads t + 1) :
    summed p threads t f x =
      ∑ y ∈ Finset.Ico (firstPointer p.n threads t) (x + 1), p.width y := by
  rw [summed, prefixSums_apply _ _ _ above (by omega)]
  refine Finset.sum_congr rfl fun y hy => ?_
  rw [Finset.mem_Ico] at hy
  exact opened_apply team some_ f hy.1 (by omega)

theorem countRows_alone (team : Team p.n threads) (ht : t < threads) (m : Mem K) :
    runAlone (p.countRows threads t) m =
      .ok { m with
        rowstr := summed p threads t m.rowstr
        lastN := Function.update m.lastN t
          (summed p threads t m.rowstr (ihigh p.n threads t + 1)) } := by
  have member : t < numThreads threads := by rwa [team.numThreads_eq]
  have clearing := runAlone_storeRowstr (List.range' (ilow p.n threads t + 1)
    (ihigh p.n threads t + 1 - ilow p.n threads t)) id (fun _ _ => 0) m
  have tallying := runAlone_storeRowstr
    (p.counted.filter fun e => ilow p.n threads t ≤ e.1 ∧ e.1 ≤ ihigh p.n threads t)
    (fun e => e.1 + 1) (fun e f => f (e.1 + 1) + e.2)
    { m with
      rowstr := clear (ilow p.n threads t + 1)
        (ihigh p.n threads t + 1 - ilow p.n threads t) m.rowstr }
  have opening : runAlone (if t = 0 then [storeRowstr 1 fun _ => 1] else [])
      { m with rowstr := tallied p threads t m.rowstr } =
      .ok { m with rowstr := opened p threads t m.rowstr } := by
    rw [opened]
    split_ifs
    · rfl
    · rfl
  have summing := runAlone_storeRowstr (List.range' (firstPointer p.n threads t + 1)
    (ihigh p.n threads t + 1 - firstPointer p.n threads t)) id (fun j f => f j + f (j - 1))
    { m with rowstr := opened p threads t m.rowstr }
  simp only [Problem.countRows, List.append_assoc, if_pos member]
  refine (runAlone_append clearing).trans ((runAlone_append tallying).trans
    ((runAlone_append opening).trans ((runAlone_append summing).trans ?_)))
  rfl

/-- The cells of a thread up to the first barrier. A thread with no rows has none: what it
stores to `last_n` is not its own, and only threads behind it read it. -/
def countCells (p : Problem K) (threads t : ℕ) : Cells where
  rowstr x := firstPointer p.n threads t ≤ x ∧ x ≤ ihigh p.n threads t + 1
  lastN x := ilow p.n threads t ≤ p.n ∧ x = t
  nzrow _ := False
  nzloc _ := False

theorem countRows_steps {step : Step K}
    (member : step ∈ p.countRows threads t) :
    (∃ x value, step = storeRowstr x value ∧ (countCells p threads t).rowstr x ∧
      ∀ m m', Agree (countCells p threads t) m m' → value m = value m') ∨
    step = storeLastN t fun m => m.rowstr (ihigh p.n threads t + 1) := by
  have ends := firstPointer_le p.n threads t
  have one : t = 0 → firstPointer p.n threads t = 1 := fun first => if_pos first
  simp only [Problem.countRows, List.mem_append, List.mem_map, List.mem_range'_1,
    List.mem_filter, decide_eq_true_eq] at member
  rcases member with (((⟨j, inside, rfl⟩ | ⟨e, inside, rfl⟩) | opening) | ⟨j, inside, rfl⟩) | last
  · exact .inl ⟨j, _, rfl, ⟨by omega, by omega⟩, fun _ _ _ => rfl⟩
  · have cell : (countCells p threads t).rowstr (e.1 + 1) := ⟨by omega, by omega⟩
    refine .inl ⟨e.1 + 1, _, rfl, cell, fun m m' agree => ?_⟩
    rw [agree.rowstr _ cell]
  · split_ifs at opening with first
    · have low : 1 ≤ ihigh p.n threads t + 1 := Nat.le_add_left ..
      rw [List.mem_singleton] at opening
      exact .inl ⟨1, _, opening, ⟨(one first).le, low⟩, fun _ _ _ => rfl⟩
    · cases opening
  · have cell : (countCells p threads t).rowstr j := ⟨by omega, by omega⟩
    have before : (countCells p threads t).rowstr (j - 1) := ⟨by omega, by omega⟩
    refine .inl ⟨j, _, rfl, cell, fun m m' agree => ?_⟩
    rw [agree.rowstr _ cell, agree.rowstr _ before]
  · split_ifs at last
    · exact .inr (List.mem_singleton.mp last)
    · cases last

theorem pointer_apart (team : Team p.n threads) {u x : ℕ} (other : t ≠ u)
    (mine : firstPointer p.n threads t ≤ x ∧ x ≤ ihigh p.n threads t + 1)
    (yours : firstPointer p.n threads u ≤ x ∧ x ≤ ihigh p.n threads u + 1) : False := by
  -- a pointer above the first is the one behind a row
  have behind : ∀ v, firstPointer p.n threads v ≤ x → 2 ≤ x → ilow p.n threads v ≤ x - 1 := by
    intro v above two
    rw [firstPointer] at above
    split_ifs at above with first
    · rw [first, ilow_zero]
      omega
    · omega
  have first : ∀ v, firstPointer p.n threads v ≤ 1 → v = 0 := by
    intro v above
    have low : 1 ≤ ilow p.n threads v := Nat.le_add_left ..
    by_contra later
    rw [firstPointer, if_neg later] at above
    omega
  by_cases two : 2 ≤ x
  · exact team.apart other (behind t mine.1 two) (by omega) (behind u yours.1 two) (by omega)
  · exact other ((first t (by omega)).trans (first u (by omega)).symm)

theorem countRows_views (team : Team p.n threads) :
    Views (· < threads) (p.countRows threads) fun t => Agree (countCells p threads t) := by
  refine views_of_cells ?_ ?_
  · intro t _ step member
    rcases countRows_steps member with ⟨x, value, rfl, -, same⟩ | rfl
    · exact local_storeRowstr fun _ => same
    · refine local_storeLastN fun own m m' agree => ?_
      have order := team.ilow_le_ihigh own.1
      have reach := firstPointer_le p.n threads t
      exact agree.rowstr _ ⟨by omega, le_rfl⟩
  · intro t _ u _ other step member
    rcases countRows_steps member with ⟨x, value, rfl, cell, -⟩ | rfl
    · exact keeps_storeRowstr fun mine => pointer_apart team other cell mine
    · exact keeps_storeLastN fun mine => other mine.2

/-- The pointers at the first barrier: each thread with rows has its own running sums. -/
def Counted (p : Problem K) (threads : ℕ) (m : Mem K) : Prop :=
  ∀ t < threads, ilow p.n threads t ≤ p.n →
    (∀ x, firstPointer p.n threads t ≤ x → x ≤ ihigh p.n threads t + 1 →
      m.rowstr x = ∑ y ∈ Finset.Ico (firstPointer p.n threads t) (x + 1), p.width y) ∧
    m.lastN t = ∑ y ∈ Finset.Ico (firstPointer p.n threads t) (ihigh p.n threads t + 2),
      p.width y

theorem countRows_spec (team : Team p.n threads) {order : List ℕ}
    (complete : Complete (· < threads) (p.countRows threads) order) (m : Mem K) :
    ∃ m', runSchedule (p.countRows threads) order m = .ok m' ∧ Counted p threads m' := by
  obtain ⟨m', run, seen⟩ := runSchedule_of_views (countRows_views team) complete
    (fun t ht => countRows_alone team ht m)
  refine ⟨m', run, fun t ht some_ => ⟨fun x above below => ?_, ?_⟩⟩
  · rw [← (seen t ht).rowstr x ⟨above, below⟩]
    exact summed_apply team some_ _ above below
  · have order := team.ilow_le_ihigh some_
    have reach := firstPointer_le p.n threads t
    rw [← (seen t ht).lastN t ⟨some_, rfl⟩]
    simp only [Function.update_self]
    exact summed_apply team some_ _ (by omega) le_rfl

end CountRows

section SumBefore

variable {K : Type*} {threads t : ℕ}

theorem runAlone_addLastN (l : List ℕ) (m : Mem K) :
    runAlone (l.map fun i => storeNzrow t fun m => m.nzrow t + m.lastN i) m =
      .ok { m with nzrow := Function.update m.nzrow t (m.nzrow t + (l.map m.lastN).sum) } := by
  induction l generalizing m with
  | nil =>
      simp only [List.map_nil, List.sum_nil, Nat.add_zero, Function.update_eq_self, runAlone_nil]
  | cons i l ih =>
      refine (ih _).trans ?_
      simp only [Function.update_idem, Function.update_self, List.map_cons, List.sum_cons,
        Nat.add_assoc]

theorem sumBefore_alone (member : t < numThreads threads) (m : Mem K) :
    runAlone (Problem.sumBefore threads t) m =
      .ok { m with
        nzrow := Function.update m.nzrow t ((List.range t).map m.lastN).sum } := by
  rw [Problem.sumBefore, if_pos member]
  refine (runAlone_addLastN (t := t) (List.range t) _).trans ?_
  simp only [Function.update_idem, Function.update_self, Nat.zero_add]

/-- A thread with rows reads `last_n` of the threads before it, which have rows too. -/
theorem sumBefore_local {c : Cells} (own : c.nzrow t → ∀ i < t, c.lastN i) {step : Step K}
    (member : step ∈ Problem.sumBefore threads t) : Local c step := by
  rw [Problem.sumBefore] at member
  rcases List.mem_cons.mp member with rfl | later
  · exact local_storeNzrow fun _ _ _ _ => rfl
  · split_ifs at later
    · obtain ⟨i, hi, rfl⟩ := List.mem_map.mp later
      refine local_storeNzrow fun hx m m' agree => ?_
      rw [agree.nzrow t hx, agree.lastN i (own hx i (List.mem_range.mp hi))]
    · cases later

theorem sumBefore_keeps {c : Cells} (other : ¬ c.nzrow t) {step : Step K}
    (member : step ∈ Problem.sumBefore threads t) : Keeps c step := by
  rw [Problem.sumBefore] at member
  rcases List.mem_cons.mp member with rfl | later
  · exact keeps_storeNzrow other
  · split_ifs at later
    · obtain ⟨i, -, rfl⟩ := List.mem_map.mp later
      exact keeps_storeNzrow other
    · cases later

theorem sum_before (first lastN f : ℕ → ℕ)
    (ordered : ∀ i < t, first i ≤ first (i + 1))
    (sums : ∀ i < t, lastN i = ∑ y ∈ Finset.Ico (first i) (first (i + 1)), f y) :
    first 0 ≤ first t ∧
      ((List.range t).map lastN).sum = ∑ y ∈ Finset.Ico (first 0) (first t), f y := by
  induction t with
  | zero => simp
  | succ t ih =>
      obtain ⟨le, before⟩ := ih (fun i hi => ordered i (by omega)) (fun i hi => sums i (by omega))
      have next := ordered t (by omega)
      refine ⟨le.trans next, ?_⟩
      rw [List.range_succ, List.map_append, List.sum_append, before, List.map_singleton,
        List.sum_singleton, sums t (by omega), Finset.sum_Ico_consecutive _ le next]

end SumBefore

section ShiftRows

variable {K : Type*} {p : Problem K} {threads t : ℕ}

theorem shiftRow_eq (t j : ℕ) :
    (fun m : Mem K => if m.nzrow t > 0 then
      storeRowstr j (fun m => m.rowstr j + m.nzrow t) m else .ok m) =
      storeRowstr j fun m => m.rowstr j + m.nzrow t := by
  funext m
  split_ifs with pos
  · rfl
  · have zero : m.nzrow t = 0 := by omega
    rw [storeRowstr, zero, Nat.add_zero, Function.update_eq_self]

theorem runAlone_shiftRow (l : List ℕ) (m : Mem K) :
    runAlone (l.map fun j => storeRowstr j fun m => m.rowstr j + m.nzrow t) m =
      .ok { m with
        rowstr := l.foldl (fun f j => Function.update f j (f j + m.nzrow t)) m.rowstr } := by
  induction l generalizing m with
  | nil => rfl
  | cons j l ih => exact ih _

theorem shiftRows_eq (p : Problem K) (threads t : ℕ) :
    p.shiftRows threads t = Problem.sumBefore threads t ++
      (List.range' (firstPointer p.n threads t)
        (ihigh p.n threads t + 2 - firstPointer p.n threads t)).map
        fun j => storeRowstr j fun m => m.rowstr j + m.nzrow t :=
  congrArg (Problem.sumBefore threads t ++ ·)
    (List.map_congr_left fun j _ => shiftRow_eq t j)

theorem shiftRows_alone (team : Team p.n threads) (ht : t < threads) (m : Mem K) :
    runAlone (p.shiftRows threads t) m =
      .ok { m with
        nzrow := Function.update m.nzrow t ((List.range t).map m.lastN).sum
        rowstr := raise (firstPointer p.n threads t)
          (ihigh p.n threads t + 2 - firstPointer p.n threads t)
          ((List.range t).map m.lastN).sum m.rowstr } := by
  have member : t < numThreads threads := by rwa [team.numThreads_eq]
  rw [shiftRows_eq, runAlone_append (sumBefore_alone member m), runAlone_shiftRow]
  simp only [Function.update_self, raise]

def shiftCells (p : Problem K) (threads t : ℕ) : Cells where
  rowstr x := firstPointer p.n threads t ≤ x ∧ x ≤ ihigh p.n threads t + 1
  lastN x := ilow p.n threads t ≤ p.n ∧ x < t
  nzrow x := ilow p.n threads t ≤ p.n ∧ x = t
  nzloc _ := False

theorem shiftRows_views (team : Team p.n threads) :
    Views (· < threads) (p.shiftRows threads) fun t => Agree (shiftCells p threads t) := by
  refine views_of_cells ?_ ?_
  · intro t _ step member
    rw [shiftRows_eq, List.mem_append] at member
    rcases member with before | shift
    · exact sumBefore_local (c := shiftCells p threads t) (fun own i hi => ⟨own.1, hi⟩) before
    · obtain ⟨j, inside, rfl⟩ := List.mem_map.mp shift
      rw [List.mem_range'_1] at inside
      refine local_storeRowstr fun cell m m' agree => ?_
      have low := ilow_le_firstPointer p.n threads t
      have some_ : ilow p.n threads t ≤ p.n := by
        by_contra empty
        have high := team.ihigh_of_empty (Nat.not_le.mp empty)
        have later : t ≠ 0 := by
          rintro rfl
          have one := team.rows
          rw [ilow_zero] at empty
          omega
        have first : firstPointer p.n threads t = ilow p.n threads t + 1 := if_neg later
        omega
      rw [agree.rowstr j cell, agree.nzrow t ⟨some_, rfl⟩]
  · intro t _ u _ other step member
    rw [shiftRows_eq, List.mem_append] at member
    rcases member with before | shift
    · exact sumBefore_keeps (c := shiftCells p threads t) (fun mine => other mine.2) before
    · obtain ⟨j, inside, rfl⟩ := List.mem_map.mp shift
      rw [List.mem_range'_1] at inside
      exact keeps_storeRowstr fun mine => pointer_apart team other ⟨inside.1, by omega⟩ mine

def Pointers (p : Problem K) (m : Mem K) : Prop :=
  ∀ x, 1 ≤ x → x ≤ p.n + 1 → m.rowstr x = p.start x

theorem pointer_owner (team : Team p.n threads) {x : ℕ} (low : 1 ≤ x) (high : x ≤ p.n + 1) :
    ∃ t < threads, ilow p.n threads t ≤ p.n ∧ firstPointer p.n threads t ≤ x ∧
      x ≤ ihigh p.n threads t + 1 := by
  by_cases one : x = 1
  · have some_ : ilow p.n threads 0 ≤ p.n := by
      rw [ilow_zero]
      exact team.rows
    exact ⟨0, team.low, some_, one.ge, by omega⟩
  · obtain ⟨t, ht, above, below⟩ := team.owner (j := x - 1) (by omega) (by omega)
    have first := firstPointer_le p.n threads t
    exact ⟨t, ht, by omega, by omega, by omega⟩

theorem shiftRows_spec (team : Team p.n threads) {order : List ℕ}
    (complete : Complete (· < threads) (p.shiftRows threads) order) {m : Mem K}
    (counted : Counted p threads m) :
    ∃ m', runSchedule (p.shiftRows threads) order m = .ok m' ∧ Pointers p m' := by
  obtain ⟨m', run, seen⟩ := runSchedule_of_views (shiftRows_views team) complete
    (fun t ht => shiftRows_alone team ht m)
  refine ⟨m', run, fun x low high => ?_⟩
  obtain ⟨t, ht, some_, above, below⟩ := pointer_owner team low high
  have rows : ∀ i ≤ t, ilow p.n threads i ≤ p.n := fun i hi =>
    (Team.ilow_mono hi).trans some_
  have next : ∀ i < t, firstPointer p.n threads (i + 1) = ihigh p.n threads i + 2 :=
    fun i hi => firstPointer_succ team (rows (i + 1) hi)
  obtain ⟨le, before⟩ := sum_before (t := t) (firstPointer p.n threads)
    m.lastN p.width
    (fun i hi => by
      have order := team.ilow_le_ihigh (rows i hi.le)
      have first := firstPointer_le p.n threads i
      rw [next i hi]
      omega)
    (fun i hi => by
      rw [next i hi]
      exact (counted i (hi.trans ht) (rows i hi.le)).2)
  have zero : firstPointer p.n threads 0 = 1 := if_pos rfl
  rw [zero] at before le
  rw [← (seen t ht).rowstr x ⟨above, below⟩]
  simp only [raise_apply]
  rw [if_pos ⟨above, by omega⟩, (counted t ht some_).1 x above below, before, Nat.add_comm,
    Finset.sum_Ico_consecutive _ le (by omega)]
  rfl

end ShiftRows

section Free

variable {K : Type*} {p : Problem K} {threads t : ℕ}

theorem countFree_alone (team : Team p.n threads) (ht : t < threads) (m : Mem K) :
    runAlone (p.countFree threads t) m =
      .ok { m with
        nzloc := prefixSums (ilow p.n threads t)
          (ihigh p.n threads t - ilow p.n threads t) m.nzloc
        lastN := Function.update m.lastN t (prefixSums (ilow p.n threads t)
          (ihigh p.n threads t - ilow p.n threads t) m.nzloc (ihigh p.n threads t)) } := by
  have member : t < numThreads threads := by rwa [team.numThreads_eq]
  have summing := runAlone_storeNzloc (List.range' (ilow p.n threads t + 1)
    (ihigh p.n threads t - ilow p.n threads t)) id (fun j f => f j + f (j - 1)) m
  simp only [Problem.countFree, if_pos member]
  refine (runAlone_append summing).trans ?_
  rfl

def countFreeCells (p : Problem K) (threads t : ℕ) : Cells where
  rowstr _ := True
  lastN x := ilow p.n threads t ≤ p.n ∧ x = t
  nzrow _ := False
  nzloc x := ilow p.n threads t ≤ x ∧ x ≤ ihigh p.n threads t

theorem countFree_steps {step : Step K} (member : step ∈ p.countFree threads t) :
    (∃ j, step = storeNzloc j (fun m => m.nzloc j + m.nzloc (j - 1)) ∧
      (countFreeCells p threads t).nzloc j ∧ (countFreeCells p threads t).nzloc (j - 1)) ∨
    step = storeLastN t fun m => m.nzloc (ihigh p.n threads t) := by
  simp only [Problem.countFree, List.mem_append, List.mem_map, List.mem_range'_1] at member
  rcases member with ⟨j, inside, rfl⟩ | last
  · exact .inl ⟨j, rfl, ⟨by omega, by omega⟩, ⟨by omega, by omega⟩⟩
  · split_ifs at last
    · exact .inr (List.mem_singleton.mp last)
    · cases last

theorem countFree_views (team : Team p.n threads) :
    Views (· < threads) (p.countFree threads) fun t => Agree (countFreeCells p threads t) := by
  refine views_of_cells ?_ ?_
  · intro t _ step member
    rcases countFree_steps member with ⟨j, rfl, cell, before⟩ | rfl
    · refine local_storeNzloc fun _ m m' agree => ?_
      rw [agree.nzloc _ cell, agree.nzloc _ before]
    · refine local_storeLastN fun own m m' agree => ?_
      exact agree.nzloc _ ⟨team.ilow_le_ihigh own.1, le_rfl⟩
  · intro t _ u _ other step member
    rcases countFree_steps member with ⟨j, rfl, cell, -⟩ | rfl
    · exact keeps_storeNzloc fun mine => team.apart other cell.1 cell.2 mine.1 mine.2
    · exact keeps_storeLastN fun mine => other mine.2

theorem shiftFree_eq (p : Problem K) (threads t : ℕ) :
    p.shiftFree threads t = Problem.sumBefore threads t ++
      (rows p.n threads t).map fun j => storeNzloc j fun m => m.nzloc j + m.nzrow t := by
  refine congrArg (Problem.sumBefore threads t ++ ·) (List.map_congr_left fun j _ => ?_)
  funext m
  split_ifs with pos
  · rfl
  · have zero : m.nzrow t = 0 := by omega
    rw [storeNzloc, zero, Nat.add_zero, Function.update_eq_self]

theorem runAlone_shiftFree (l : List ℕ) (m : Mem K) :
    runAlone (l.map fun j => storeNzloc j fun m => m.nzloc j + m.nzrow t) m =
      .ok { m with
        nzloc := l.foldl (fun f j => Function.update f j (f j + m.nzrow t)) m.nzloc } := by
  induction l generalizing m with
  | nil => rfl
  | cons j l ih => exact ih _

theorem shiftFree_alone (team : Team p.n threads) (ht : t < threads) (m : Mem K) :
    runAlone (p.shiftFree threads t) m =
      .ok { m with
        nzrow := Function.update m.nzrow t ((List.range t).map m.lastN).sum
        nzloc := raise (ilow p.n threads t) (ihigh p.n threads t + 1 - ilow p.n threads t)
          ((List.range t).map m.lastN).sum m.nzloc } := by
  have member : t < numThreads threads := by rwa [team.numThreads_eq]
  rw [shiftFree_eq, runAlone_append (sumBefore_alone member m), runAlone_shiftFree]
  simp only [Function.update_self, raise, rows]

def shiftFreeCells (p : Problem K) (threads t : ℕ) : Cells where
  rowstr _ := True
  lastN x := ilow p.n threads t ≤ p.n ∧ x < t
  nzrow x := ilow p.n threads t ≤ p.n ∧ x = t
  nzloc x := ilow p.n threads t ≤ x ∧ x ≤ ihigh p.n threads t

theorem mem_rows {j : ℕ} :
    j ∈ rows p.n threads t ↔ ilow p.n threads t ≤ j ∧ j ≤ ihigh p.n threads t := by
  rw [rows, List.mem_range'_1]
  omega

theorem shiftFree_views (team : Team p.n threads) :
    Views (· < threads) (p.shiftFree threads) fun t => Agree (shiftFreeCells p threads t) := by
  refine views_of_cells ?_ ?_
  · intro t _ step member
    rw [shiftFree_eq, List.mem_append] at member
    rcases member with before | shift
    · exact sumBefore_local (c := shiftFreeCells p threads t) (fun own i hi => ⟨own.1, hi⟩) before
    · obtain ⟨j, inside, rfl⟩ := List.mem_map.mp shift
      rw [mem_rows] at inside
      have high := Team.ihigh_le p.n threads t
      refine local_storeNzloc fun cell m m' agree => ?_
      rw [agree.nzloc j cell, agree.nzrow t ⟨by omega, rfl⟩]
  · intro t _ u _ other step member
    rw [shiftFree_eq, List.mem_append] at member
    rcases member with before | shift
    · exact sumBefore_keeps (c := shiftFreeCells p threads t) (fun mine => other mine.2) before
    · obtain ⟨j, inside, rfl⟩ := List.mem_map.mp shift
      rw [mem_rows] at inside
      exact keeps_storeNzloc fun mine => team.apart other inside.1 inside.2 mine.1 mine.2

theorem free_spec (team : Team p.n threads) {first second : List ℕ}
    (counting : Complete (· < threads) (p.countFree threads) first)
    (shifting : Complete (· < threads) (p.shiftFree threads) second) (m : Mem K) :
    ∃ m' m'', runSchedule (p.countFree threads) first m = .ok m' ∧
      runSchedule (p.shiftFree threads) second m' = .ok m'' ∧
      (∀ j, 1 ≤ j → j ≤ p.n → m''.nzloc j = ∑ y ∈ Finset.Ico 1 (j + 1), m.nzloc y) ∧
      m''.rowstr = m.rowstr ∧ m''.slots = m.slots := by
  obtain ⟨m', counted, seen⟩ := runSchedule_of_views (countFree_views team) counting
    (fun t ht => countFree_alone team ht m)
  obtain ⟨m'', shifted, seen'⟩ := runSchedule_of_views (shiftFree_views team) shifting
    (fun t ht => shiftFree_alone team ht m')
  have zero : 0 < threads := team.low
  refine ⟨m', m'', counted, shifted, fun j low high => ?_, ?_, ?_⟩
  · obtain ⟨t, ht, above, below⟩ := team.owner low high
    have some_ : ilow p.n threads t ≤ p.n := above.trans high
    have rows : ∀ i ≤ t, ilow p.n threads i ≤ p.n := fun i hi =>
      (Team.ilow_mono hi).trans some_
    obtain ⟨le, before⟩ := sum_before (t := t) (ilow p.n threads)
      m'.lastN m.nzloc (fun i _ => Team.ilow_mono (Nat.le_succ i))
      (fun i hi => by
        have order := team.ilow_le_ihigh (rows i hi.le)
        rw [← (seen i (hi.trans ht)).lastN i ⟨rows i hi.le, rfl⟩]
        simp only [Function.update_self]
        rw [prefixSums_apply _ _ _ order (by omega), team.ihigh_succ (rows (i + 1) hi)])
    rw [ilow_zero] at before le
    rw [← (seen' t ht).nzloc j ⟨above, below⟩]
    simp only [raise_apply]
    rw [if_pos ⟨above, by omega⟩, ← (seen t ht).nzloc j ⟨above, below⟩]
    simp only
    rw [prefixSums_apply _ _ _ above (by omega), before, Nat.add_comm,
      Finset.sum_Ico_consecutive _ le (by omega)]
  · funext x
    exact ((seen' 0 zero).rowstr x trivial).symm.trans ((seen 0 zero).rowstr x trivial).symm
  · exact (seen' 0 zero).slots.symm.trans (seen 0 zero).slots.symm

end Free

end Baseliner.CgPointers
