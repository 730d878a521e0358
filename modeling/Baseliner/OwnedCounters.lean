import Mathlib.Data.List.Count
import Mathlib.Data.List.Nodup
import Mathlib.Logic.Function.Basic

/-! Threads that take places. For each of its keys a thread reads the counter of the key, stores
it one less, and writes the key to the place with this number. Threads come to their steps in any
order; a counter belongs to the one thread that has keys of this value. -/

namespace Baseliner.OwnedCounters

variable {K : Type*} [DecidableEq K]

inductive Hand (K : Type*) where
  | free
  | loaded (k : K) (n : ℕ)
  | taken (k : K) (n : ℕ)

structure Thread (K : Type*) where
  todo : List K
  hand : Hand K

structure State (K : Type*) where
  counters : K → ℕ
  threads : ℕ → Thread K
  writes : List (ℕ × K)

section Machine

/-- One access to the memory. -/
def State.step (s : State K) (t : ℕ) : State K :=
  match s.threads t with
  | ⟨todo, hand⟩ =>
      match hand, todo with
      | .free, [] => s
      | .free, k :: todo =>
          { s with threads := Function.update s.threads t ⟨todo, .loaded k (s.counters k)⟩ }
      | .loaded k n, todo =>
          { s with
            counters := Function.update s.counters k (n - 1)
            threads := Function.update s.threads t ⟨todo, .taken k (n - 1)⟩ }
      | .taken k n, todo =>
          { s with
            threads := Function.update s.threads t ⟨todo, .free⟩
            writes := s.writes ++ [(n, k)] }

def State.run (s : State K) (schedule : List ℕ) : State K := schedule.foldl State.step s

def start (counters : K → ℕ) (keys : ℕ → List K) : State K :=
  ⟨counters, fun t => ⟨keys t, .free⟩, []⟩

def Thread.left : Thread K → List K
  | ⟨todo, .loaded k _⟩ => k :: todo
  | ⟨todo, _⟩ => todo

def Thread.held : Thread K → List (ℕ × K)
  | ⟨_, .taken k n⟩ => [(n, k)]
  | _ => []

def Thread.steps : Thread K → ℕ
  | ⟨todo, .free⟩ => 3 * todo.length
  | ⟨todo, .loaded _ _⟩ => 3 * todo.length + 2
  | ⟨todo, .taken _ _⟩ => 3 * todo.length + 1

theorem State.step_other (s : State K) {t u : ℕ} (other : u ≠ t) :
    (s.step t).threads u = s.threads u := by
  rw [State.step]
  obtain ⟨todo, hand⟩ := s.threads t
  cases hand with
  | free =>
      cases todo with
      | nil => rfl
      | cons k todo => exact Function.update_of_ne other ..
  | loaded k n => exact Function.update_of_ne other ..
  | taken k n => exact Function.update_of_ne other ..

theorem State.step_cases (s : State K) (t : ℕ) :
    (s.threads t = ⟨[], .free⟩ ∧ s.step t = s) ∨
    (∃ k todo, s.threads t = ⟨k :: todo, .free⟩ ∧
      (s.step t).threads t = ⟨todo, .loaded k (s.counters k)⟩ ∧
      (s.step t).counters = s.counters ∧ (s.step t).writes = s.writes) ∨
    (∃ k n todo, s.threads t = ⟨todo, .loaded k n⟩ ∧
      (s.step t).threads t = ⟨todo, .taken k (n - 1)⟩ ∧
      (s.step t).counters = Function.update s.counters k (n - 1) ∧
      (s.step t).writes = s.writes) ∨
    ∃ k n todo, s.threads t = ⟨todo, .taken k n⟩ ∧ (s.step t).threads t = ⟨todo, .free⟩ ∧
      (s.step t).counters = s.counters ∧ (s.step t).writes = s.writes ++ [(n, k)] := by
  rw [State.step]
  obtain ⟨todo, hand⟩ := s.threads t
  cases hand with
  | free =>
      cases todo with
      | nil => exact .inl ⟨rfl, rfl⟩
      | cons k todo =>
          exact .inr (.inl ⟨k, todo, rfl, Function.update_self .., rfl, rfl⟩)
  | loaded k n =>
      exact .inr (.inr (.inl ⟨k, n, todo, rfl, Function.update_self .., rfl, rfl⟩))
  | taken k n =>
      exact .inr (.inr (.inr ⟨k, n, todo, rfl, Function.update_self .., rfl, rfl⟩))

theorem State.steps_step (s : State K) (t : ℕ) :
    ((s.step t).threads t).steps = (s.threads t).steps - 1 := by
  rcases s.step_cases t with ⟨here, step⟩ | ⟨k, todo, here, next, _⟩ | ⟨k, n, todo, here, next, _⟩ |
    ⟨k, n, todo, here, next, _⟩
  · rw [step, here]
    rfl
  all_goals
    rw [next, here]
    simp only [Thread.steps, List.length_cons]
    omega

theorem State.steps_run (s : State K) (schedule : List ℕ) (t : ℕ) :
    ((s.run schedule).threads t).steps = (s.threads t).steps - schedule.count t := by
  induction schedule generalizing s with
  | nil => rfl
  | cons u schedule ih =>
      have rest : (s.run (u :: schedule)) = (s.step u).run schedule := rfl
      rw [rest, ih]
      by_cases own : u = t
      · subst own
        rw [s.steps_step, List.count_cons_self]
        omega
      · rw [s.step_other (Ne.symm own), List.count_cons_of_ne own]

end Machine

section Owned

def Owned (keys : ℕ → List K) : Prop := ∀ t u, t ≠ u → (keys t).Disjoint (keys u)

def places (counter n : ℕ) : List ℕ := (List.range n).map fun i => counter - 1 - i

theorem places_succ (counter n : ℕ) : places counter (n + 1) = places counter n ++
    [counter - 1 - n] := by
  rw [places, List.range_succ, List.map_append]
  rfl

theorem nodup_places {counter n : ℕ} (enough : n ≤ counter) : (places counter n).Nodup := by
  refine List.Nodup.map_on ?_ List.nodup_range
  intro i hi j hj same
  rw [List.mem_range] at hi hj
  omega

def placesOf (v : K) (writes : List (ℕ × K)) : List ℕ :=
  (writes.filter fun w => w.2 = v).map Prod.fst

omit [DecidableEq K] in
theorem placesOf_append [DecidableEq K] (v : K) (writes more : List (ℕ × K)) :
    placesOf v (writes ++ more) = placesOf v writes ++ placesOf v more := by
  rw [placesOf, List.filter_append, List.map_append]
  rfl

theorem placesOf_singleton (v k : K) (n : ℕ) :
    placesOf v [(n, k)] = if k = v then [n] else [] := by
  by_cases own : k = v <;> simp [placesOf, own]

theorem mem_placesOf {v : K} {writes : List (ℕ × K)} {p : ℕ} :
    p ∈ placesOf v writes ↔ (p, v) ∈ writes := by
  simp [placesOf]

theorem nodup_writes {writes : List (ℕ × K)} (each : ∀ v, (placesOf v writes).Nodup)
    (apart : ∀ w ∈ writes, ∀ w' ∈ writes, w.2 ≠ w'.2 → w.1 ≠ w'.1) :
    (writes.map Prod.fst).Nodup := by
  induction writes with
  | nil => exact List.nodup_nil
  | cons w writes ih =>
      have split (v : K) : placesOf v (w :: writes) =
          (if w.2 = v then [w.1] else []) ++ placesOf v writes := by
        rw [← placesOf_singleton, ← placesOf_append]
        rfl
      rw [List.map_cons, List.nodup_cons]
      constructor
      · intro again
        obtain ⟨w', member, same⟩ := List.mem_map.mp again
        by_cases own : w.2 = w'.2
        · have once := each w.2
          rw [split, if_pos rfl, List.singleton_append, List.nodup_cons] at once
          refine once.1 (mem_placesOf.mpr ?_)
          rw [← same, own]
          exact member
        · exact apart w (List.mem_cons_self ..) w' (List.mem_cons_of_mem _ member) own same.symm
      · refine ih (fun v => ?_) fun x hx y hy =>
          apart x (List.mem_cons_of_mem _ hx) y (List.mem_cons_of_mem _ hy)
        have once := each v
        rw [split, List.nodup_append] at once
        exact once.2.1

/-- A thread that has stored the counters of some of its keys. -/
structure Worker (first : K → ℕ) (keys : List K) (s : State K) (t : ℕ) (done : List K) : Prop where
  split : keys = done ++ (s.threads t).left
  loaded : ∀ k n todo, s.threads t = ⟨todo, .loaded k n⟩ → n = s.counters k
  taken : ∀ w ∈ (s.threads t).held, w.2 ∈ keys
  counter : ∀ v ∈ keys, s.counters v = first v - done.count v
  written : ∀ v ∈ keys,
    placesOf v (s.writes ++ (s.threads t).held) = places (first v) (done.count v)

variable {first : K → ℕ} {s : State K} {t : ℕ}

theorem Worker.start (first : K → ℕ) (keys : ℕ → List K) (t : ℕ) :
    Worker first (keys t) (start first keys) t [] where
  split := rfl
  loaded := fun _ _ _ none => nomatch none
  taken := fun _ none => nomatch none
  counter := fun _ _ => rfl
  written := fun _ _ => rfl

theorem Worker.keep {keys done : List K} {s' : State K} (h : Worker first keys s t done)
    (counters : s'.counters = s.counters) (left : (s'.threads t).left = (s.threads t).left)
    (due : s'.writes ++ (s'.threads t).held = s.writes ++ (s.threads t).held)
    (loaded : ∀ k n todo, s'.threads t = ⟨todo, .loaded k n⟩ → n = s.counters k)
    (taken : ∀ w ∈ (s'.threads t).held, w.2 ∈ keys) : Worker first keys s' t done where
  split := by
    rw [left]
    exact h.split
  loaded := by
    rw [counters]
    exact loaded
  taken := taken
  counter := by
    rw [counters]
    exact h.counter
  written := by
    rw [due]
    exact h.written

theorem Worker.store {keys done todo : List K} {s' : State K} {k : K} {n : ℕ}
    (h : Worker first keys s t done) (here : s.threads t = ⟨todo, .loaded k n⟩)
    (next : s'.threads t = ⟨todo, .taken k (n - 1)⟩)
    (counters : s'.counters = Function.update s.counters k (n - 1))
    (writes : s'.writes = s.writes) : Worker first keys s' t (done ++ [k]) := by
  have split := h.split
  have written := h.written
  have read := h.loaded k n todo here
  rw [here] at split written
  have member : k ∈ keys := by
    rw [split]
    exact List.mem_append_right _ (List.mem_cons_self ..)
  have own := h.counter k member
  constructor
  · rw [next, List.append_assoc]
    exact split
  · intro k' n' todo' same
    rw [next] at same
    cases same
  · rw [next]
    intro w listed
    rw [List.mem_singleton.mp listed]
    exact member
  · intro v listed
    rw [counters, List.count_append, List.count_singleton']
    by_cases same : v = k
    · subst same
      rw [Function.update_self, if_pos rfl]
      omega
    · rw [Function.update_of_ne same, if_neg (Ne.symm same)]
      exact h.counter v listed
  · intro v listed
    have before := written v listed
    simp only [Thread.held, List.append_nil] at before
    rw [next, writes, placesOf_append, before, Thread.held, placesOf_singleton,
      List.count_append, List.count_singleton']
    by_cases same : k = v
    · subst same
      rw [if_pos rfl, if_pos rfl, places_succ, read, own]
      congr 2
      omega
    · rw [if_neg same, if_neg same, List.append_nil, Nat.add_zero]

theorem Worker.own {keys done : List K} (h : Worker first keys s t done) :
    ∃ done', Worker first keys (s.step t) t done' := by
  rcases s.step_cases t with ⟨_, step⟩ | ⟨k, todo, here, next, counters, writes⟩ |
    ⟨k, n, todo, here, next, counters, writes⟩ | ⟨k, n, todo, here, next, counters, writes⟩
  · rw [step]
    exact ⟨done, h⟩
  · -- the counter is read
    refine ⟨done, h.keep counters ?_ ?_ ?_ ?_⟩
    · rw [next, here]
      rfl
    · rw [next, here, writes]
      rfl
    · intro k' n' todo' same
      rw [next] at same
      cases same
      rfl
    · rw [next]
      exact fun _ none => nomatch none
  · exact ⟨done ++ [k], h.store here next counters writes⟩
  · -- the key is written
    refine ⟨done, h.keep counters ?_ ?_ ?_ ?_⟩
    · rw [next, here]
      rfl
    · rw [next, here, writes, List.append_assoc]
      rfl
    · intro k' n' todo' same
      rw [next] at same
      cases same
    · rw [next]
      exact fun _ none => nomatch none

/-- What happens elsewhere does not concern a thread: its counters and the places of its keys
stay. -/
theorem Worker.frame {keys done : List K} {s' : State K} (h : Worker first keys s t done)
    (thread : s'.threads t = s.threads t) (counters : ∀ v ∈ keys, s'.counters v = s.counters v)
    (writes : ∀ v ∈ keys, placesOf v s'.writes = placesOf v s.writes) :
    Worker first keys s' t done where
  split := by
    rw [thread]
    exact h.split
  loaded := by
    intro k n todo hand
    rw [thread] at hand
    have member : k ∈ keys := by
      rw [h.split, hand]
      exact List.mem_append_right _ (List.mem_cons_self ..)
    rw [counters k member]
    exact h.loaded k n todo hand
  taken := by
    rw [thread]
    exact h.taken
  counter := by
    intro v listed
    rw [counters v listed]
    exact h.counter v listed
  written := by
    intro v listed
    rw [thread, placesOf_append, writes v listed, ← placesOf_append]
    exact h.written v listed

theorem Worker.other {keys more done done' : List K} {u : ℕ} (h : Worker first keys s t done)
    (h' : Worker first more s u done') (different : t ≠ u) (apart : keys.Disjoint more) :
    Worker first keys (s.step u) t done := by
  have same := s.step_other different
  have split := h'.split
  have taken := h'.taken
  rcases s.step_cases u with ⟨_, step⟩ | ⟨k, todo, _, _, counters, writes⟩ |
    ⟨k, n, todo, here, _, counters, writes⟩ | ⟨k, n, todo, here, _, counters, writes⟩
  · rw [step]
    exact h
  · refine h.frame same ?_ ?_
    · exact fun v _ => congrFun counters v
    · exact fun v _ => congrArg (placesOf v) writes
  · refine h.frame same ?_ ?_
    · intro v listed
      rw [here] at split
      have member : k ∈ more := by
        rw [split]
        exact List.mem_append_right _ (List.mem_cons_self ..)
      rw [counters]
      refine Function.update_of_ne ?_ ..
      rintro rfl
      exact apart listed member
    · exact fun v _ => congrArg (placesOf v) writes
  · refine h.frame same ?_ ?_
    · exact fun v _ => congrFun counters v
    · intro v listed
      rw [here] at taken
      have foreign : k ≠ v := by
        rintro rfl
        exact apart listed (taken (n, k) (List.mem_singleton_self _))
      rw [writes, placesOf_append, placesOf_singleton, if_neg foreign, List.append_nil]

structure Working (first : K → ℕ) (keys : ℕ → List K) (s : State K) : Prop where
  workers : ∀ t, ∃ done, Worker first (keys t) s t done
  written : ∀ w ∈ s.writes, ∃ t, w.2 ∈ keys t

variable {keys : ℕ → List K}

theorem Working.start (first : K → ℕ) (keys : ℕ → List K) :
    Working first keys (OwnedCounters.start first keys) where
  workers := fun t => ⟨[], .start first keys t⟩
  written := fun _ none => nomatch none

theorem Working.step (owned : Owned keys) (h : Working first keys s) (t : ℕ) :
    Working first keys (s.step t) where
  workers := by
    intro u
    obtain ⟨done, worker⟩ := h.workers u
    by_cases own : u = t
    · subst own
      exact worker.own
    · obtain ⟨done', worker'⟩ := h.workers t
      exact ⟨done, worker.other worker' own (owned u t own)⟩
  written := by
    intro w member
    rcases s.step_cases t with ⟨_, step⟩ | ⟨k, todo, _, _, _, writes⟩ |
      ⟨k, n, todo, _, _, _, writes⟩ | ⟨k, n, todo, here, _, _, writes⟩
    · rw [step] at member
      exact h.written w member
    · rw [writes] at member
      exact h.written w member
    · rw [writes] at member
      exact h.written w member
    · rw [writes] at member
      rcases List.mem_append.mp member with before | now
      · exact h.written w before
      · obtain ⟨_, worker⟩ := h.workers t
        refine ⟨t, worker.taken w ?_⟩
        rw [here]
        exact now

theorem Working.run (owned : Owned keys) (h : Working first keys s) (schedule : List ℕ) :
    Working first keys (s.run schedule) := by
  induction schedule generalizing s with
  | nil => exact h
  | cons t schedule ih => exact ih (h.step owned t)

def Finishes (keys : ℕ → List K) (schedule : List ℕ) : Prop :=
  ∀ t, 3 * (keys t).length ≤ schedule.count t

/-- In a run to the end each key gets the places below its counter, as many as there are of it,
and nothing else is written. -/
theorem places_of_run (owned : Owned keys) (first : K → ℕ) {schedule : List ℕ}
    (finishes : Finishes keys schedule) :
    (∀ t, ∀ v ∈ keys t, placesOf v ((start first keys).run schedule).writes =
        places (first v) ((keys t).count v)) ∧
      ∀ w ∈ ((start first keys).run schedule).writes, ∃ t, w.2 ∈ keys t := by
  have working := (Working.start first keys).run owned schedule
  refine ⟨fun t v member => ?_, working.written⟩
  obtain ⟨done, worker⟩ := working.workers t
  have steps := (start first keys).steps_run schedule t
  have ended : (((start first keys).run schedule).threads t).steps = 0 := by
    rw [steps]
    exact Nat.sub_eq_zero_of_le (finishes t)
  have split := worker.split
  have written := worker.written v member
  generalize ((start first keys).run schedule).threads t = thread at ended split written
  obtain ⟨todo, hand⟩ := thread
  cases hand with
  | free =>
      have none : todo = [] := List.length_eq_zero_iff.mp (by
        simp only [Thread.steps] at ended
        omega)
      subst none
      have all : keys t = done := split.trans (List.append_nil done)
      simp only [Thread.held, List.append_nil] at written
      rw [written, all]
  | loaded k n =>
      simp only [Thread.steps] at ended
      omega
  | taken k n =>
      simp only [Thread.steps] at ended
      omega

end Owned

end Baseliner.OwnedCounters
