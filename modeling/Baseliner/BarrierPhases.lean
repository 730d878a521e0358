import Mathlib.Data.List.Count
import Mathlib.Logic.Function.Basic

/-! A team of threads between two barriers. Each thread has a list of steps on the shared
state, and a schedule says whose step comes next. A thread sees a part of the state: its own
steps are settled by that part, and the steps of the others leave it as it is. Then a
schedule that lets all threads finish leaves each thread what its steps make alone. -/

namespace Baseliner.BarrierPhases

variable {ι σ ε : Type*} [DecidableEq ι]

def runAlone (steps : List (σ → Except ε σ)) (s : σ) : Except ε σ :=
  steps.foldlM (fun s step => step s) s

/-- The thread that is named makes its next step; one that has finished waits. -/
def runSchedule : (ι → List (σ → Except ε σ)) → List ι → σ → Except ε σ
  | _, [], s => .ok s
  | prog, t :: rest, s =>
      match prog t with
      | [] => runSchedule prog rest s
      | step :: steps =>
          match step s with
          | .ok s => runSchedule (Function.update prog t steps) rest s
          | .error e => .error e

structure Complete (team : ι → Prop) (prog : ι → List (σ → Except ε σ)) (schedule : List ι) :
    Prop where
  members : ∀ t ∈ schedule, team t
  finish : ∀ t, team t → (prog t).length ≤ schedule.count t

section Alone

variable {steps more : List (σ → Except ε σ)} {s s' : σ}

@[simp] theorem runAlone_nil (s : σ) :
    runAlone ([] : List (σ → Except ε σ)) s = .ok s := rfl

theorem runAlone_cons_ok {step : σ → Except ε σ} {x : σ} (h : runAlone (step :: steps) s = .ok x) :
    ∃ s', step s = .ok s' ∧ runAlone steps s' = .ok x := by
  rw [runAlone, List.foldlM_cons] at h
  cases made : step s with
  | error e =>
      rw [made] at h
      cases h
  | ok s' =>
      rw [made] at h
      exact ⟨s', rfl, h⟩

theorem runAlone_append (first : runAlone steps s = .ok s') :
    runAlone (steps ++ more) s = runAlone more s' := by
  rw [runAlone] at first
  rw [runAlone, List.foldlM_append, first]
  rfl

end Alone

section Assertions

variable {team : ι → Prop} {prog : ι → List (σ → Except ε σ)} {schedule : List ι} {s : σ}

theorem Complete.tail {t : ι} {step : σ → Except ε σ} {steps : List (σ → Except ε σ)}
    (complete : Complete team prog (t :: schedule)) (next : prog t = step :: steps) :
    Complete team (Function.update prog t steps) schedule := by
  refine ⟨fun u hu => complete.members u (List.mem_cons_of_mem _ hu), fun u hu => ?_⟩
  have enough := complete.finish u hu
  by_cases same : u = t
  · subst same
    rw [next, List.length_cons, List.count_cons_self] at enough
    rw [Function.update_self]
    omega
  · rw [List.count_cons_of_ne (Ne.symm same)] at enough
    rwa [Function.update_of_ne same]

theorem Complete.wait {t : ι} (complete : Complete team prog (t :: schedule))
    (done : prog t = []) : Complete team prog schedule := by
  refine ⟨fun u hu => complete.members u (List.mem_cons_of_mem _ hu), fun u hu => ?_⟩
  have enough := complete.finish u hu
  by_cases same : u = t
  · subst same
    rw [done]
    exact Nat.zero_le _
  · rwa [List.count_cons_of_ne (Ne.symm same)] at enough

/-- Each thread has an assertion for the steps that it has left. A step of the thread goes
from one to the next and breaks no assertion of another thread. -/
theorem runSchedule_of_assertions {A : ι → List (σ → Except ε σ) → σ → Prop}
    (step : ∀ t, team t → ∀ first rest s, A t (first :: rest) s →
      ∃ s', first s = .ok s' ∧ A t rest s' ∧ ∀ u, team u → u ≠ t → ∀ left, A u left s → A u left s')
    (complete : Complete team prog schedule) (start : ∀ t, team t → A t (prog t) s) :
    ∃ s', runSchedule prog schedule s = .ok s' ∧ ∀ t, team t → A t [] s' := by
  induction schedule generalizing prog s with
  | nil =>
      refine ⟨s, rfl, fun t ht => ?_⟩
      have none : prog t = [] := List.length_eq_zero_iff.mp (Nat.le_zero.mp (complete.finish t ht))
      rw [← none]
      exact start t ht
  | cons t schedule ih =>
      have ht : team t := complete.members t (List.mem_cons_self ..)
      cases next : prog t with
      | nil =>
          rw [runSchedule, next]
          exact ih (complete.wait next) start
      | cons first rest =>
          have own := start t ht
          rw [next] at own
          obtain ⟨s', made, after, others⟩ := step t ht first rest s own
          simp only [runSchedule, next, made]
          refine ih (complete.tail next) fun u hu => ?_
          by_cases same : u = t
          · subst same
            rwa [Function.update_self]
          · rw [Function.update_of_ne same]
            exact others u hu same _ (start u hu)

end Assertions

/-- What each thread sees of the state: its own steps are settled by that, and the steps of
the others do not change it. -/
structure Views (team : ι → Prop) (prog : ι → List (σ → Except ε σ))
    (Sees : ι → σ → σ → Prop) : Prop where
  refl : ∀ t s, Sees t s s
  trans : ∀ t s s' s'', Sees t s s' → Sees t s' s'' → Sees t s s''
  inside : ∀ t, team t → ∀ step ∈ prog t, ∀ s s' x, Sees t s s' → step s = .ok x →
    ∃ x', step s' = .ok x' ∧ Sees t x x'
  outside : ∀ t u, team t → team u → u ≠ t → ∀ step ∈ prog u, ∀ s x, step s = .ok x → Sees t s x

theorem runSchedule_of_views {team : ι → Prop} {prog : ι → List (σ → Except ε σ)}
    {Sees : ι → σ → σ → Prop} {schedule : List ι} {s : σ} (views : Views team prog Sees)
    (complete : Complete team prog schedule) {last : ι → σ}
    (through : ∀ t, team t → runAlone (prog t) s = .ok (last t)) :
    ∃ s', runSchedule prog schedule s = .ok s' ∧ ∀ t, team t → Sees t (last t) s' := by
  -- the thread alone has come as far as the thread among the others
  let A (t : ι) (left : List (σ → Except ε σ)) (s : σ) : Prop :=
    (∀ step ∈ left, step ∈ prog t) ∧ ∃ alone, Sees t alone s ∧ runAlone left alone = .ok (last t)
  have step : ∀ t, team t → ∀ first rest s, A t (first :: rest) s →
      ∃ s', first s = .ok s' ∧ A t rest s' ∧
        ∀ u, team u → u ≠ t → ∀ left, A u left s → A u left s' := by
    rintro t ht first rest s ⟨among, alone, sees, run⟩
    have member : first ∈ prog t := among first (List.mem_cons_self ..)
    obtain ⟨x, made, left⟩ := runAlone_cons_ok run
    obtain ⟨s', made', after⟩ := views.inside t ht first member _ _ _ sees made
    refine ⟨s', made', ⟨fun other h => among other (List.mem_cons_of_mem _ h), x, after, left⟩, ?_⟩
    rintro u hu apart steps ⟨amongU, aloneU, seesU, runU⟩
    have unchanged := views.outside u t hu ht (Ne.symm apart) first member s s' made'
    exact ⟨amongU, aloneU, views.trans u _ _ _ seesU unchanged, runU⟩
  obtain ⟨s', run, each⟩ := runSchedule_of_assertions step complete
    (fun t ht => ⟨fun _ h => h, s, views.refl t s, through t ht⟩)
  refine ⟨s', run, fun t ht => ?_⟩
  obtain ⟨-, alone, sees, stop⟩ := each t ht
  rw [← Except.ok.inj stop]
  exact sees

end Baseliner.BarrierPhases
