import Mathlib.Data.List.Basic

/-! Runs of a deterministic step function over a list of events, and the two
induction rules used for them. `Along C` states that every step of a run meets
a condition on the state before the step and the event. Nothing here depends
on what the states and events are. -/

namespace Baseliner.GuardedRuns

variable {σ ε : Type*}

def run (step : σ → ε → σ) (s : σ) (es : List ε) : σ := es.foldl step s

@[simp] theorem run_nil (step : σ → ε → σ) (s : σ) : run step s [] = s := rfl

@[simp] theorem run_cons (step : σ → ε → σ) (s : σ) (e : ε) (es : List ε) :
    run step s (e :: es) = run step (step s e) es := rfl

theorem run_append (step : σ → ε → σ) (s : σ) (es fs : List ε) :
    run step s (es ++ fs) = run step (run step s es) fs := by
  simp [run, List.foldl_append]

/-- Every step of the run meets `C` in the state in which it is taken. -/
def Along (step : σ → ε → σ) (C : σ → ε → Prop) : σ → List ε → Prop
  | _, [] => True
  | s, e :: es => C s e ∧ Along step C (step s e) es

theorem along_append {step : σ → ε → σ} {C : σ → ε → Prop} {s : σ} {es fs : List ε} :
    Along step C s (es ++ fs) ↔ Along step C s es ∧ Along step C (run step s es) fs := by
  induction es generalizing s with
  | nil => simp [Along]
  | cons e es ih => simp [Along, ih, and_assoc]

theorem along_and {step : σ → ε → σ} {C D : σ → ε → Prop} {s : σ} {es : List ε}
    (first : Along step C s es) (second : Along step D s es) :
    Along step (fun s e => C s e ∧ D s e) s es := by
  induction es generalizing s with
  | nil => trivial
  | cons e es ih => exact ⟨⟨first.1, second.1⟩, ih first.2 second.2⟩

theorem run_of_along {step : σ → ε → σ} {C : σ → ε → Prop} {I : σ → Prop}
    (keep : ∀ s e, I s → C s e → I (step s e)) {s : σ} {es : List ε}
    (start : I s) (along : Along step C s es) : I (run step s es) := by
  induction es generalizing s with
  | nil => exact start
  | cons e es ih => exact ih (keep s e start along.1) along.2

/-- A property that follows from an invariant, where the steps that meet `C` are
those that keep the invariant and those after which the property still holds,
holds all along a run exactly when each of its steps meets `C`. -/
theorem reached_iff_along {step : σ → ε → σ} {V C : σ → ε → Prop} {I P : σ → Prop}
    (holds : ∀ s, I s → P s) (keep : ∀ s e, I s → V s e → C s e → I (step s e))
    (sound : ∀ s e, I s → V s e → P (step s e) → C s e) {s : σ} {es : List ε}
    (start : I s) (valid : Along step V s es) :
    (∀ pre, pre <+: es → P (run step s pre)) ↔ Along step C s es := by
  induction es generalizing s with
  | nil =>
      refine ⟨fun _ => trivial, fun _ pre cut => ?_⟩
      rw [List.prefix_nil.mp cut]
      exact holds s start
  | cons e es ih =>
      constructor
      · intro every
        have first : C s e :=
          sound s e start valid.1 (every [e] (List.prefix_append [e] es))
        refine ⟨first, (ih (keep s e start valid.1 first) valid.2).mp fun pre cut => ?_⟩
        exact every (e :: pre) (List.cons_prefix_cons.mpr ⟨rfl, cut⟩)
      · intro along pre cut
        cases pre with
        | nil => exact holds s start
        | cons d pre =>
            obtain ⟨rfl, rest⟩ := List.cons_prefix_cons.mp cut
            exact (ih (keep s d start valid.1 along.1) valid.2).mpr along.2 pre rest

theorem run_related {τ : Type*} {first : σ → ε → σ} {second : τ → ε → τ} {C : σ → ε → Prop}
    {R : σ → τ → Prop} (keep : ∀ s t e, R s t → C s e → R (first s e) (second t e))
    {s : σ} {t : τ} {es : List ε} (start : R s t) (along : Along first C s es) :
    R (run first s es) (run second t es) := by
  induction es generalizing s t with
  | nil => exact start
  | cons e es ih => exact ih (keep s t e start along.1) along.2

/-- The events of a run as they are given to a second system: what becomes of an event depends on
the state in which the first one takes it. -/
def translate {ι : Type*} (step : σ → ε → σ) (f : σ → ε → Option ι) : σ → List ε → List ι
  | _, [] => []
  | s, e :: es => (f s e).toList ++ translate step f (step s e) es

theorem run_translate {ι τ : Type*} (first : σ → ε → σ) (second : τ → ι → τ)
    (f : σ → ε → Option ι) (s : σ) (t : τ) (es : List ε) :
    run (fun p e => (first p.1 e, (f p.1 e).elim p.2 (second p.2))) (s, t) es =
      (run first s es, run second t (translate first f s es)) := by
  induction es generalizing s t with
  | nil => rfl
  | cons e es ih =>
      rw [run_cons, ih, translate, run_append, run_cons]
      cases f s e with
      | none => rfl
      | some e => rfl

theorem run_pair {τ : Type*} (first : σ → ε → σ) (second : τ → ε → τ) (s : σ) (t : τ)
    (es : List ε) :
    run (fun s e => (first s.1 e, second s.2 e)) (s, t) es = (run first s es, run second t es) := by
  induction es generalizing s t with
  | nil => rfl
  | cons e es ih => exact ih (first s e) (second t e)

theorem along_pair {τ : Type*} {first : σ → ε → σ} {second : σ × τ → ε → τ} {C : σ → ε → Prop}
    {s : σ} {t : τ} {es : List ε} :
    Along (fun p e => (first p.1 e, second p e)) (fun p e => C p.1 e) (s, t) es ↔
      Along first C s es := by
  induction es generalizing s t with
  | nil => exact Iff.rfl
  | cons e es ih => exact and_congr Iff.rfl ih

theorem along_of_forall {step : σ → ε → σ} {C : σ → ε → Prop} {es : List ε}
    (meets : ∀ e ∈ es, ∀ s, C s e) (s : σ) : Along step C s es := by
  induction es generalizing s with
  | nil => trivial
  | cons e es ih =>
    exact ⟨meets e List.mem_cons_self s,
      ih (fun f mem => meets f (List.mem_cons_of_mem e mem)) (step s e)⟩

theorem along_true {step : σ → ε → σ} (s : σ) (es : List ε) :
    Along step (fun _ _ => True) s es := along_of_forall (fun _ _ _ => trivial) s

theorem run_invariant {step : σ → ε → σ} {I : σ → Prop}
    (keep : ∀ s e, I s → I (step s e)) {s : σ} (start : I s) (es : List ε) :
    I (run step s es) := by
  induction es generalizing s with
  | nil => exact start
  | cons e es ih => exact ih (keep s e start)

theorem foldl_rel {step : σ → ε → σ} {R : σ → σ → Prop} (refl : ∀ s, R s s)
    (trans : ∀ {s t u}, R s t → R t u → R s u) (each : ∀ s e, R s (step s e))
    (s : σ) (es : List ε) : R s (es.foldl step s) := by
  induction es generalizing s with
  | nil => exact refl s
  | cons e es ih => exact trans (each s e) (ih (step s e))

theorem foldl_range {step : σ → ℕ → σ} {I : ℕ → σ → Prop} {s : σ} {n : ℕ} (start : I 0 s)
    (keep : ∀ k t, k < n → I k t → I (k + 1) (step t k)) : I n ((List.range n).foldl step s) := by
  induction n with
  | zero => exact start
  | succ n ih =>
      rw [List.range_succ, List.foldl_append]
      exact keep n _ (Nat.lt_succ_self n) (ih fun k t hk => keep k t (Nat.lt_succ_of_lt hk))

end Baseliner.GuardedRuns
