import Baseliner.LuSweeps
import Baseliner.PipelinedSweeps

/-! The two sweeps as a team of threads makes them. The rows of a plane are shared out to the
threads, and a thread enters a plane only when the thread with the rows before its own has left
it. -/

namespace Baseliner.LuPipeline
open HandshakePipeline PlaneSweeps LuSweeps

/-- A loop of `n` iterations under a static schedule: each thread has at most one chunk, and the
chunks go to the threads from the first one on. -/
structure StaticSchedule (n threads : ℕ) where
  thread : ℕ → ℕ
  lt : ∀ i < n, thread i < threads
  le : ∀ i < n, thread i ≤ i
  mono : ∀ i j, i ≤ j → j < n → thread i ≤ thread j

def StaticSchedule.chunks (n threads : ℕ) (pos : 0 < threads) : StaticSchedule n threads where
  thread i := i / ((n + threads - 1) / threads)
  lt i hi := by
    have size : n ≤ (n + threads - 1) / threads * threads := by
      have := Nat.lt_div_mul_add pos (a := n + threads - 1)
      omega
    refine Nat.div_lt_of_lt_mul (lt_of_lt_of_le hi ?_)
    rwa [Nat.mul_comm] at size ⊢
  le i _ := Nat.div_le_self ..
  mono _ _ le _ := Nat.div_le_div_right le

section ssor

variable (g : Domain) {threads : ℕ} (sched : StaticSchedule (g.ny - 2) threads)

def mthreadnum (g : Domain) (threads : ℕ) : ℕ := min (threads - 1) (g.ny - 1 - 2)

/-- Every thread that takes part clears its flag before the first sweep. -/
def cleared (g : Domain) (threads : ℕ) (isync : ℕ → Bool) : ℕ → Bool :=
  fun iam => if iam ≤ mthreadnum g threads then false else isync iam

def lowerPipeline : Pipeline (Visit (ℕ × ℕ)) :=
  PipelinedSweeps.pipeline g.cells (2 + ·) (g.nz - 2) (threads - 1) (mthreadnum g threads)
    fun c => sched.thread (c.2 - 2)

def upperPipeline : Pipeline (Visit (ℕ × ℕ)) :=
  PipelinedSweeps.pipeline g.cells.reverse (g.nz - 1 - ·) (g.nz - 2) (threads - 1)
    (mthreadnum g threads) fun c => sched.thread (g.ny - 1 - c.2)

def afterLower (isync : ℕ → Bool) (schedule : List ℕ) : State (Visit (ℕ × ℕ)) :=
  (lowerPipeline g sched).run ((lowerPipeline g sched).init (cleared g threads isync)) schedule

/-- The team after the steps of both sweeps. The second one begins with the flags as the first
one left them. -/
def afterUpper (isync : ℕ → Bool) (schedule schedule' : List ℕ) : State (Visit (ℕ × ℕ)) :=
  (upperPipeline g sched).run
    ((upperPipeline g sched).init (afterLower g sched isync schedule).isync) schedule'

end ssor

variable {F : Type*} [Field F] {g : Domain} {threads : ℕ}
  {sched : StaticSchedule (g.ny - 2) threads}

theorem whole_lower : (lowerPipeline g sched).whole = lowerOrder g := by
  have planes : g.planes = (List.range' 0 (g.nz - 2)).map (2 + ·) :=
    (List.map_add_range' 0 (g.nz - 2) 1).symm
  rw [lowerOrder, planes, List.flatMap_map]
  rfl

theorem whole_upper : (upperPipeline g sched).whole = upperOrder g := by
  have planes : g.planes.reverse = (List.range' 0 (g.nz - 2)).map (g.nz - 1 - ·) := by
    rw [Domain.planes, List.reverse_range', List.range_eq_range']
    refine List.map_congr_left fun p mem => ?_
    have := (List.mem_range'_1.mp mem).2
    omega
  rw [upperOrder, planes, List.flatMap_map]
  rfl

theorem thread_le {i : ℕ} (row : i < g.ny - 2) : sched.thread i ≤ mthreadnum g threads := by
  have := sched.lt i row
  have := sched.le i row
  rw [mthreadnum]
  omega

theorem mthreadnum_le (g : Domain) (threads : ℕ) : mthreadnum g threads ≤ threads - 1 :=
  min_le_left ..

theorem laws_lower (omega : F) (jac : ℕ → ℕ × ℕ → Coefs F) :
    (lowerPipeline g sched).Laws (lower g omega jac).Precedes := by
  refine PipelinedSweeps.laws _ (whole_lower ▸ complete_lower g omega jac)
    (mthreadnum_le g threads) (fun c mem => ?_) (fun c mem _ => ?_) fun c _ _ => le_rfl
  · have := g.mem_cells.mp mem
    exact thread_le (by omega)
  · have := g.mem_cells.mp mem
    exact sched.mono _ _ (Nat.sub_le_sub_right (Nat.sub_le ..) _) (by omega)

theorem laws_upper (omega : F) (jac : ℕ → ℕ × ℕ → Coefs F) :
    (upperPipeline g sched).Laws (upper g omega jac).Precedes := by
  refine PipelinedSweeps.laws _ (whole_upper ▸ complete_upper g omega jac)
    (mthreadnum_le g threads) (fun c mem => ?_) (fun c mem _ => ?_) fun c _ _ => le_rfl
  · have := g.mem_cells.mp (List.mem_reverse.mp mem)
    exact thread_le (by omega)
  · have := g.mem_cells.mp (List.mem_reverse.mp mem)
    exact sched.mono _ _ (Nat.sub_le_sub_left (Nat.le_succ _) _) (by omega)

theorem cleared_down (g : Domain) (threads : ℕ) (isync : ℕ → Bool) :
    ∀ t < mthreadnum g threads, cleared g threads isync t = false :=
  fun _ lt => if_pos lt.le

/-- A team of any size, with any sharing out of the rows, changes the grid in one relaxation as
the two sweeps one visit after another do, whatever the order in which the threads come to their
steps. -/
theorem relax_pipelined (g : Domain) (threads : ℕ) (sched : StaticSchedule (g.ny - 2) threads)
    (omega : F) (jacld jacu : ℕ → ℕ × ℕ → Coefs F) (isync : ℕ → Bool) (schedule schedule' : List ℕ)
    (finished : (lowerPipeline g sched).Finished (afterLower g sched isync schedule))
    (finished' : (upperPipeline g sched).Finished (afterUpper g sched isync schedule schedule'))
    (m : Memory (ℕ × ℕ) (Coefs F) (Vec F)) (blocks : ℕ × ℕ → Coefs F) (tv : ℕ × ℕ → Vec F) :
    relax g omega jacld jacu (afterLower g sched isync schedule).done
        (afterUpper g sched isync schedule schedule').done m blocks tv =
      relax g omega jacld jacu (lowerOrder g) (upperOrder g) m blocks tv := by
  have down := Pipeline.down_of_finished (mthreadnum_le g threads) (cleared_down g threads isync)
    finished
  have complete := PipelinedSweeps.complete_done _ (whole_lower ▸ complete_lower g omega jacld)
    (laws_lower omega jacld) (cleared_down g threads isync) finished
  have complete' := PipelinedSweeps.complete_done _ (whole_upper ▸ complete_upper g omega jacu)
    (laws_upper omega jacu) down finished'
  rw [relax_eq (complete_lower g omega jacld) (complete_upper g omega jacu)]
  exact relax_eq complete complete' m blocks tv

/-- The sweeps do not hang: when every thread of the team has its turn again and again, both come
to their end. -/
theorem sweeps_finish (g : Domain) (threads : ℕ) (pos : 0 < threads)
    (sched : StaticSchedule (g.ny - 2) threads) (isync : ℕ → Bool) (rounds rounds' : List (List ℕ))
    (turns : ∀ round ∈ rounds ++ rounds', ∀ t, t ∈ round ↔ t < threads)
    (enough : 6 * (g.nz - 2) * threads + (lowerOrder g).length ≤ rounds.length)
    (enough' : 6 * (g.nz - 2) * threads + (upperOrder g).length ≤ rounds'.length) :
    (lowerPipeline g sched).Finished (afterLower g sched isync rounds.flatten) ∧
      (upperPipeline g sched).Finished
        (afterUpper g sched isync rounds.flatten rounds'.flatten) := by
  have team (t : ℕ) : t < threads ↔ t ≤ threads - 1 := by omega
  have size : threads - 1 + 1 = threads := Nat.sub_add_cancel pos
  have flags := Pipeline.flags_init (P := lowerPipeline g sched) (cleared_down g threads isync)
  have first : (lowerPipeline g sched).Finished (afterLower g sched isync rounds.flatten) := by
    refine Pipeline.finished_rounds flags (mthreadnum_le g threads) (fun round mem t => ?_) ?_
    · exact (turns round (List.mem_append_left _ mem) t).trans (team t)
    · refine (Pipeline.total_init_le _ _).trans ?_
      rw [whole_lower]
      exact size.symm ▸ enough
  have down := Pipeline.down_of_finished (mthreadnum_le g threads) (cleared_down g threads isync)
    first
  have flags' := Pipeline.flags_init (P := upperPipeline g sched) down
  refine ⟨first, Pipeline.finished_rounds flags' (mthreadnum_le g threads)
    (fun round mem t => ?_) ?_⟩
  · exact (turns round (List.mem_append_right _ mem) t).trans (team t)
  · refine (Pipeline.total_init_le _ _).trans ?_
    rw [whole_upper]
    exact size.symm ▸ enough'

theorem relax_pipelined_sample :
    let m : Memory (ℕ × ℕ) (Coefs ℚ) (Vec ℚ) := ⟨sample 0, fun _ => 0, fun k _ _ => k⟩
    relax ⟨4, 4, 4⟩ (6/5) sample sample
        (afterLower ⟨4, 4, 4⟩ (.chunks 2 2 (by decide)) (fun _ => true)
          (List.replicate 30 [1, 0]).flatten).done
        (afterUpper ⟨4, 4, 4⟩ (.chunks 2 2 (by decide)) (fun _ => true)
          (List.replicate 30 [1, 0]).flatten (List.replicate 30 [0, 1]).flatten).done
        m (sample 0) (fun _ => 0) =
      relax ⟨4, 4, 4⟩ (6/5) sample sample (lowerOrder ⟨4, 4, 4⟩) (upperOrder ⟨4, 4, 4⟩)
        m (sample 0) (fun _ => 0) :=
  relax_pipelined ⟨4, 4, 4⟩ 2 (.chunks 2 2 (by decide)) (6/5) sample sample (fun _ => true)
    (List.replicate 30 [1, 0]).flatten (List.replicate 30 [0, 1]).flatten
    (by decide +kernel) (by decide +kernel) _ _ _

theorem sweeps_finish_sample :
    let rounds := List.replicate 48 [1, 0]
    (lowerPipeline ⟨4, 4, 4⟩ (.chunks 2 2 (by decide))).Finished
        (afterLower ⟨4, 4, 4⟩ (.chunks 2 2 (by decide)) (fun _ => true) rounds.flatten) ∧
      (upperPipeline ⟨4, 4, 4⟩ (.chunks 2 2 (by decide))).Finished
        (afterUpper ⟨4, 4, 4⟩ (.chunks 2 2 (by decide)) (fun _ => true) rounds.flatten
          rounds.flatten) :=
  sweeps_finish ⟨4, 4, 4⟩ 2 (by decide) (.chunks 2 2 (by decide)) (fun _ => true)
    (List.replicate 48 [1, 0]) (List.replicate 48 [1, 0])
    (fun round mem t => by
      obtain rfl : round = [1, 0] := by simpa using mem
      simp
      omega)
    (by decide) (by decide)

end Baseliner.LuPipeline
