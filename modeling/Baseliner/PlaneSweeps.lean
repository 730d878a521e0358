import Mathlib.Data.List.Induction
import Mathlib.Data.List.Nodup
import Mathlib.Logic.Function.Basic
import Mathlib.Tactic.TypeStar

/-! Sweeps through the planes of a grid. A cell is visited three times in its plane: its
coefficients are formed, it takes up the plane before its own, and it is finished from two
neighbours in its own plane. The coefficients of all planes share one array, as does the
scratch value that a cell keeps between its last two visits. -/

namespace Baseliner.PlaneSweeps

variable {ι C V : Type*}

inductive Stage
  | form | start | finish
  deriving DecidableEq

def Stage.number : Stage → ℕ
  | .form => 0
  | .start => 1
  | .finish => 2

structure Visit (ι : Type*) where
  stage : Stage
  plane : ℕ
  cell : ι
  deriving DecidableEq

/-- A sweep: which cells of which planes it visits, what a visit reads, and what it writes. The
rank of a visit falls along everything it reads. -/
structure Sweep (ι C V : Type*) where
  inside : ℕ → ι → Bool
  prev : ℕ → ℕ
  first : ι → ι
  second : ι → ι
  rank : ℕ → ι → ℕ
  coef : ℕ → ι → C
  start : C → V → V → V × V
  finish : C → V → V → V → V → V × V
  rank_prev : ∀ k c, inside k c → rank (prev k) c < rank k c
  rank_first : ∀ k c, inside k c → rank k (first c) < rank k c
  rank_second : ∀ k c, inside k c → rank k (second c) < rank k c
  rank_inj : ∀ k k' c, inside k c → inside k' c → rank k c = rank k' c → k = k'

@[ext] structure Memory (ι C V : Type*) where
  coef : ι → C
  scratch : ι → V
  v : ℕ → ι → V

namespace Sweep

variable [DecidableEq ι] (s : Sweep ι C V)

def store (m : Memory ι C V) (k : ℕ) (c : ι) (out : V × V) : Memory ι C V :=
  { m with
    v := Function.update m.v k (Function.update (m.v k) c out.1)
    scratch := Function.update m.scratch c out.2 }

def act (m : Memory ι C V) : Visit ι → Memory ι C V
  | ⟨.form, k, c⟩ => { m with coef := Function.update m.coef c (s.coef k c) }
  | ⟨.start, k, c⟩ => store m k c (s.start (m.coef c) (m.v k c) (m.v (s.prev k) c))
  | ⟨.finish, k, c⟩ => store m k c (s.finish (m.coef c) (m.v k c) (m.scratch c)
      (m.v k (s.first c)) (m.v k (s.second c)))

def run (m : Memory ι C V) (visits : List (Visit ι)) : Memory ι C V := visits.foldl s.act m

/-- The visits of one cell in the order of their planes and stages, and a neighbour in the plane
before the cell that is finished from it. -/
def Precedes (a b : Visit ι) : Prop :=
  (a.cell = b.cell ∧ (s.rank a.plane a.cell < s.rank b.plane b.cell ∨
    a.plane = b.plane ∧ a.stage.number < b.stage.number)) ∨
  (b.stage = .finish ∧ a.stage ≠ .form ∧ a.plane = b.plane ∧
    (a.cell = s.first b.cell ∨ a.cell = s.second b.cell))

/-- Every visit once, and none after one that it precedes. -/
structure Complete (visits : List (Visit ι)) : Prop where
  mem_iff : ∀ t : Visit ι, t ∈ visits ↔ s.inside t.plane t.cell
  once : visits.Nodup
  ordered : visits.Pairwise fun a b => ¬s.Precedes b a

/-- What a cell is left with, by what it was given and what its neighbours are left with. -/
def combine (k : ℕ) (c : ι) (own prev first second : V) : V :=
  let started := s.start (s.coef k c) own prev
  (s.finish (s.coef k c) started.1 started.2 first second).1

def result (v : ℕ → ι → V) (k : ℕ) (c : ι) : V :=
  if _h : s.inside k c then
    s.combine k c (v k c) (result v (s.prev k) c) (result v k (s.first c))
      (result v k (s.second c))
  else v k c
termination_by s.rank k c
decreasing_by
  · exact s.rank_prev k c _h
  · exact s.rank_first k c _h
  · exact s.rank_second k c _h

omit [DecidableEq ι] in
theorem result_outside (v : ℕ → ι → V) {k : ℕ} {c : ι} (h : ¬s.inside k c) :
    s.result v k c = v k c := by
  rw [result, dif_neg h]

omit [DecidableEq ι] in
theorem result_inside (v : ℕ → ι → V) {k : ℕ} {c : ι} (h : s.inside k c) :
    s.result v k c = s.combine k c (v k c) (s.result v (s.prev k) c)
      (s.result v k (s.first c)) (s.result v k (s.second c)) := by
  rw [result, dif_pos h]

omit [DecidableEq ι] in
theorem result_unique {v x : ℕ → ι → V} (outside : ∀ k c, ¬s.inside k c → x k c = v k c)
    (inside : ∀ k c, s.inside k c →
      x k c = s.combine k c (v k c) (x (s.prev k) c) (x k (s.first c)) (x k (s.second c))) :
    x = s.result v := by
  funext k c
  induction k, c using result.induct s with
  | case1 k c h prev first second =>
    rw [inside k c h, result_inside s v h, prev, first, second]
  | case2 k c h => rw [outside k c h, result_outside s v h]

section store

variable (m : Memory ι C V) (k : ℕ) (c : ι) (out : V × V)

theorem store_v_self : (store m k c out).v k c = out.1 :=
  (congrFun (Function.update_self k _ m.v) c).trans (Function.update_self ..)

theorem store_v_other {k' : ℕ} {c' : ι} (other : ¬(k' = k ∧ c' = c)) :
    (store m k c out).v k' c' = m.v k' c' := by
  by_cases same : k' = k
  · subst same
    exact (congrFun (Function.update_self k' _ m.v) c').trans
      (Function.update_of_ne (fun h => other ⟨rfl, h⟩) ..)
  · exact congrFun (Function.update_of_ne same ..) c'

theorem store_scratch_self : (store m k c out).scratch c = out.2 := Function.update_self ..

theorem store_scratch_other {c' : ι} (other : c' ≠ c) :
    (store m k c out).scratch c' = m.scratch c' := Function.update_of_ne other ..

end store

/-! ### Visits in a complete order -/

section order

variable {s} {done rest : List (Visit ι)} {a b : Visit ι}

omit [DecidableEq ι] in
theorem Complete.done_of_precedes (complete : s.Complete (done ++ b :: rest))
    (inside : s.inside a.plane a.cell) (ne : a ≠ b) (before : s.Precedes a b) : a ∈ done := by
  have mem := (complete.mem_iff a).mpr inside
  simp only [List.mem_append, List.mem_cons] at mem
  obtain h | h | h := mem
  · exact h
  · exact absurd h ne
  · have later := (List.pairwise_append.mp complete.ordered).2.1
    exact absurd before ((List.pairwise_cons.mp later).1 a h)

omit [DecidableEq ι] in
theorem Complete.not_done_of_precedes (complete : s.Complete (done ++ b :: rest))
    (after : s.Precedes b a) : a ∉ done := fun mem =>
  (List.pairwise_append.mp complete.ordered).2.2 a mem b List.mem_cons_self after

omit [DecidableEq ι] in
theorem Complete.not_done (complete : s.Complete (done ++ b :: rest)) : b ∉ done := fun mem =>
  (List.nodup_append.mp complete.once).2.2 b mem b List.mem_cons_self rfl

omit [DecidableEq ι] in
theorem Complete.inside_of_done (complete : s.Complete (done ++ b :: rest)) (mem : a ∈ done) :
    s.inside a.plane a.cell := (complete.mem_iff a).mp (List.mem_append_left _ mem)

omit [DecidableEq ι] in
theorem Complete.inside_next (complete : s.Complete (done ++ b :: rest)) :
    s.inside b.plane b.cell := (complete.mem_iff b).mp (by simp)

omit [DecidableEq ι] in
/-- When a cell is visited in one plane, its visits in another are over or have not begun. -/
theorem Complete.others_finished (complete : s.Complete (done ++ b :: rest)) {k : ℕ} {g : Stage}
    (ne : k ≠ b.plane) (mem : ⟨g, k, b.cell⟩ ∈ done) : ⟨.finish, k, b.cell⟩ ∈ done := by
  have inside : s.inside k b.cell := complete.inside_of_done mem
  obtain less | same | more := Nat.lt_trichotomy (s.rank k b.cell) (s.rank b.plane b.cell)
  · refine complete.done_of_precedes inside (fun h => ne (congrArg Visit.plane h)) ?_
    exact .inl ⟨rfl, .inl less⟩
  · exact absurd (s.rank_inj _ _ _ inside complete.inside_next same) ne
  · exact absurd mem (complete.not_done_of_precedes (.inl ⟨rfl, .inl more⟩))

end order

/-- What holds when the visits `done` of a complete order have been made. -/
structure Inv (start : Memory ι C V) (done : List (Visit ι)) (m : Memory ι C V) : Prop where
  finished : ∀ k c, ⟨.finish, k, c⟩ ∈ done → m.v k c = s.result start.v k c
  started : ∀ k c, ⟨.start, k, c⟩ ∈ done → ⟨.finish, k, c⟩ ∉ done →
    m.v k c = (s.start (s.coef k c) (start.v k c) (s.result start.v (s.prev k) c)).1 ∧
    m.scratch c = (s.start (s.coef k c) (start.v k c) (s.result start.v (s.prev k) c)).2
  fresh : ∀ k c, ⟨.start, k, c⟩ ∉ done → m.v k c = start.v k c
  formed : ∀ k c, ⟨.form, k, c⟩ ∈ done → ⟨.finish, k, c⟩ ∉ done → m.coef c = s.coef k c

variable {s} {start m : Memory ι C V} {done rest : List (Visit ι)} {k : ℕ} {c : ι}

omit [DecidableEq ι] in
theorem Inv.settled (inv : s.Inv start done m) {b : Visit ι}
    (complete : s.Complete (done ++ b :: rest))
    (finished : s.inside k c → ⟨.finish, k, c⟩ ∈ done) : m.v k c = s.result start.v k c := by
  by_cases inside : s.inside k c
  · exact inv.finished k c (finished inside)
  · rw [inv.fresh k c fun mem => inside (complete.inside_of_done mem),
      result_outside s _ inside]

theorem Inv.visit_form (inv : s.Inv start done m)
    (complete : s.Complete (done ++ ⟨.form, k, c⟩ :: rest)) :
    s.Inv start (done ++ [⟨.form, k, c⟩]) (s.act m ⟨.form, k, c⟩) where
  finished k' c' mem := inv.finished k' c' (by simpa using mem)
  started k' c' mem open_ := inv.started k' c' (by simpa using mem) (by simpa using open_)
  fresh k' c' new := inv.fresh k' c' (by simpa using new)
  formed k' c' mem open_ := by
    have still : ⟨.finish, k', c'⟩ ∉ done := by simpa using open_
    by_cases own : c' = c
    · subst own
      by_cases plane : k' = k
      · rw [plane]
        exact Function.update_self ..
      · have old : ⟨.form, k', c'⟩ ∈ done := by simpa [plane] using mem
        exact absurd (complete.others_finished plane old) still
    · have old : ⟨.form, k', c'⟩ ∈ done := by simpa [own] using mem
      exact (Function.update_of_ne own ..).trans (inv.formed k' c' old still)

theorem Inv.visit_start (inv : s.Inv start done m)
    (complete : s.Complete (done ++ ⟨.start, k, c⟩ :: rest)) :
    s.Inv start (done ++ [⟨.start, k, c⟩]) (s.act m ⟨.start, k, c⟩) := by
  have inside : s.inside k c := complete.inside_next
  have formed : ⟨.form, k, c⟩ ∈ done :=
    complete.done_of_precedes inside (by simp) (.inl ⟨rfl, .inr ⟨rfl, Nat.zero_lt_one⟩⟩)
  have open_ : ⟨.finish, k, c⟩ ∉ done :=
    complete.not_done_of_precedes (.inl ⟨rfl, .inr ⟨rfl, Nat.one_lt_two⟩⟩)
  have before : m.v (s.prev k) c = s.result start.v (s.prev k) c :=
    inv.settled complete fun h => complete.done_of_precedes h (by simp)
      (.inl ⟨rfl, .inl (s.rank_prev k c inside)⟩)
  have value : s.act m ⟨.start, k, c⟩ = store m k c
      (s.start (s.coef k c) (start.v k c) (s.result start.v (s.prev k) c)) := by
    rw [act, inv.formed k c formed open_, inv.fresh k c complete.not_done, before]
  rw [value]
  refine ⟨fun k' c' mem => ?_, fun k' c' mem still => ?_, fun k' c' new => ?_,
    fun k' c' mem still => inv.formed k' c' (by simpa using mem) (by simpa using still)⟩
  · have old : ⟨.finish, k', c'⟩ ∈ done := by simpa using mem
    rw [store_v_other m k c _ fun h => open_ (h.1 ▸ h.2 ▸ old)]
    exact inv.finished k' c' old
  · have pending : ⟨.finish, k', c'⟩ ∉ done := by simpa using still
    by_cases own : k' = k ∧ c' = c
    · obtain ⟨rfl, rfl⟩ := own
      exact ⟨store_v_self .., store_scratch_self ..⟩
    · have old : ⟨.start, k', c'⟩ ∈ done := by simpa [own] using mem
      have cell : c' ≠ c := by
        rintro rfl
        exact pending (complete.others_finished (fun h => own ⟨h, rfl⟩) old)
      rw [store_v_other m k c _ own, store_scratch_other m k c _ cell]
      exact inv.started k' c' old pending
  · have other : ¬(k' = k ∧ c' = c) := by
      rintro ⟨rfl, rfl⟩
      simp at new
    rw [store_v_other m k c _ other]
    exact inv.fresh k' c' (by simpa [other] using new)

theorem Inv.visit_finish (inv : s.Inv start done m)
    (complete : s.Complete (done ++ ⟨.finish, k, c⟩ :: rest)) :
    s.Inv start (done ++ [⟨.finish, k, c⟩]) (s.act m ⟨.finish, k, c⟩) := by
  have inside : s.inside k c := complete.inside_next
  have formed : ⟨.form, k, c⟩ ∈ done :=
    complete.done_of_precedes inside (by simp) (.inl ⟨rfl, .inr ⟨rfl, Nat.zero_lt_two⟩⟩)
  have started : ⟨.start, k, c⟩ ∈ done :=
    complete.done_of_precedes inside (by simp) (.inl ⟨rfl, .inr ⟨rfl, Nat.one_lt_two⟩⟩)
  have open_ : ⟨.finish, k, c⟩ ∉ done := complete.not_done
  have first : m.v k (s.first c) = s.result start.v k (s.first c) := by
    refine inv.settled complete fun h => complete.done_of_precedes h (fun same => ?_)
      (.inr ⟨rfl, by simp, rfl, .inl rfl⟩)
    have less := s.rank_first k c inside
    rw [show s.first c = c from congrArg Visit.cell same] at less
    exact Nat.lt_irrefl _ less
  have second : m.v k (s.second c) = s.result start.v k (s.second c) := by
    refine inv.settled complete fun h => complete.done_of_precedes h (fun same => ?_)
      (.inr ⟨rfl, by simp, rfl, .inr rfl⟩)
    have less := s.rank_second k c inside
    rw [show s.second c = c from congrArg Visit.cell same] at less
    exact Nat.lt_irrefl _ less
  obtain ⟨own, scratch⟩ := inv.started k c started open_
  obtain ⟨out, value, written⟩ : ∃ out, s.act m ⟨.finish, k, c⟩ = store m k c out ∧
      out.1 = s.result start.v k c := by
    refine ⟨_, rfl, ?_⟩
    rw [inv.formed k c formed open_, own, scratch, first, second, result_inside s _ inside]
    rfl
  rw [value]
  refine ⟨fun k' c' mem => ?_, fun k' c' mem still => ?_, fun k' c' new => ?_,
    fun k' c' mem still => inv.formed k' c' (by simpa using mem) fun h => still (by simp [h])⟩
  · by_cases same : k' = k ∧ c' = c
    · obtain ⟨rfl, rfl⟩ := same
      rw [store_v_self, written]
    · rw [store_v_other m k c _ same]
      exact inv.finished k' c' (by simpa [same] using mem)
  · have pending : ⟨.finish, k', c'⟩ ∉ done ∧ ¬(k' = k ∧ c' = c) := by simpa using still
    have old : ⟨.start, k', c'⟩ ∈ done := by simpa using mem
    have cell : c' ≠ c := by
      rintro rfl
      exact pending.1 (complete.others_finished (fun h => pending.2 ⟨h, rfl⟩) old)
    rw [store_v_other m k c _ pending.2, store_scratch_other m k c _ cell]
    exact inv.started k' c' old pending.1
  · have unstarted : ⟨.start, k', c'⟩ ∉ done := by simpa using new
    have other : ¬(k' = k ∧ c' = c) := by
      rintro ⟨rfl, rfl⟩
      exact unstarted started
    rw [store_v_other m k c _ other]
    exact inv.fresh k' c' unstarted

theorem inv_run (start : Memory ι C V) (complete : s.Complete (done ++ rest)) :
    s.Inv start done (s.run start done) := by
  induction done using List.reverseRecOn generalizing rest with
  | nil => exact ⟨by simp, by simp, fun _ _ _ => rfl, by simp⟩
  | append_singleton done b ih =>
    rw [List.append_assoc] at complete
    rw [run, List.foldl_append]
    obtain ⟨stage, k, c⟩ := b
    cases stage with
    | form => exact (ih complete).visit_form complete
    | start => exact (ih complete).visit_start complete
    | finish => exact (ih complete).visit_finish complete

theorem run_v (start : Memory ι C V) {visits : List (Visit ι)} (complete : s.Complete visits) :
    (s.run start visits).v = s.result start.v := by
  have inv : s.Inv start visits (s.run start visits) :=
    inv_run start (show s.Complete (visits ++ []) by simpa using complete)
  funext k c
  by_cases inside : s.inside k c
  · exact inv.finished k c ((complete.mem_iff _).mpr inside)
  · rw [inv.fresh k c fun mem => inside ((complete.mem_iff _).mp mem), result_outside s _ inside]

/-! ### Plane after plane -/

/-- The visits of one plane: all cells are formed, then started, then finished in an order of
its own. -/
def planeVisits (cells order : List ι) (k : ℕ) : List (Visit ι) :=
  cells.map (⟨.form, k, ·⟩) ++ (cells.map (⟨.start, k, ·⟩) ++ order.map (⟨.finish, k, ·⟩))

omit [DecidableEq ι] in
theorem mem_planeVisits {cells order : List ι} (perm : order.Perm cells) {k : ℕ} {t : Visit ι} :
    t ∈ planeVisits cells order k ↔ t.plane = k ∧ t.cell ∈ cells := by
  obtain ⟨stage, plane, cell⟩ := t
  cases stage <;> simp [planeVisits, perm.mem_iff, eq_comm, and_comm]

omit [DecidableEq ι] in
theorem nodup_planeVisits {cells order : List ι} (perm : order.Perm cells) (once : cells.Nodup)
    (k : ℕ) : (planeVisits cells order k).Nodup := by
  have image (g : Stage) {l : List ι} (h : l.Nodup) : (l.map (Visit.mk g k)).Nodup :=
    h.map fun _ _ same => congrArg Visit.cell same
  simp only [planeVisits, List.nodup_append, List.mem_append, List.mem_map]
  refine ⟨image _ once, ⟨image _ once, image _ (perm.nodup_iff.mpr once), ?_⟩, ?_⟩
  · rintro a ⟨c, -, rfl⟩ b ⟨c', -, rfl⟩ same
    cases congrArg Visit.stage same
  · rintro a ⟨c, -, rfl⟩ b (⟨c', -, rfl⟩ | ⟨c', -, rfl⟩) same <;> cases congrArg Visit.stage same

omit [DecidableEq ι] in
theorem ordered_planeVisits (s : Sweep ι C V) {cells order : List ι} (k : ℕ)
    (inside : ∀ c ∈ cells, s.inside k c) (perm : order.Perm cells)
    (ordered : order.Pairwise fun a b => b ≠ s.first a ∧ b ≠ s.second a) :
    (planeVisits cells order k).Pairwise fun a b => ¬s.Precedes b a := by
  have within (g : Stage) (ne : g ≠ .finish) (l : List ι) :
      (l.map (Visit.mk g k)).Pairwise fun a b => ¬s.Precedes b a := by
    refine List.pairwise_map.mpr (List.pairwise_of_forall_sublist fun _ => ?_)
    rintro (⟨same, less | ⟨-, less⟩⟩ | ⟨h, -⟩)
    · exact absurd (same ▸ less) (Nat.lt_irrefl _)
    · exact absurd less (Nat.lt_irrefl _)
    · exact ne h
  have across (g g' : Stage) (less : g.number < g'.number) (a b : ι) :
      ¬s.Precedes ⟨g', k, b⟩ ⟨g, k, a⟩ := by
    rintro (⟨same, rank | ⟨-, stage⟩⟩ | ⟨h, -⟩)
    · exact absurd (same ▸ rank) (Nat.lt_irrefl _)
    · exact Nat.lt_asymm less stage
    · cases g <;> cases g' <;> simp_all [Stage.number]
  rw [planeVisits, List.pairwise_append, List.pairwise_append]
  refine ⟨within _ (by simp) _, ⟨within _ (by simp) _, ?_, ?_⟩, ?_⟩
  · refine List.pairwise_map.mpr (ordered.imp_of_mem fun {a b} mem _ apart => ?_)
    have own : s.inside k a := inside a (perm.mem_iff.mp mem)
    rintro (⟨same, less | ⟨-, less⟩⟩ | ⟨-, -, -, h | h⟩)
    · exact absurd (same ▸ less) (Nat.lt_irrefl _)
    · exact absurd less (Nat.lt_irrefl _)
    · exact apart.1 h
    · exact apart.2 h
  · rintro a mem b mem'
    obtain ⟨c, -, rfl⟩ := List.mem_map.mp mem
    obtain ⟨c', -, rfl⟩ := List.mem_map.mp mem'
    exact across .start .finish (by decide) c c'
  · rintro a mem b mem'
    obtain ⟨c, -, rfl⟩ := List.mem_map.mp mem
    obtain mem' | mem' := List.mem_append.mp mem' <;> obtain ⟨c', -, rfl⟩ := List.mem_map.mp mem'
    · exact across .form .start (by decide) c c'
    · exact across .form .finish (by decide) c c'

omit [DecidableEq ι] in
/-- Planes in the order of their ranks, each with its cells in an order that finishes the
neighbours of a cell before it, are a complete order. -/
theorem complete_planes (s : Sweep ι C V) {planes : List ℕ} {cells order : List ι}
    (inside : ∀ k c, s.inside k c ↔ k ∈ planes ∧ c ∈ cells) (once : cells.Nodup)
    (ranked : planes.Pairwise fun k k' => ∀ c ∈ cells, s.rank k c < s.rank k' c)
    (oncePlane : planes.Nodup) (perm : order.Perm cells)
    (ordered : order.Pairwise fun a b => b ≠ s.first a ∧ b ≠ s.second a) :
    s.Complete (planes.flatMap (planeVisits cells order)) where
  mem_iff t := by
    rw [List.mem_flatMap, inside]
    simp only [mem_planeVisits perm]
    exact ⟨fun ⟨k, mem, plane, cell⟩ => ⟨plane ▸ mem, cell⟩, fun ⟨mem, cell⟩ => ⟨_, mem, rfl, cell⟩⟩
  once := by
    refine List.nodup_flatMap.mpr ⟨fun k _ => nodup_planeVisits perm once k,
      oncePlane.imp fun {k k'} ne t mem mem' => ne ?_⟩
    rw [← ((mem_planeVisits perm).mp mem).1, ((mem_planeVisits perm).mp mem').1]
  ordered := by
    refine List.pairwise_flatMap.mpr ⟨fun k mem => ordered_planeVisits s k
      (fun c cell => (inside k c).mpr ⟨mem, cell⟩) perm ordered,
      ranked.imp fun {k k'} less a mem b mem' => ?_⟩
    obtain ⟨rfl, cell⟩ := (mem_planeVisits perm).mp mem
    obtain ⟨rfl, cell'⟩ := (mem_planeVisits perm).mp mem'
    rintro (⟨same, rank | ⟨plane, -⟩⟩ | ⟨-, -, plane, -⟩)
    · exact Nat.lt_asymm (less a.cell cell) (same ▸ rank)
    · exact absurd (plane ▸ less a.cell cell) (Nat.lt_irrefl _)
    · exact absurd (plane ▸ less a.cell cell) (Nat.lt_irrefl _)

end Sweep
end Baseliner.PlaneSweeps
