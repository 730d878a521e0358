import Baseliner.HandshakePipeline
import Baseliner.PlaneSweeps

/-! A sweep through the planes of a grid, shared out by cells to threads in a row: a thread forms
its cells of a plane, waits for its left neighbour, starts and finishes them. -/

namespace Baseliner.PipelinedSweeps
open HandshakePipeline PlaneSweeps

variable {ι C V : Type*}

def pipeline (cells : List ι) (plane : ℕ → ℕ) (planes team last : ℕ) (owner : ι → ℕ) :
    Pipeline (Visit ι) where
  planes := planes
  team := team
  last := last
  early p := cells.map (⟨.form, plane p, ·⟩)
  late p := cells.map (⟨.start, plane p, ·⟩) ++ cells.map (⟨.finish, plane p, ·⟩)
  owner a := owner a.cell

variable (s : Sweep ι C V) {cells : List ι} {plane : ℕ → ℕ} {planes team last : ℕ} {owner : ι → ℕ}

theorem mem_segment {p : ℕ} {a : Visit ι} :
    a ∈ (pipeline cells plane planes team last owner).segment p ↔
      a.plane = plane p ∧ a.cell ∈ cells := Sweep.mem_planeVisits (List.Perm.refl _)

/-- It is enough that a cell's neighbours never belong to a thread further right. -/
theorem laws (complete : s.Complete (pipeline cells plane planes team last owner).whole)
    (last_le : last ≤ team) (owner_le : ∀ c ∈ cells, owner c ≤ last)
    (first : ∀ c ∈ cells, s.first c ∈ cells → owner (s.first c) ≤ owner c)
    (second : ∀ c ∈ cells, s.second c ∈ cells → owner (s.second c) ≤ owner c) :
    (pipeline cells plane planes team last owner).Laws s.Precedes where
  last_le := last_le
  owner_le a mem := by
    obtain ⟨p, -, mem⟩ := List.mem_flatMap.mp mem
    exact owner_le _ (mem_segment.mp mem).2
  once := complete.once
  ordered := complete.ordered
  cross a mem b mem' before ne := by
    obtain ⟨p, -, mem⟩ := List.mem_flatMap.mp mem
    obtain ⟨q, range, mem'⟩ := List.mem_flatMap.mp mem'
    have cell := (mem_segment.mp mem).2
    obtain ⟨plane_eq, cell'⟩ := mem_segment.mp mem'
    obtain ⟨same, -⟩ | ⟨stage, -, same, neighbour⟩ := before
    · exact absurd (congrArg owner same) ne
    have le : owner a.cell ≤ owner b.cell := by
      obtain h | h := neighbour
      · exact h ▸ first _ cell' (h ▸ cell)
      · exact h ▸ second _ cell' (h ▸ cell)
    refine ⟨lt_of_le_of_ne le ne, q, ?_, mem_segment.mpr ⟨same.trans plane_eq, cell⟩, ?_⟩
    · exact (List.mem_range'_1.mp range).2.trans_eq (Nat.zero_add _)
    · obtain early | late := List.mem_append.mp mem'
      · obtain ⟨c, -, rfl⟩ := List.mem_map.mp early
        cases stage
      · exact late

/-- Whatever the order in which the threads come to their steps, once all are through the sweep
has been made. -/
theorem complete_done {P : Pipeline (Visit ι)} (complete : s.Complete P.whole)
    (laws : P.Laws s.Precedes) {isync : ℕ → Bool} (down : ∀ t < P.last, isync t = false)
    {schedule : List ℕ} (finished : P.Finished (P.run (P.init isync) schedule)) :
    s.Complete (P.run (P.init isync) schedule).done := by
  obtain ⟨perm, ordered⟩ := Pipeline.run_init laws down finished
  exact ⟨fun a => perm.mem_iff.trans (complete.mem_iff a), perm.nodup_iff.mpr complete.once,
    ordered⟩

end Baseliner.PipelinedSweeps
