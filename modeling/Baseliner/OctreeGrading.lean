import Baseliner.OctreePaths

/-! Grading of octrees. Two cells are neighbours where they meet in a face or in an edge: then the
cell of the size of the smaller one that lies across that face or edge is part of the larger one.
Cells are graded when neighbours differ by at most one level, and stay so when cells that have no
larger neighbour are cut into their children. -/

namespace Baseliner.OctreeGrading

open OctreePaths

/-- The cells of the same size across the faces and the edges of a cell. An edge is where two
faces meet. -/
inductive Around (p : Path) : Path → Prop
  | face (f : Face) {d : Path} (across : neighbor f p = some d) : Around p d
  | edge (f g : Face) {q d : Path} (other : g ≠ f) (meet : g ≠ opposite f)
      (first : neighbor f p = some q) (second : neighbor g q = some d) : Around p d

def Larger (p r : Path) : Prop := ∃ d, Around p d ∧ r <:+ d ∧ r.length < p.length

def Graded (cells : Path → Prop) : Prop :=
  ∀ p r, cells p → cells r → Larger p r → p.length ≤ r.length + 1

section Tables

/-- Some face at an edge of face `f` lies between a child on `f` and its siblings. -/
theorem exists_inner (f : Face) (c : Child) :
    ∃ g, g ≠ f ∧ g ≠ opposite f ∧ outer g c = false := by
  revert f c
  decide

variable {f g : Face} (other : g ≠ f) (meet : g ≠ opposite f)

include other meet

theorem outer_across_of_meet (c : Child) : outer f (across g c) = outer f c := by
  revert f g c
  decide

theorem exists_onFace_outer : ∃ k, outer f (onFace (opposite g) k) = true := by
  revert f g
  decide

end Tables

section Neighbors

variable {f : Face} {c : Child} {p q r d : Path}

theorem length_neighbor (h : neighbor f p = some q) : q.length = p.length := by
  induction p generalizing q with
  | nil => cases h
  | cons c p ih =>
      cases side : outer f c with
      | true =>
          rw [neighbor_cons_outer side, Option.map_eq_some_iff] at h
          obtain ⟨r, found, rfl⟩ := h
          rw [List.length_cons, List.length_cons, ih found]
      | false =>
          rw [neighbor_cons_inner side] at h
          cases h
          rfl

theorem Around.length_eq (h : Around p d) : d.length = p.length := by
  cases h with
  | face f across => exact length_neighbor across
  | edge f g other meet first second => exact (length_neighbor second).trans (length_neighbor first)

theorem neighbor_cons_cases (h : neighbor f (c :: p) = some d) :
    ∃ e q, d = e :: q ∧ (q = p ∨ neighbor f p = some q) := by
  cases side : outer f c with
  | true =>
      rw [neighbor_cons_outer side, Option.map_eq_some_iff] at h
      obtain ⟨q, found, rfl⟩ := h
      exact ⟨_, q, rfl, .inr found⟩
  | false =>
      rw [neighbor_cons_inner side] at h
      cases h
      exact ⟨_, p, rfl, .inl rfl⟩

theorem around_cons (h : Around (c :: p) d) : ∃ e q, d = e :: q ∧ (q = p ∨ Around p q) := by
  cases h with
  | face f across =>
      obtain ⟨e, q, rfl, same | found⟩ := neighbor_cons_cases across
      · exact ⟨e, q, rfl, .inl same⟩
      · exact ⟨e, q, rfl, .inr (.face f found)⟩
  | edge f g other meet first second =>
      obtain ⟨b, a, rfl, near⟩ := neighbor_cons_cases first
      obtain ⟨e, q, rfl, far⟩ := neighbor_cons_cases second
      refine ⟨e, q, rfl, ?_⟩
      rcases near with rfl | near
      · rcases far with same | far
        · exact .inl same
        · exact .inr (.face g far)
      · rcases far with rfl | far
        · exact .inr (.face f near)
        · exact .inr (.edge f g other meet near far)

theorem suffix_of_shorter (below : r <:+ c :: q) (shorter : r.length < (c :: q).length) :
    r <:+ q := by
  rcases List.suffix_cons_iff.mp below with same | inside
  · rw [same] at shorter
    exact (lt_irrefl _ shorter).elim
  · exact inside

end Neighbors

section Cut

variable (cells marked : Path → Prop)

/-- The cells behind the cut. -/
def cut (q : Path) : Prop := (∃ c p, q = c :: p ∧ cells p ∧ marked p) ∨ cells q ∧ ¬ marked q

variable {cells marked} {p q r : Path}

theorem exists_above (h : cut cells marked q) :
    ∃ p, cells p ∧ p <:+ q ∧ (p = q ∧ ¬ marked q ∨ marked p ∧ q.length = p.length + 1) := by
  rcases h with ⟨c, p, rfl, there, mark⟩ | ⟨there, stays⟩
  · exact ⟨p, there, List.suffix_cons c p, .inr ⟨mark, rfl⟩⟩
  · exact ⟨q, there, List.suffix_refl q, .inl ⟨rfl, stays⟩⟩

theorem Graded.cut (graded : Graded cells)
    (apart : ∀ p r, cells p → cells r → r <:+ p → r = p)
    (quiet : ∀ p r, cells p → marked p → cells r → ¬ Larger p r) :
    Graded (cut cells marked) := by
  rintro p r hp hr ⟨d, around, inside, shorter⟩
  obtain ⟨r', there, above, size⟩ := exists_above hr
  have grown : r'.length ≤ r.length := above.length_le
  rcases hp with ⟨c, p, rfl, here, mark⟩ | ⟨here, -⟩
  · obtain ⟨e, q, rfl, near⟩ := around_cons around
    have tall := around.length_eq
    rw [List.length_cons] at shorter ⊢
    have within : r <:+ q := suffix_of_shorter inside (by rw [tall]; exact shorter)
    rcases near with rfl | near
    · -- no part of the parent is larger than its children
      have same : r' = q := apart q r' here there (above.trans within)
      rcases size with ⟨kept, stays⟩ | ⟨-, longer⟩
      · rw [← kept, same] at stays
        exact (stays mark).elim
      · rw [same] at longer
        omega
    · have far : ¬ r'.length < p.length := fun short =>
        quiet p r' here mark there ⟨q, near, above.trans within, short⟩
      omega
  · have short : r'.length < p.length := grown.trans_lt shorter
    have before := graded p r' here there ⟨d, around, above.trans inside, short⟩
    omega

end Cut

end Baseliner.OctreeGrading
