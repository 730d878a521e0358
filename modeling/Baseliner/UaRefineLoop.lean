import Baseliner.UaAdaptation
import Baseliner.UaCheckRefine

/-! The loop of `adaptation` that repeats `check_refine` before `do_refine`. Each pass that asks for
another one has handed marks from elements to larger ones, so the loop ends; it ends with marks on
elements that have no larger neighbour, and `do_refine` then keeps neighbours within one level. -/

namespace Baseliner.UaRefineLoop

open OctreeGrading OctreePaths RepeatedSweeps UaAdapt UaAdaptation UaCheckRefine UaLeaves UaRefine
  UaRefinePass

/-- The leaves and face tables of a mesh in which neighbours, across a face or an edge, differ by
at most one level. -/
structure Restricted (m : Mesh) (l : Leaves) : Prop where
  mesh : IsMesh l
  order : (List.range' 1 m.nelt).map m.mtToId = l.map Prod.fst
  faces : ∀ x ∈ l, ∀ f, FaceOk l x.2 f (m.face x.1 f)
  known : ∀ x ∈ l, 1 ≤ x.1 ∧ x.1 ≤ m.nelt
  graded : Graded fun p => ∃ n, (n, p) ∈ l

section Loop

def levels (l : Leaves) (ich : ℕ → ℕ) : Multiset ℕ :=
  ranks (fun x : ℕ × Path => x.2.length) l fun x => ich x.1 = 4

structure Progress (l : Leaves) (t s : Check) : Prop where
  repeats : t.ifrepeat = true
  lower : (levels l t.ich).IsDershowitzMannaLT (levels l s.ich)
  heir : ∃ y ∈ l, t.ich y.1 = 4

/-- The checks before a refinement, each with an order of its own. -/
def refineLoop {C : Type*} [BEq C] (v : Corners C) (m : Mesh) (orders : ℕ → List ℕ) : ℕ → Check :=
  repeated Check.ifrepeat (fun k s => checkRefine v m.face (orders k) s.ich) ⟨m.ich, true⟩

def checked {C : Type*} [BEq C] (v : Corners C) (m : Mesh) (orders : ℕ → List ℕ) (n : ℕ) : Mesh :=
  { m with ich := (refineLoop v m orders n).ich }

variable {C : Type*} [BEq C] (v : Corners C) {m : Mesh} {l : Leaves} (given : Restricted m l)

include given

theorem Restricted.withMarks (ich : ℕ → ℕ) : Restricted { m with ich := ich } l :=
  ⟨given.mesh, given.order, given.faces, given.known, given.graded⟩

theorem Restricted.live (e : ℕ) : (∃ p, (e, p) ∈ l) ↔ 1 ≤ e ∧ e ≤ m.nelt := by
  have lengths := congrArg List.length given.order
  rw [List.length_map, List.length_map, List.length_range'] at lengths
  exact live_of_count given.mesh.ids lengths.symm given.known e

theorem checkElement_progress {x : ℕ × Path} (hx : x ∈ l) (s : Check) :
    checkElement v m.face s x.1 = s ∧ ¬ (s.ich x.1 = 4 ∧ Blocked l x.2) ∨
      Progress l (checkElement v m.face s x.1) s := by
  rcases checkElement_cases v given.mesh given.faces hx s with rests | ⟨marked, passed, yielded⟩
  · exact .inl rests
  · generalize checkElement v m.face s x.1 = t at passed yielded ⊢
    obtain ⟨y, hy, -, heir⟩ := yielded.heir
    have handed : HandsDown (fun x : ℕ × Path => x.2.length) (l : Multiset (ℕ × Path))
        (fun x => s.ich x.1 = 4) (fun x => t.ich x.1 = 4) x :=
      ⟨hx, marked, yielded.off, passed.lower⟩
    exact .inr ⟨yielded.repeats, handed.ranks_lt, y, hy, heir⟩

variable {orders : ℕ → List ℕ} (all : ∀ k, (orders k).Perm (List.range' 1 m.nelt))

include all

theorem mem_orders {e : ℕ} (k : ℕ) : e ∈ orders k ↔ ∃ p, (e, p) ∈ l := by
  rw [(all k).mem_iff, List.mem_range'_1, given.live e]
  omega

theorem checkRefine_cases (k : ℕ) (ich : ℕ → ℕ) :
    checkRefine v m.face (orders k) ich = ⟨ich, false⟩ ∧
        (∀ x ∈ l, ich x.1 = 4 → ¬ Blocked l x.2) ∨
      Progress l (checkRefine v m.face (orders k) ich) ⟨ich, false⟩ := by
  have trans (r s t : Check) (second : Progress l t s) (first : Progress l s r) : Progress l t r :=
    ⟨second.repeats, second.lower.trans first.lower, second.heir⟩
  have each : ∀ e ∈ orders k, ∀ s, checkElement v m.face s e = s ∧
      (∀ p, (e, p) ∈ l → ¬ (s.ich e = 4 ∧ Blocked l p)) ∨
        Progress l (checkElement v m.face s e) s := by
    intro e member s
    obtain ⟨p, hp⟩ := (mem_orders given all k).mp member
    rcases checkElement_progress v given hp s with ⟨rests, fine⟩ | progress
    · refine .inl ⟨rests, fun q hq => ?_⟩
      rw [given.mesh.eq_of_id hq hp]
      exact fine
    · exact .inr progress
  rcases foldl_rests_or_drops trans each ⟨ich, false⟩ with ⟨rests, fine⟩ | progress
  · refine .inl ⟨rests, fun x hx marked blocked => ?_⟩
    exact fine x.1 ((mem_orders given all k).mpr ⟨x.2, hx⟩) x.2 hx ⟨marked, blocked⟩
  · exact .inr progress

theorem refineLoop_ends : ∃ n, (refineLoop v m orders n).ifrepeat = false := by
  refine repeated_ends (InvImage.wf (fun s : Check => levels l s.ich)
    Multiset.wellFounded_isDershowitzMannaLT) fun k s more => ?_
  rcases checkRefine_cases v given all k s.ich with ⟨rests, -⟩ | progress
  · rw [rests] at more
    cases more
  · exact progress.lower

theorem refineLoop_quiet {n : ℕ} (ended : (refineLoop v m orders n).ifrepeat = false) :
    ∀ x ∈ l, (refineLoop v m orders n).ich x.1 = 4 → ¬ Blocked l x.2 := by
  obtain ⟨k, s, last, stop⟩ := repeated_last rfl ended
  rcases checkRefine_cases v given all k s.ich with ⟨rests, quiet⟩ | progress
  · have same : (refineLoop v m orders n).ich = s.ich := by
      rw [refineLoop, ← last, rests]
    rw [same]
    exact quiet
  · rw [progress.repeats] at stop
    cases stop

theorem refineLoop_marked (some_ : ∃ x ∈ l, m.ich x.1 = 4) (n : ℕ) :
    ∃ x ∈ l, (refineLoop v m orders n).ich x.1 = 4 := by
  refine repeated_induct (P := fun s : Check => ∃ x ∈ l, s.ich x.1 = 4) some_ ?_ n
  intro k s marked
  rcases checkRefine_cases v given all k s.ich with ⟨rests, -⟩ | progress
  · rw [rests]
    exact marked
  · exact progress.heir

end Loop

section Refine

theorem doRefine_tables (m : Mesh) (tree : ℕ → ℕ) :
    ∃ tree', doRefine { m with tree := tree } = { doRefine m with tree := tree' } := by
  have turns (plan : RefinePlan) (places : List ℕ) (s : Mesh) (tree : ℕ → ℕ) :
      ∃ tree', places.foldl (refineOne plan) { s with tree := tree } =
        { places.foldl (refineOne plan) s with tree := tree' } := by
    induction places generalizing s tree with
    | nil => exact ⟨tree, rfl⟩
    | cons place places ih => exact ih (refineOne plan s place) _
  obtain ⟨tree', same⟩ := turns (refinePlan m) (List.range' 1 ((refinePlan m).front m.nelt))
    { m with mtToId := placed m } tree
  exact ⟨tree', congrArg
    (fun s : Mesh => { s with nelt := m.nelt + (refinePlan m).front m.nelt * 7 }) same⟩

variable {m : Mesh} {l : Leaves} (given : Restricted m l)

include given

theorem Restricted.coded : ∃ tree, Mapped { m with tree := tree } l := by
  classical
  refine ⟨fun e => if there : ∃ p, (e, p) ∈ l then code there.choose else 0,
    given.mesh, given.order, fun x hx => ?_, given.faces⟩
  have there : ∃ p, (x.1, p) ∈ l := ⟨x.2, hx⟩
  have path : there.choose = x.2 := given.mesh.eq_of_id there.choose_spec hx
  simp only [dif_pos there, path]

variable (quiet : ∀ x ∈ l, m.ich x.1 = 4 → ¬ Blocked l x.2)

include quiet

theorem quiet_faces {x : ℕ × Path} (hx : x ∈ l) (marked : m.ich x.1 = 4) (f : Face) :
    (m.face x.1 f).cbc ≠ 1 := by
  intro one
  obtain ⟨k, q, r, -, -, there, -, larger⟩ := larger_of_one given.faces hx one
  exact quiet x hx marked ⟨_, there, larger⟩

theorem refined_restricted : Restricted (doRefine m) (refinedLeaves m l) := by
  obtain ⟨tree, mapped⟩ := given.coded
  obtain ⟨tree', tables⟩ := doRefine_tables m tree
  have allowed : ∀ x ∈ l, m.ich x.1 = 4 → ∀ f, (m.face x.1 f).cbc ≠ 1 :=
    fun x hx marked f => quiet_faces given quiet hx marked f
  have octree := refined_octree mapped
  have ids := refined_ids mapped given.known allowed
  have order := refined_order mapped
  have faces := refined_faces mapped given.known allowed
  have known := refined_known mapped given.known
  rw [tables] at order faces known
  refine ⟨⟨octree, ids⟩, order, faces, known, ?_⟩
  have cells : (fun q => ∃ n, (n, q) ∈ refinedLeaves m l) =
      cut (fun p => ∃ n, (n, p) ∈ l) fun p => ∃ n, (n, p) ∈ l ∧ m.ich n = 4 := by
    funext q
    refine propext ⟨?_, ?_⟩
    · rintro ⟨n, member⟩
      rcases mem_newLeaves.mp member with ⟨x, hx, marked, c, same⟩ | ⟨there, stays⟩
      · exact .inl ⟨c, x.2, (Prod.mk.inj same).2, ⟨x.1, hx⟩, x.1, hx, marked⟩
      · refine .inr ⟨⟨n, there⟩, ?_⟩
        rintro ⟨n', there', marked⟩
        rw [given.mesh.eq_of_path there' there] at marked
        exact stays marked
    · rintro (⟨c, p, rfl, -, n, there, marked⟩ | ⟨⟨n, there⟩, stays⟩)
      · exact ⟨_, kid_mem there marked c⟩
      · exact ⟨n, stays_mem there fun marked => stays ⟨n, there, marked⟩⟩
  rw [cells]
  refine given.graded.cut ?_ ?_
  · rintro p r ⟨n, hp⟩ ⟨e, hr⟩ inside
    exact (Prod.mk.inj (given.mesh.eq_of_suffix hr hp inside)).2
  · rintro p r - ⟨n, hp, marked⟩ ⟨e, hr⟩ larger
    exact quiet (n, p) hp marked ⟨(e, r), hr, larger⟩

end Refine

section Corner

variable {m : Mesh} {l : Leaves}

theorem createInitialGrid_restricted (m : Mesh) : Restricted (createInitialGrid m) [(1, [])] := by
  have mapped := createInitialGrid_mapped m
  refine ⟨mapped.mesh, mapped.order, mapped.faces, fun x hx => ?_, ?_⟩
  · rw [List.mem_singleton.mp hx]
    exact ⟨le_rfl, le_rfl⟩
  · rintro p r ⟨n, hp⟩ - ⟨-, -, -, shorter⟩
    rw [(Prod.mk.inj (List.mem_singleton.mp hp)).2] at shorter ⊢
    exact Nat.zero_le _

/-- Leaves of one size do not block each other. -/
theorem not_blocked_of_level {d : ℕ} (level : ∀ x ∈ l, x.2.length = d) {x : ℕ × Path}
    (hx : x ∈ l) : ¬ Blocked l x.2 := by
  rintro ⟨y, hy, -, -, -, shorter⟩
  rw [level x hx, level y hy] at shorter
  exact lt_irrefl d shorter

/-- The initial grid cut into eight elements, the first of them again, with all marked. -/
def cornerMesh : Mesh := { deepMesh 2 with ich := fun _ => 4 }

theorem cornerMesh_restricted :
    ∃ l, Restricted cornerMesh l ∧ ∃ x ∈ l, cornerMesh.ich x.1 = 4 := by
  have start := (createInitialGrid_restricted blank).withMarks (deepen (deepMesh 0)).ich
  have whole : ∀ x ∈ [(1, ([] : Path))], x.2.length = 0 := by
    intro x hx
    rw [List.mem_singleton.mp hx]
    rfl
  have eight := (refined_restricted start fun x hx _ => not_blocked_of_level whole hx).withMarks
    (deepen (deepMesh 1)).ich
  have halves : ∀ x ∈ refinedLeaves (deepen (deepMesh 0)) [(1, [])], x.2.length = 1 := by
    intro y hy
    rcases mem_newLeaves.mp hy with ⟨x, hx, -, c, rfl⟩ | ⟨hy', stays⟩
    · rw [List.length_cons, whole x hx]
    · rw [List.mem_singleton.mp hy'] at stays
      exact (stays rfl).elim
  have corner := (refined_restricted eight fun x hx _ => not_blocked_of_level halves hx).withMarks
    fun _ => 4
  have first : (1, [0, 0]) ∈ refinedLeaves (deepen (deepMesh 1))
      (refinedLeaves (deepen (deepMesh 0)) [(1, [])]) := by
    have half := kid_mem (R := (refinePlan (deepen (deepMesh 0))).refFrontId)
      (List.mem_singleton_self (1, ([] : Path))) (show (deepen (deepMesh 0)).ich 1 = 4 from rfl) 0
    exact kid_mem half (show (deepen (deepMesh 1)).ich 1 = 4 from rfl) 0
  exact ⟨_, corner, _, first, rfl⟩

/-- The coordinates of the vertices of that mesh along an axis, in quarters of the domain. -/
def cornerCoord (axis j e : ℕ) : ℕ :=
  let side (child size : ℕ) := size * (child / axis % 2 + (j - 1) / axis % 2)
  if e = 1 then side 0 1 else if e ≤ 8 then side (e - 1) 2 else side (e - 8) 1

end Corner

/-- For whatever marks and in whatever order the elements are checked: the loop ends, with marks on
elements without larger neighbours only and on at least one element if there was one, and the
refinement keeps neighbours within one level. -/
theorem refineLoop_restricts {C : Type*} [BEq C] (v : Corners C) (m : Mesh) (l : Leaves)
    (given : Restricted m l) (orders : ℕ → List ℕ)
    (all : ∀ k, (orders k).Perm (List.range' 1 m.nelt)) :
    (∃ n, (refineLoop v m orders n).ifrepeat = false) ∧
      ∀ n, (refineLoop v m orders n).ifrepeat = false →
        (∀ x ∈ l, (checked v m orders n).ich x.1 = 4 → ∀ y ∈ l, ¬ Larger x.2 y.2) ∧
        (∀ x ∈ l, (checked v m orders n).ich x.1 = 4 →
          ∀ f, ((checked v m orders n).face x.1 f).cbc ≠ 1) ∧
        ((∃ x ∈ l, m.ich x.1 = 4) → ∃ x ∈ l, (checked v m orders n).ich x.1 = 4) ∧
        Restricted (doRefine (checked v m orders n)) (refinedLeaves (checked v m orders n) l) := by
  refine ⟨refineLoop_ends v given all, fun n ended => ?_⟩
  have same : Restricted (checked v m orders n) l := given.withMarks _
  have quiet := refineLoop_quiet v given all ended
  refine ⟨fun x hx marked y hy larger => quiet x hx marked ⟨y, hy, larger⟩, ?_, ?_, ?_⟩
  · exact fun x hx marked f => quiet_faces same quiet hx marked f
  · exact fun marked => refineLoop_marked v given all marked n
  · exact refined_restricted same quiet

theorem refineLoop_restricts_corner : ∃ n l, ∃ end_ : Check,
    end_ = refineLoop ⟨cornerCoord 1, cornerCoord 2, cornerCoord 4⟩ cornerMesh
      (fun _ => List.range' 1 cornerMesh.nelt) n ∧ end_.ifrepeat = false ∧
    (∃ x ∈ l, end_.ich x.1 = 4) ∧ Restricted (doRefine { cornerMesh with ich := end_.ich })
      (refinedLeaves { cornerMesh with ich := end_.ich } l) := by
  obtain ⟨l, restricted, some_⟩ := cornerMesh_restricted
  obtain ⟨⟨n, ended⟩, exit⟩ := refineLoop_restricts
    ⟨cornerCoord 1, cornerCoord 2, cornerCoord 4⟩ cornerMesh l restricted
    (fun _ => List.range' 1 cornerMesh.nelt) fun _ => List.Perm.refl _
  obtain ⟨-, -, marked, kept⟩ := exit n ended
  exact ⟨n, l, _, rfl, ended, marked some_, kept⟩

end Baseliner.UaRefineLoop
