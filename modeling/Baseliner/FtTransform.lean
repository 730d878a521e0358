import Baseliner.BoxTransforms
import Baseliner.FtFft
import Baseliner.OwnEntries

/-! The transforms of the FT benchmark in three directions and its time steps, over exact numbers.
A pass in one direction takes `fftblock` lines at a time through an array of the thread. -/

namespace Baseliner.FtTransform
open BoxTransforms FtFft SharedWrites StockhamStages

abbrev Grid (R : Type*) := Place → R

abbrev Scratch (R : Type*) := (ℕ × ℕ → R) × (ℕ × ℕ → R)

section passes

variable {R : Type*} [CommRing R] [StarRing R]

/-- The body of the loops: `cell` is where the entries of `y1` come from and go to, in the order
of the copying loops. Without an array `x` the lines are read where they are written. -/
def block (is : ℤ) (n ny : ℕ) (roots : Roots R) (cell : ℕ × ℕ → Place) (order : List (ℕ × ℕ))
    (work : Scratch R) (x : Option (Grid R)) (xout : Grid R) : Option (Grid R) :=
  let y1 := applyWrites work.1 (order.map fun q => (q, x.getD xout (cell q)))
  (cfftz is (ilog2 n) n ny roots y1 work.2).map fun y =>
    applyWrites xout (order.map fun q => (cell q, y.1 q))

/-- The two outer loops, with the steps of `fftblock` numbered. -/
def blocks (outer inner ny : ℕ) : List (ℕ × ℕ) :=
  (List.range' 1 outer).flatMap fun k => (List.range (inner / ny)).map fun b => (k, ny * b)

def lineOrder (n ny : ℕ) : List (ℕ × ℕ) :=
  (List.range' 1 ny).flatMap fun j => (List.range' 1 n).map fun i => (j, i)

def placeOrder (n ny : ℕ) : List (ℕ × ℕ) :=
  (List.range' 1 n).flatMap fun j => (List.range' 1 ny).map fun i => (i, j)

variable (is : ℤ) (d : Place) (ny : ℕ) (roots : Roots R) (work : ℕ × ℕ → Scratch R)

def cffts1 (x : Option (Grid R)) (xout : Grid R) : Option (Grid R) :=
  (blocks d.2.2 d.2.1 ny).foldlM (fun xout b =>
    block is d.1 ny roots (fun q => (q.2, q.1 + b.2, b.1)) (lineOrder d.1 ny) (work b) x xout) xout

def cffts2 (x : Option (Grid R)) (xout : Grid R) : Option (Grid R) :=
  (blocks d.2.2 d.1 ny).foldlM (fun xout b => block is d.2.1 ny roots
    (fun q => (q.1 + b.2, q.2, b.1)) (placeOrder d.2.1 ny) (work b) x xout) xout

def cffts3 (x : Option (Grid R)) (xout : Grid R) : Option (Grid R) :=
  (blocks d.2.1 d.1 ny).foldlM (fun xout b => block is d.2.2 ny roots
    (fun q => (q.1 + b.2, b.1, q.2)) (placeOrder d.2.2 ny) (work b) x xout) xout

/-- The last pass, from `x1` to `x2` or in `x1` where they are one array. -/
def last (pass : Option (Grid R) → Grid R → Option (Grid R)) (x1 : Grid R)
    (x2 : Option (Grid R)) : Option (Grid R × Grid R) :=
  match x2 with
  | none => (pass none x1).map fun x => (x, x)
  | some x2 => (pass (some x1) x2).map fun x => (x1, x)

/-- `fft`, with what `x1` and `x2` hold behind it. -/
def fft (dir : ℤ) (d : Place) (ny : ℕ) (roots : Roots R) (work : Axis → ℕ × ℕ → Scratch R)
    (x1 : Grid R) (x2 : Option (Grid R)) : Option (Grid R × Grid R) :=
  if dir = 1 then do
    let x1 ← cffts1 1 d ny roots (work .x) none x1
    let x1 ← cffts2 1 d ny roots (work .y) none x1
    last (cffts3 1 d ny roots (work .z)) x1 x2
  else do
    let x1 ← cffts3 (-1) d ny roots (work .z) none x1
    let x1 ← cffts2 (-1) d ny roots (work .y) none x1
    last (cffts1 (-1) d ny roots (work .x)) x1 x2

end passes

/-! ### One direction -/

def up (p : Place) : Place := (p.1 + 1, p.2.1 + 1, p.2.2 + 1)

def down (p : Place) : Place := (p.1 - 1, p.2.1 - 1, p.2.2 - 1)

section spec

variable {R : Type*} [CommRing R] [StarRing R] {is : ℤ} {m ny : ℕ} {w : R} {roots : Roots R}

def view (x : Grid R) : Place → R := fun p => x (up p)

/-- What `cfftz` needs to know of its table. -/
structure Ready (roots : Roots R) (w : R) (m : ℕ) : Prop where
  some_ : 1 ≤ m
  enough : m ≤ roots.mx
  table : TableOf w m roots.u
  half : w ^ 2 ^ (m - 1) = -1

def transformed (axis : Axis) (w : R) (n : ℕ) (src : Grid R) : Grid R :=
  fun e => along axis w n (view src) (down e)

theorem block_spec (sign : is = 1 ∨ is = -1) (ready : Ready roots w m) {axis : Axis}
    {cell : ℕ × ℕ → Place} {order : List (ℕ × ℕ)} (listed : ∀ q, q ∈ order ↔ InBlock (2 ^ m) ny q)
    (lines : ∀ j ∈ List.range' 1 ny, ∃ p, ∀ i, cell (j, i + 1) = up (axis.set i p))
    (work : Scratch R) {x : Option (Grid R)} {xout src : Grid R}
    (same : ∀ q, InBlock (2 ^ m) ny q → x.getD xout (cell q) = src (cell q)) :
    ∃ s, block is (2 ^ m) ny roots cell order work x xout = some s ∧
      (∀ e, (∃ q, InBlock (2 ^ m) ny q ∧ e = cell q) →
        s e = transformed axis (directed is w) (2 ^ m) src e) ∧
      ∀ e, ¬ (∃ q, InBlock (2 ^ m) ny q ∧ e = cell q) → s e = xout e := by
  obtain ⟨y, y', ran, columns, -⟩ := @cfftz_spec R _ _ is m ny w roots sign ready.some_
    ready.enough ready.table ready.half
    (applyWrites work.1 (order.map fun q => (q, x.getD xout (cell q)))) work.2
  have copied (q : ℕ × ℕ) (inside : InBlock (2 ^ m) ny q) :
      applyWrites work.1 (order.map fun q => (q, x.getD xout (cell q))) q = src (cell q) := by
    have agree : ∀ v ∈ order.map fun q => (q, x.getD xout (cell q)), v.2 = src (cell v.1) := by
      intro v mem
      obtain ⟨q, mem', rfl⟩ := List.mem_map.mp mem
      exact same q ((listed q).mp mem')
    rw [@applyWrites_of_agree _ _ _ (fun q => src (cell q)) _ agree, if_pos]
    exact List.mem_map.mpr ⟨_, List.mem_map_of_mem ((listed q).mpr inside), rfl⟩
  have value (q : ℕ × ℕ) (inside : InBlock (2 ^ m) ny q) :
      y q = transformed axis (directed is w) (2 ^ m) src (cell q) := by
    obtain ⟨j, i⟩ := q
    obtain ⟨line, low, high⟩ := inside.imp_right List.mem_range'_1.mp
    obtain ⟨k, rfl⟩ := Nat.exists_eq_add_of_le' low
    obtain ⟨p, cells⟩ := lines j line
    rw [columns j line k (by omega), cells, transformed, along]
    simp only [down, up, Nat.add_sub_cancel, Prod.mk.eta, Axis.get_set, Axis.set_set]
    refine Finset.sum_congr rfl fun l mem => congrArg (· * _) ?_
    have small := Finset.mem_range.mp mem
    refine (copied (j, l + 1) ⟨line, List.mem_range'_1.mpr (by dsimp only; omega)⟩).trans ?_
    rw [cells]
    rfl
  have agree : ∀ v ∈ order.map fun q => (cell q, y q),
      v.2 = transformed axis (directed is w) (2 ^ m) src v.1 := by
    intro v mem
    obtain ⟨q, mem', rfl⟩ := List.mem_map.mp mem
    exact value q ((listed q).mp mem')
  refine ⟨applyWrites xout (order.map fun q => (cell q, y q)), ?_, fun e inside => ?_,
    fun e outside => ?_⟩
  · rw [block, ilog2_two_pow, ran]
    rfl
  · obtain ⟨q, inside, rfl⟩ := inside
    rw [applyWrites_of_agree agree, if_pos]
    exact List.mem_map.mpr ⟨_, List.mem_map_of_mem ((listed q).mpr inside), rfl⟩
  · rw [applyWrites_of_agree agree, if_neg]
    intro mem
    obtain ⟨v, mem', rfl⟩ := List.mem_map.mp mem
    obtain ⟨q, mem'', rfl⟩ := List.mem_map.mp mem'
    exact outside ⟨q, (listed q).mp mem'', rfl⟩

theorem pass_spec (sign : is = 1 ∨ is = -1) (ready : Ready roots w m) {axis : Axis} {d : Place}
    {bs : List (ℕ × ℕ)} {cell : ℕ × ℕ → ℕ × ℕ → Place} {order : List (ℕ × ℕ)}
    (listed : ∀ q, q ∈ order ↔ InBlock (2 ^ m) ny q)
    (lines : ∀ b ∈ bs, ∀ j ∈ List.range' 1 ny, ∃ p, ∀ i, cell b (j, i + 1) = up (axis.set i p))
    (key : Place → ℕ × ℕ) (once : bs.Nodup)
    (keyed : ∀ b ∈ bs, ∀ q, InBlock (2 ^ m) ny q → key (cell b q) = b)
    (covered : ∀ p, Inside d p → ∃ b ∈ bs, ∃ q, InBlock (2 ^ m) ny q ∧ up p = cell b q)
    (work : ℕ × ℕ → Scratch R) (x : Option (Grid R)) (xout : Grid R) :
    ∃ s, bs.foldlM (fun xout b =>
        block is (2 ^ m) ny roots (cell b) order (work b) x xout) xout = some s ∧
      Agree d (view s) (along axis (directed is w) (2 ^ m) (view (x.getD xout))) := by
  have apart : bs.Pairwise fun b b' => ∀ e, (∃ q, InBlock (2 ^ m) ny q ∧ e = cell b q) →
      ¬ ∃ q, InBlock (2 ^ m) ny q ∧ e = cell b' q := by
    refine once.imp_of_mem fun {b b'} mem mem' ne e => ?_
    rintro ⟨q, inside, rfl⟩ ⟨q', inside', same⟩
    have back := keyed b' mem' q' inside'
    rw [← same, keyed b mem q inside] at back
    exact ne back
  obtain ⟨s, ran, result⟩ := OwnEntries.foldlM_regions (a := xout) (s := xout)
    (v := transformed axis (directed is w) (2 ^ m) (x.getD xout)) apart
    (fun b mem s fresh => block_spec sign ready listed (lines b mem) (work b) (x := x) (by
      intro q inside
      cases x with
      | none => exact fresh _ ⟨q, inside, rfl⟩
      | some x => rfl)) fun _ _ _ _ => rfl
  refine ⟨s, ran, fun p inside => ?_⟩
  obtain ⟨b, mem, q, block, place⟩ := covered p inside
  exact (result (up p)).1 ⟨b, mem, q, block, place⟩

theorem mem_blocks {outer inner : ℕ} {b : ℕ × ℕ} : b ∈ blocks outer inner ny ↔
    (1 ≤ b.1 ∧ b.1 < 1 + outer) ∧ ∃ t < inner / ny, b.2 = ny * t := by
  obtain ⟨k, s⟩ := b
  simp only [blocks, List.mem_flatMap, List.mem_map, List.mem_range, List.mem_range'_1,
    Prod.mk.injEq]
  constructor
  · rintro ⟨_, range, t, less, rfl, rfl⟩
    exact ⟨range, t, less, rfl⟩
  · rintro ⟨range, t, less, rfl⟩
    exact ⟨k, range, t, less, rfl, rfl⟩

theorem nodup_blocks (outer inner : ℕ) (pos : 0 < ny) : (blocks outer inner ny).Nodup := by
  refine OwnEntries.nodup_flatMap_of_key Prod.fst List.nodup_range' (fun k _ => ?_)
    fun k _ b mem => ?_
  · exact List.Nodup.map (fun _ _ same => Nat.eq_of_mul_eq_mul_left pos (Prod.mk.inj same).2)
      List.nodup_range
  · obtain ⟨t, -, rfl⟩ := List.mem_map.mp mem
    rfl

theorem mem_lineOrder {n : ℕ} (q : ℕ × ℕ) : q ∈ lineOrder n ny ↔ InBlock n ny q := by
  obtain ⟨j, i⟩ := q
  simp [lineOrder, InBlock]

theorem mem_placeOrder {n : ℕ} (q : ℕ × ℕ) : q ∈ placeOrder n ny ↔ InBlock n ny q := by
  obtain ⟨j, i⟩ := q
  simp [placeOrder, InBlock, and_comm]

theorem step_of_line {j t : ℕ} (line : j ∈ List.range' 1 ny) : (j + ny * t - 1) / ny = t := by
  obtain ⟨low, high⟩ := List.mem_range'_1.mp line
  rw [Nat.sub_add_comm low, Nat.add_mul_div_left _ _ (by omega), Nat.div_eq_of_lt (by omega),
    Nat.zero_add]

theorem line_in_step (pos : 0 < ny) {i n : ℕ} (divides : ny ∣ n) (small : i < n) :
    i / ny < n / ny ∧ i % ny + 1 ∈ List.range' 1 ny ∧ i % ny + 1 + ny * (i / ny) = i + 1 := by
  have less := Nat.mod_lt i pos
  refine ⟨Nat.div_lt_div_of_lt_of_dvd divides small, List.mem_range'_1.mpr ⟨by omega, by omega⟩, ?_⟩
  have whole := Nat.mod_add_div i ny
  omega

variable {d : Place} (sign : is = 1 ∨ is = -1) (pos : 0 < ny) (work : ℕ × ℕ → Scratch R)
  (x : Option (Grid R)) (xout : Grid R)

include sign pos

theorem cffts1_spec (ready : Ready roots w m) (size : d.1 = 2 ^ m) (divides : ny ∣ d.2.1) :
    ∃ s, cffts1 is d ny roots work x xout = some s ∧
      Agree d (view s) (along .x (directed is w) d.1 (view (x.getD xout))) := by
  rw [cffts1, size]
  refine pass_spec sign ready mem_lineOrder (fun b mem j line => ?_)
    (fun e => (e.2.2, ny * ((e.2.1 - 1) / ny))) (nodup_blocks _ _ pos) (fun b mem q inside => ?_)
    (fun p inside => ?_) work x xout
  · have low := (mem_blocks.mp mem).1.1
    have low' := (List.mem_range'_1.mp line).1
    refine ⟨(0, j + b.2 - 1, b.1 - 1), fun i => ?_⟩
    simp only [up, Axis.set, Prod.mk.injEq, true_and]
    omega
  · obtain ⟨-, t, -, step⟩ := mem_blocks.mp mem
    exact Prod.ext rfl (by simp only [step, step_of_line inside.1])
  · obtain ⟨less, line, back⟩ := line_in_step pos divides inside.2.1
    refine ⟨(p.2.2 + 1, ny * (p.2.1 / ny)), mem_blocks.mpr ⟨?_, _, less, rfl⟩,
      (p.2.1 % ny + 1, p.1 + 1), ⟨line, List.mem_range'_1.mpr ?_⟩, ?_⟩
    · have := inside.2.2
      dsimp only
      omega
    · have := inside.1
      dsimp only
      omega
    · simp only [up, back]

theorem cffts2_spec (ready : Ready roots w m) (size : d.2.1 = 2 ^ m) (divides : ny ∣ d.1) :
    ∃ s, cffts2 is d ny roots work x xout = some s ∧
      Agree d (view s) (along .y (directed is w) d.2.1 (view (x.getD xout))) := by
  rw [cffts2, size]
  refine pass_spec sign ready mem_placeOrder (fun b mem j line => ?_)
    (fun e => (e.2.2, ny * ((e.1 - 1) / ny))) (nodup_blocks _ _ pos) (fun b mem q inside => ?_)
    (fun p inside => ?_) work x xout
  · have low := (mem_blocks.mp mem).1.1
    have low' := (List.mem_range'_1.mp line).1
    refine ⟨(j + b.2 - 1, 0, b.1 - 1), fun i => ?_⟩
    simp only [up, Axis.set, Prod.mk.injEq, true_and]
    omega
  · obtain ⟨-, t, -, step⟩ := mem_blocks.mp mem
    exact Prod.ext rfl (by simp only [step, step_of_line inside.1])
  · obtain ⟨less, line, back⟩ := line_in_step pos divides inside.1
    refine ⟨(p.2.2 + 1, ny * (p.1 / ny)), mem_blocks.mpr ⟨?_, _, less, rfl⟩,
      (p.1 % ny + 1, p.2.1 + 1), ⟨line, List.mem_range'_1.mpr ?_⟩, ?_⟩
    · have := inside.2.2
      dsimp only
      omega
    · have := inside.2.1
      dsimp only
      omega
    · simp only [up, back]

theorem cffts3_spec (ready : Ready roots w m) (size : d.2.2 = 2 ^ m) (divides : ny ∣ d.1) :
    ∃ s, cffts3 is d ny roots work x xout = some s ∧
      Agree d (view s) (along .z (directed is w) d.2.2 (view (x.getD xout))) := by
  rw [cffts3, size]
  refine pass_spec sign ready mem_placeOrder (fun b mem j line => ?_)
    (fun e => (e.2.1, ny * ((e.1 - 1) / ny))) (nodup_blocks _ _ pos) (fun b mem q inside => ?_)
    (fun p inside => ?_) work x xout
  · have low := (mem_blocks.mp mem).1.1
    have low' := (List.mem_range'_1.mp line).1
    refine ⟨(j + b.2 - 1, b.1 - 1, 0), fun i => ?_⟩
    simp only [up, Axis.set, Prod.mk.injEq, and_true]
    omega
  · obtain ⟨-, t, -, step⟩ := mem_blocks.mp mem
    exact Prod.ext rfl (by simp only [step, step_of_line inside.1])
  · obtain ⟨less, line, back⟩ := line_in_step pos divides inside.1
    refine ⟨(p.2.1 + 1, ny * (p.1 / ny)), mem_blocks.mpr ⟨?_, _, less, rfl⟩,
      (p.1 % ny + 1, p.2.2 + 1), ⟨line, List.mem_range'_1.mpr ?_⟩, ?_⟩
    · have := inside.2.1
      dsimp only
      omega
    · have := inside.2.2
      dsimp only
      omega
    · simp only [up, back]

omit [CommRing R] [StarRing R] sign pos in
theorem last_spec {p : Option (Grid R) → Grid R → Option (Grid R)} {T : Grid R → Place → R}
    (one : ∀ x xout, ∃ s, p x xout = some s ∧ Agree d (view s) (T (x.getD xout)))
    (x1 : Grid R) (x2 : Option (Grid R)) :
    ∃ s, last p x1 x2 = some s ∧ Agree d (view s.2) (T x1) := by
  cases x2 with
  | none =>
    obtain ⟨s, ran, agree⟩ := one none x1
    exact ⟨(s, s), by rw [last, ran]; rfl, agree⟩
  | some x2 =>
    obtain ⟨s, ran, agree⟩ := one (some x1) x2
    exact ⟨(x1, s), by rw [last, ran]; rfl, agree⟩

end spec

section transform

variable {R : Type*} [CommRing R] [StarRing R] {ny : ℕ} {roots : Roots R} {d : Place}

/-- The sizes of a run and the roots that belong to them: the table is long enough for every
direction, and the blocks of lines come out even. -/
structure Fits (d : Place) (ny : ℕ) (roots : Roots R) (w : Axis → R) : Prop where
  pos : 0 < ny
  even : ny ∣ d.1 ∧ ny ∣ d.2.1
  ready : ∀ axis : Axis, ∃ m, axis.get d = 2 ^ m ∧ Ready roots (w axis) m

variable {w : Axis → R}

theorem fft_spec (fits : Fits d ny roots w) {dir : ℤ} (sign : dir = 1 ∨ dir = -1)
    (work : Axis → ℕ × ℕ → Scratch R) (x1 : Grid R) (x2 : Option (Grid R)) :
    ∃ s, fft dir d ny roots work x1 x2 = some s ∧
      Agree d (view s.2) (dft3 (fun axis => directed dir (w axis)) d (view x1)) := by
  obtain ⟨mx, sizeX, readyX⟩ := fits.ready .x
  obtain ⟨my, sizeY, readyY⟩ := fits.ready .y
  obtain ⟨mz, sizeZ, readyZ⟩ := fits.ready .z
  obtain rfl | rfl := sign
  · obtain ⟨s₁, ran₁, agree₁⟩ := cffts1_spec (.inl rfl) fits.pos (work .x) none x1 readyX sizeX
      fits.even.2
    obtain ⟨s₂, ran₂, agree₂⟩ := cffts2_spec (.inl rfl) fits.pos (work .y) none s₁ readyY sizeY
      fits.even.1
    obtain ⟨s, ran, agree⟩ := last_spec (p := cffts3 1 d ny roots (work .z))
      (T := fun x => along .z (directed 1 (w .z)) d.2.2 (view x)) (fun x xout =>
        cffts3_spec (.inl rfl) fits.pos (work .z) x xout readyZ sizeZ fits.even.1) s₂ x2
    refine ⟨s, ?_, ?_⟩
    · rw [fft, if_pos rfl, ran₁]
      simp only [Option.bind_eq_bind, Option.bind_some, ran₂, ran]
    · rw [← along_xyz]
      exact agree.trans ((agree₂.trans (agree₁.along .y _)).along .z _)
  · obtain ⟨s₁, ran₁, agree₁⟩ := cffts3_spec (.inr rfl) fits.pos (work .z) none x1 readyZ sizeZ
      fits.even.1
    obtain ⟨s₂, ran₂, agree₂⟩ := cffts2_spec (.inr rfl) fits.pos (work .y) none s₁ readyY sizeY
      fits.even.1
    obtain ⟨s, ran, agree⟩ := last_spec (p := cffts1 (-1) d ny roots (work .x))
      (T := fun x => along .x (directed (-1) (w .x)) d.1 (view x)) (fun x xout =>
        cffts1_spec (.inr rfl) fits.pos (work .x) x xout readyX sizeX fits.even.2) s₂ x2
    refine ⟨s, ?_, ?_⟩
    · rw [fft, if_neg (by decide), ran₁]
      simp only [Option.bind_eq_bind, Option.bind_some, ran₂, ran]
    · rw [← along_zyx]
      exact agree.trans ((agree₂.trans (agree₁.along .y _)).along .x _)

end transform

end Baseliner.FtTransform
