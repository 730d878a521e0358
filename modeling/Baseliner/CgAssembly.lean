import Mathlib.Tactic.Ring
import Baseliner.CgPointers

/-! Whatever the number of threads and the order of their steps, `sparse` makes one and the
same matrix: a row is the grouped sum of its elements, the free slots behind it are left out,
and the pointers are moved up accordingly. -/

namespace Baseliner.CgSparse.Problem

open KeyedSums

variable {K : Type*} [CommRing K] (p : Problem K) (j : ℕ)

/-- What list `i` has for a row: a column and `va` each. -/
def listElements (i : ℕ) (size : K) : List (ℕ × K) :=
  ((p.entries i).filter fun e => decide (e.1 = j)).flatMap fun e =>
    (p.entries i).map fun c => (c.1, p.element i j (size * e.2) c)

def rowElements : ℕ → ℕ → K → List (ℕ × K)
  | 0, _, _ => []
  | left + 1, i, size => p.listElements j i size ++ rowElements left (i + 1) (size * p.ratio)

def row : List (ℕ × K) := groupBy (p.rowElements j p.n 1 1)

/-- The pointer of a row when the free slots are left out. -/
def final (x : ℕ) : ℕ := 1 + ∑ y ∈ Finset.Ico 1 x, (p.row y).length

theorem final_succ {j : ℕ} (low : 1 ≤ j) : p.final (j + 1) = p.final j + (p.row j).length := by
  rw [final, final, Finset.sum_Ico_succ_top low, Nat.add_assoc]

end Baseliner.CgSparse.Problem

namespace Baseliner.CgAssembly

open BarrierPhases CgInsertion CgPointers CgSparse KeyedSums

section Elements

variable {K : Type*} [CommRing K] {p : Problem K} {j : ℕ}

def ofRow (j : ℕ) (l : List (ℕ × ℕ × K)) : List (ℕ × K) :=
  (l.filter fun e => decide (e.1 = j)).map Prod.snd

omit [CommRing K] in
theorem ofRow_append (l l' : List (ℕ × ℕ × K)) : ofRow j (l ++ l') = ofRow j l ++ ofRow j l' := by
  rw [ofRow, List.filter_append, List.map_append]
  rfl

omit [CommRing K] in
theorem ofRow_map (k : ℕ) (l : List (ℕ × K)) (f : ℕ × K → ℕ × K) :
    ofRow j (l.map fun c => (k, f c)) = if k = j then l.map f else [] := by
  rw [ofRow, List.filter_map, List.map_map]
  split_ifs with same
  · subst same
    have all : (fun e : ℕ × ℕ × K => decide (e.1 = k)) ∘ (fun c => (k, f c)) = fun _ => true := by
      funext c
      exact decide_eq_true rfl
    rw [all, List.filter_true]
    rfl
  · have none : (fun e : ℕ × ℕ × K => decide (e.1 = j)) ∘ (fun c => (k, f c)) =
        fun _ => false := by
      funext c
      exact decide_eq_false same
    rw [none, List.filter_false]
    rfl

theorem ofRow_elements (mine : ℕ → Bool) (own : mine j = true) (left i : ℕ) (size : K) :
    ofRow j (p.elements mine left i size) = p.rowElements j left i size := by
  induction left generalizing i size with
  | zero => rfl
  | succ left ih =>
      rw [Problem.elements, Problem.rowElements, ofRow_append, ih, Problem.listElements]
      refine congrArg (· ++ p.rowElements j left (i + 1) (size * p.ratio)) ?_
      generalize p.entries i = entries
      -- over the entries whose row the loop is at, with all entries as columns
      have each (l : List (ℕ × K)) :
          ofRow j ((l.filter fun e => mine e.1).flatMap fun e =>
            entries.map fun c => (e.1, c.1, p.element i e.1 (size * e.2) c)) =
          (l.filter fun e => decide (e.1 = j)).flatMap fun e =>
            entries.map fun c => (c.1, p.element i j (size * e.2) c) := by
        induction l with
        | nil => rfl
        | cons e l ihl =>
            by_cases here : e.1 = j
            · rw [List.filter_cons_of_pos (by rw [here]; exact own),
                List.filter_cons_of_pos (p := fun e : ℕ × K => decide (e.1 = j))
                  (decide_eq_true here), List.flatMap_cons, List.flatMap_cons, ofRow_append, ihl,
                ofRow_map, if_pos here, here]
            · rw [List.filter_cons_of_neg (p := fun e : ℕ × K => decide (e.1 = j))
                (fun same => here (of_decide_eq_true same))]
              by_cases other : mine e.1 = true
              · rw [List.filter_cons_of_pos (p := fun e : ℕ × K => mine e.1) other,
                  List.flatMap_cons, ofRow_append, ihl, ofRow_map, if_neg here, List.nil_append]
              · rw [List.filter_cons_of_neg (p := fun e : ℕ × K => mine e.1) other, ihl]
      exact each entries

theorem length_listElements (i : ℕ) (size : K) :
    (p.listElements j i size).length =
      sumOver (fun k => decide (k = j))
        ((p.entries i).map fun e => (e.1, (p.entries i).length)) := by
  rw [Problem.listElements]
  generalize hc : (p.entries i).length = c
  have each (l : List (ℕ × K)) : ((l.filter fun e => decide (e.1 = j)).flatMap fun e =>
      (p.entries i).map fun c => (c.1, p.element i j (size * e.2) c)).length =
      sumOver (fun k => decide (k = j)) (l.map fun e => (e.1, c)) := by
    induction l with
    | nil => rfl
    | cons e l ih =>
        rw [List.map_cons, sumOver_cons, ← ih]
        by_cases here : decide (e.1 = j) = true
        · rw [List.filter_cons_of_pos (p := fun e : ℕ × K => decide (e.1 = j)) here,
            List.flatMap_cons, List.length_append, List.length_map, hc, if_pos here]
        · rw [List.filter_cons_of_neg (p := fun e : ℕ × K => decide (e.1 = j)) here, if_neg here,
            Nat.zero_add]
  exact each _

theorem length_rowElements (p : Problem K) (j : ℕ) :
    (p.rowElements j p.n 1 1).length = p.count j := by
  have each (left i : ℕ) (size : K) : (p.rowElements j left i size).length =
      sumOver (fun k => decide (k = j)) ((List.range' i left).flatMap fun i =>
        (p.entries i).map fun e => (e.1, (p.entries i).length)) := by
    induction left generalizing i size with
    | zero => rfl
    | succ left ih =>
        rw [Problem.rowElements, List.length_append, List.range'_succ, List.flatMap_cons,
          sumOver_append, length_listElements, ih]
  exact each p.n 1 1

theorem mem_elements {mine : ℕ → Bool} {e : ℕ × ℕ × K} {left i : ℕ} {size : K} (low : 1 ≤ i)
    (high : i + left ≤ p.n + 1) (member : e ∈ p.elements mine left i size) :
    mine e.1 = true ∧ 1 ≤ e.1 ∧ e.1 ≤ p.n ∧ 0 < e.2.1 := by
  induction left generalizing i size with
  | zero => cases member
  | succ left ih =>
      rw [Problem.elements, List.mem_append] at member
      rcases member with here | later
      · obtain ⟨x, hx, inside⟩ := List.mem_flatMap.mp here
        obtain ⟨c, hc, rfl⟩ := List.mem_map.mp inside
        rw [List.mem_filter] at hx
        have row := p.inside i low (by omega) x hx.1
        have column := p.inside i low (by omega) c hc
        exact ⟨hx.2, row.1, row.2, column.1⟩
      · exact ih (by omega) (by omega) later

end Elements

section Assemble

variable {K : Type*} [CommRing K] {p : Problem K} {threads t j : ℕ} {m m' : Mem K}

/-- A row with some elements entered: they are grouped, and the rest of them are marked. -/
structure Built (p : Problem K) (j : ℕ) (done : List (ℕ × K)) (m : Mem K) : Prop where
  holds : Holds (p.start j) (p.start (j + 1)) (groupBy done) m.slots
  marked : m.nzloc j + (groupBy done).length = done.length

/-- Only the segment of a row and its mark are stored to. -/
structure RowOnly (p : Problem K) (j : ℕ) (m m' : Mem K) : Prop where
  rowstr : m'.rowstr = m.rowstr
  slots : SameOutside (p.start j) (p.start (j + 1)) m.slots m'.slots
  nzloc : ∀ x, x ≠ j → m'.nzloc x = m.nzloc x

theorem RowOnly.built (only : RowOnly p j m m') {k : ℕ} (other : k ≠ j) (low : 1 ≤ j)
    (low' : 1 ≤ k) {done : List (ℕ × K)} (h : Built p k done m) : Built p k done m' := by
  refine ⟨h.holds.of_same fun x above below => only.slots x ?_, ?_⟩
  · rcases Nat.lt_or_gt_of_ne other with before | after
    · have order := p.start_mono (by omega) (show k + 1 ≤ j by omega)
      omega
    · have order := p.start_mono (by omega) (show j + 1 ≤ k by omega)
      omega
  · rw [only.nzloc k other]
    exact h.marked

theorem preload_spec (pointers : Pointers p m) (low : 1 ≤ j) (high : j ≤ p.n) :
    ∃ m', Problem.preload j m = .ok m' ∧ Built p j [] m' ∧ RowOnly p j m m' := by
  have here := pointers j low (by omega)
  have next := pointers (j + 1) (by omega) (by omega)
  refine ⟨_, rfl, ⟨?_, ?_⟩, rfl, ?_, ?_⟩
  · rw [here, next]
    exact holds_free (p.start_mono low (Nat.le_succ j))
  · simp only [Function.update_self]
    rfl
  · rw [here, next]
    exact sameOutside_free
  · intro x other
    exact Function.update_of_ne other _ _

/-- The row has a slot left, and an element takes it or joins the slot of its column. -/
theorem enter_spec (pointers : Pointers p m) (low : 1 ≤ j) (high : j ≤ p.n)
    {done : List (ℕ × K)} (built : Built p j done m) (room : done.length < p.count j)
    {jcol : ℕ} (pos : 0 < jcol) (va : K) :
    ∃ m', Problem.enter (j, jcol, va) m = .ok m' ∧ Built p j (done ++ [(jcol, va)]) m' ∧
      RowOnly p j m m' := by
  have here := pointers j low (by omega)
  have next := pointers (j + 1) (by omega) (by omega)
  have segment := p.start_succ low
  have marked := built.marked
  obtain ⟨s', dup, run, holds, same, length⟩ := insert_spec [] (groupBy done) va built.holds
    (by rw [List.length_nil]; omega) pos
  rw [List.nil_append, ← groupBy_concat] at holds
  rw [← groupBy_concat] at length
  have entered : (done ++ [(jcol, va)]).length = done.length + 1 := by simp
  simp only [List.length_nil, Nat.add_zero] at run
  simp only [Problem.enter, here, next, run]
  cases dup with
  | true =>
      refine ⟨_, rfl, ⟨holds, ?_⟩, rfl, same, fun x other => Function.update_of_ne other _ _⟩
      simp only [Function.update_self, entered]
      simp only [if_true] at length
      omega
  | false =>
      refine ⟨_, rfl, ⟨holds, ?_⟩, rfl, same, fun _ _ => rfl⟩
      simp only [entered]
      simp only [Bool.false_eq_true, if_false] at length
      omega

/-- A thread between the second barrier and the third: some of its rows are not yet freed, or
some of its elements are not yet entered. -/
structure Assembling (p : Problem K) (threads t : ℕ) (left : List (Step K)) (m : Mem K)
    (before pre : List ℕ) (done rest : List (ℕ × ℕ × K)) : Prop where
  pointers : Pointers p m
  left : left = pre.map Problem.preload ++ rest.map Problem.enter
  rows : before ++ pre = rows p.n threads t
  elements : p.elements (fun j => decide (ilow p.n threads t ≤ j ∧ j ≤ ihigh p.n threads t))
    p.n 1 1 = done ++ rest
  fresh : pre ≠ [] → done = []
  built : ∀ j ∈ before, Built p j (ofRow j done) m

theorem Assembling.of_rowOnly {left : List (Step K)} {before pre : List ℕ}
    {done rest : List (ℕ × ℕ × K)} (h : Assembling p threads t left m before pre done rest)
    (only : RowOnly p j m m') (low : 1 ≤ j) (other : j ∉ before) :
    Assembling p threads t left m' before pre done rest := by
  refine ⟨fun x above below => ?_, h.left, h.rows, h.elements, h.fresh, fun k hk => ?_⟩
  · rw [only.rowstr]
    exact h.pointers x above below
  · have member : k ∈ CgSparse.rows p.n threads t := by
      rw [← h.rows]
      exact List.mem_append_left _ hk
    have first : 1 ≤ ilow p.n threads t := Nat.le_add_left ..
    exact only.built (fun same => other (same ▸ hk)) low
      (first.trans (mem_rows.mp member).1) (h.built k hk)

omit [CommRing K] in
theorem ofRow_concat (k : ℕ) (done : List (ℕ × ℕ × K)) (e : ℕ × ℕ × K) :
    ofRow k (done ++ [e]) = if e.1 = k then ofRow k done ++ [e.2] else ofRow k done := by
  have single : ofRow k [e] = if e.1 = k then [e.2] else [] := by
    by_cases same : e.1 = k
    · simp [ofRow, same]
    · simp [ofRow, same]
  rw [ofRow_append, single]
  split_ifs
  · rfl
  · exact List.append_nil _

theorem Assembling.mem_rows {left : List (Step K)} {before pre : List ℕ}
    {done rest : List (ℕ × ℕ × K)} (h : Assembling p threads t left m before pre done rest)
    {k : ℕ} (member : k ∈ before ++ pre) : 1 ≤ k ∧ k ≤ p.n := by
  rw [h.rows, CgPointers.mem_rows] at member
  have first : 1 ≤ ilow p.n threads t := Nat.le_add_left ..
  have last := Team.ihigh_le p.n threads t
  omega

theorem Assembling.preload {first : Step K} {left : List (Step K)} {before pre : List ℕ}
    {done rest : List (ℕ × ℕ × K)}
    (h : Assembling p threads t (first :: left) m before (j :: pre) done rest) :
    ∃ m', first m = .ok m' ∧ RowOnly p j m m' ∧
      Assembling p threads t left m' (before ++ [j]) pre done rest := by
  obtain ⟨rfl, rfl⟩ := List.cons.inj h.left
  have none : done = [] := h.fresh (List.cons_ne_nil _ _)
  subst none
  obtain ⟨low, high⟩ := h.mem_rows (k := j) (by simp)
  obtain ⟨m', made, built, only⟩ := preload_spec h.pointers low high
  have once : (before ++ j :: pre).Nodup := by
    rw [h.rows]
    exact List.nodup_range'
  refine ⟨m', made, only, fun x above below => ?_, rfl, ?_, h.elements, fun _ => rfl, ?_⟩
  · rw [only.rowstr]
    exact h.pointers x above below
  · rw [List.append_assoc]
    exact h.rows
  · intro k hk
    rcases List.mem_append.mp hk with old | new
    · have other : k ≠ j := by
        rintro rfl
        exact (List.nodup_append.mp once).2.2 k old k (List.mem_cons_self ..) rfl
      have range := h.mem_rows (k := k) (List.mem_append_left _ old)
      exact only.built other low range.1 (h.built k old)
    · rw [List.mem_singleton.mp new]
      exact built

theorem Assembling.enter {first : Step K} {left : List (Step K)} {before : List ℕ}
    {done rest : List (ℕ × ℕ × K)} {e : ℕ × ℕ × K}
    (h : Assembling p threads t (first :: left) m before [] done (e :: rest)) :
    ∃ m', first m = .ok m' ∧ e.1 ∈ before ∧ RowOnly p e.1 m m' ∧
      Assembling p threads t left m' before [] (done ++ [e]) rest := by
  obtain ⟨rfl, rfl⟩ := List.cons.inj h.left
  obtain ⟨mine, low, high, pos⟩ := mem_elements (p := p) (e := e) le_rfl
    (Nat.add_comm 1 p.n).le (by rw [h.elements]; simp)
  have member : e.1 ∈ before := by
    rw [← List.append_nil before, h.rows, CgPointers.mem_rows]
    exact of_decide_eq_true mine
  have room : (ofRow e.1 done).length < p.count e.1 := by
    rw [← length_rowElements, ← ofRow_elements
        (fun j => decide (ilow p.n threads t ≤ j ∧ j ≤ ihigh p.n threads t)) mine, h.elements,
      ofRow_append, List.length_append, ← List.singleton_append, ofRow_append, List.length_append]
    have here : (ofRow e.1 [e]).length = 1 := by simp [ofRow]
    omega
  obtain ⟨m', made, built, only⟩ := enter_spec h.pointers low high (h.built e.1 member) room pos
    e.2.2
  refine ⟨m', made, member, only, fun x above below => ?_, rfl, h.rows, ?_, nofun, ?_⟩
  · rw [only.rowstr]
    exact h.pointers x above below
  · rw [List.append_assoc]
    exact h.elements
  · intro k hk
    rw [ofRow_concat]
    by_cases same : e.1 = k
    · rw [if_pos same, ← same]
      exact built
    · rw [if_neg same]
      have range := h.mem_rows (k := k) (List.mem_append_left _ hk)
      exact only.built (Ne.symm same) low range.1 (h.built k hk)

theorem Assembling.step {first : Step K} {left : List (Step K)} {before pre : List ℕ}
    {done rest : List (ℕ × ℕ × K)}
    (h : Assembling p threads t (first :: left) m before pre done rest) :
    ∃ m' j, first m = .ok m' ∧ j ∈ CgSparse.rows p.n threads t ∧ RowOnly p j m m' ∧
      ∃ before' pre' done' rest', Assembling p threads t left m' before' pre' done' rest' := by
  cases pre with
  | cons j pre =>
      obtain ⟨m', made, only, after⟩ := h.preload
      refine ⟨m', j, made, ?_, only, _, _, _, _, after⟩
      rw [← h.rows]
      simp
  | nil =>
      cases rest with
      | nil => cases h.left
      | cons e rest =>
          obtain ⟨m', made, member, only, after⟩ := h.enter
          refine ⟨m', e.1, made, ?_, only, _, _, _, _, after⟩
          rw [← h.rows, List.append_nil]
          exact member

def Rows (p : Problem K) (m : Mem K) : Prop :=
  ∀ j, 1 ≤ j → j ≤ p.n → Built p j (p.rowElements j p.n 1 1) m

theorem assemble_spec (team : Team p.n threads) {order : List ℕ}
    (complete : Complete (· < threads) (p.assemble threads) order) (pointers : Pointers p m) :
    ∃ m', runSchedule (p.assemble threads) order m = .ok m' ∧ Pointers p m' ∧ Rows p m' := by
  have step : ∀ t < threads, ∀ (first : Step K) left m,
      (∃ before pre done rest, Assembling p threads t (first :: left) m before pre done rest) →
      ∃ m', first m = .ok m' ∧
        (∃ before pre done rest, Assembling p threads t left m' before pre done rest) ∧
        ∀ u < threads, u ≠ t → ∀ left,
          (∃ before pre done rest, Assembling p threads u left m before pre done rest) →
          ∃ before pre done rest, Assembling p threads u left m' before pre done rest := by
    rintro t _ first left m ⟨before, pre, done, rest, h⟩
    obtain ⟨m', j, made, mine, only, after⟩ := h.step
    refine ⟨m', made, after, ?_⟩
    rintro u _ other steps ⟨before', pre', done', rest', h'⟩
    have low : 1 ≤ ilow p.n threads t := Nat.le_add_left ..
    rw [CgPointers.mem_rows] at mine
    refine ⟨before', pre', done', rest', h'.of_rowOnly only (low.trans mine.1) fun yours => ?_⟩
    have theirs : j ∈ rows p.n threads u := by
      rw [← h'.rows]
      exact List.mem_append_left _ yours
    rw [CgPointers.mem_rows] at theirs
    exact team.apart other theirs.1 theirs.2 mine.1 mine.2
  obtain ⟨m', run, each⟩ := runSchedule_of_assertions
    (A := fun t left m => ∃ before pre done rest,
      Assembling p threads t left m before pre done rest) step complete fun t _ =>
    ⟨[], rows p.n threads t, [], _, pointers, rfl, rfl, rfl, fun _ => rfl, nofun⟩
  refine ⟨m', run, ?_, fun j low high => ?_⟩
  · obtain ⟨_, _, _, _, h⟩ := each 0 team.low
    exact h.pointers
  · obtain ⟨t, ht, above, below⟩ := team.owner low high
    obtain ⟨before, pre, done, rest, h⟩ := each t ht
    obtain ⟨noRows, noElements⟩ := List.append_eq_nil_iff.mp h.left.symm
    rw [List.map_eq_nil_iff] at noRows noElements
    have member : j ∈ before := by
      rw [← List.append_nil before, ← noRows, h.rows, CgPointers.mem_rows]
      exact ⟨above, below⟩
    have all := h.elements
    rw [noElements, List.append_nil] at all
    have built := h.built j member
    rwa [← all, ofRow_elements _ (decide_eq_true ⟨above, below⟩)] at built

end Assemble

section Compact

variable {K : Type*} [CommRing K] {p : Problem K} {j : ℕ} {m m' : Mem K}

structure Packed (p : Problem K) (m : Mem K) : Prop where
  pointers : Pointers p m
  holds : ∀ j, 1 ≤ j → j ≤ p.n → Holds (p.start j) (p.start (j + 1)) (p.row j) m.slots
  free : ∀ j, 1 ≤ j → j ≤ p.n → p.start (j + 1) = p.final (j + 1) + m.nzloc j

theorem start_eq_final {free : ℕ → ℕ}
    (marked : ∀ j, 1 ≤ j → j ≤ p.n → free j + (p.row j).length = p.count j) {x : ℕ} (low : 1 ≤ x)
    (high : x ≤ p.n + 1) : p.start x = p.final x + ∑ y ∈ Finset.Ico 1 x, free y := by
  induction x, low using Nat.le_induction with
  | base => simp [p.start_one, Problem.final]
  | succ x low ih =>
      have here := marked x low (by omega)
      rw [p.start_succ low, p.final_succ low, Finset.sum_Ico_succ_top low, ih (by omega)]
      omega

theorem packed_of_rows (pointers : Pointers p m) (rows : Rows p m)
    (sums : ∀ j, 1 ≤ j → j ≤ p.n → m'.nzloc j = ∑ y ∈ Finset.Ico 1 (j + 1), m.nzloc y)
    (rowstr : m'.rowstr = m.rowstr) (slots : m'.slots = m.slots) : Packed p m' := by
  refine ⟨fun x low high => ?_, fun j low high => ?_, fun j low high => ?_⟩
  · rw [rowstr]
    exact pointers x low high
  · rw [slots]
    exact (rows j low high).holds
  · rw [sums j low high]
    refine start_eq_final (fun k low' high' => ?_) (by omega) (by omega)
    rw [← length_rowElements]
    exact (rows k low' high').marked

theorem copy_apply {α : Type*} (dest : ℕ) (f : ℕ → α) (n : ℕ) (a : ℕ → α) (x : ℕ) :
    (List.range n).foldl (fun a d => Function.update a (dest + d) (f d)) a x =
      if dest ≤ x ∧ x < dest + n then f (x - dest) else a x := by
  induction n with
  | zero =>
      rw [if_neg (by omega)]
      rfl
  | succ n ih =>
      rw [List.range_succ, List.foldl_append, List.foldl_cons, List.foldl_nil]
      by_cases last : x = dest + n
      · subst last
        rw [Function.update_self, if_pos (by omega), Nat.add_sub_cancel_left]
      · have same : (dest ≤ x ∧ x < dest + n) ↔ (dest ≤ x ∧ x < dest + (n + 1)) := by omega
        rw [Function.update_of_ne last, ih]
        simp only [same]

/-- A row has come to its place in `colidx` and `a`. -/
def Copied (p : Problem K) (j : ℕ) (m : Mem K) : Prop :=
  ∀ d < (p.row j).length,
    (m.colidx (p.final j + d), m.a (p.final j + d)) = (p.row j).getD d (0, 0)

theorem compactRow_spec (packed : Packed p m) (low : 1 ≤ j) (high : j ≤ p.n) :
    ∃ m', Problem.compactRow j m = .ok m' ∧ Packed p m' ∧ Copied p j m' ∧
      ∀ x, x < p.final j ∨ p.final (j + 1) ≤ x → m'.colidx x = m.colidx x ∧ m'.a x = m.a x := by
  have here := packed.pointers j low (by omega)
  have next := packed.pointers (j + 1) (by omega) (by omega)
  have first : (if j > 1 then p.start j - m.nzloc (j - 1) else 1) = p.final j := by
    by_cases one : j > 1
    · have before := packed.free (j - 1) (by omega) (by omega)
      rw [show j - 1 + 1 = j by omega] at before
      rw [if_pos one, before, Nat.add_sub_cancel]
    · rw [if_neg one, show j = 1 by omega]
      rfl
  have length : p.start (j + 1) - m.nzloc j - 1 + 1 - p.final j = (p.row j).length := by
    have behind := packed.free j low high
    have step := p.final_succ low
    have pos : 1 ≤ p.final j := Nat.le_add_right ..
    omega
  refine ⟨_, rfl, ⟨packed.pointers, packed.holds, packed.free⟩, fun d inside => ?_,
    fun x outside => ?_⟩
  · have holds := packed.holds j low high
    have le := holds.le
    have range : p.final j ≤ p.final j + d ∧ p.final j + d < p.final j + (p.row j).length := by
      omega
    simp only [here, next, first, length, copy_apply, if_pos range, Nat.add_sub_cancel_left]
    exact holds.slot d (by omega)
  · have range : ¬ (p.final j ≤ x ∧ x < p.final j + (p.row j).length) := by
      have step := p.final_succ low
      omega
    simp only [here, next, first, length, copy_apply, if_neg range, and_self]

theorem final_mono {j k : ℕ} (low : 1 ≤ j) (le : j ≤ k) : p.final j ≤ p.final k := by
  induction k, le using Nat.le_induction with
  | base => exact le_rfl
  | succ k le ih =>
      rw [p.final_succ (low.trans le)]
      exact ih.trans (Nat.le_add_right ..)

theorem Copied.of_same {k : ℕ} (copied : Copied p k m) (other : k ≠ j) (low : 1 ≤ j)
    (low' : 1 ≤ k) (same : ∀ x, x < p.final j ∨ p.final (j + 1) ≤ x →
      m'.colidx x = m.colidx x ∧ m'.a x = m.a x) : Copied p k m' := by
  intro d inside
  have step := p.final_succ low'
  have apart : p.final k + d < p.final j ∨ p.final (j + 1) ≤ p.final k + d := by
    rcases Nat.lt_or_gt_of_ne other with before | after
    · have order := final_mono (p := p) (j := k + 1) (k := j) (by omega) before
      omega
    · have order := final_mono (p := p) (j := j + 1) (k := k) (by omega) after
      omega
  rw [(same _ apart).1, (same _ apart).2]
  exact copied d inside

theorem compact_spec {order : List ℕ}
    (complete : Complete (fun j => 1 ≤ j ∧ j ≤ p.n) (fun j => [Problem.compactRow (K := K) j])
      order) (packed : Packed p m) :
    ∃ m', runSchedule (fun j => [Problem.compactRow j]) order m = .ok m' ∧ Packed p m' ∧
      ∀ j, 1 ≤ j → j ≤ p.n → Copied p j m' := by
  let A (j : ℕ) (left : List (Step K)) (m : Mem K) : Prop :=
    Packed p m ∧ (left = [Problem.compactRow j] ∨ left = [] ∧ Copied p j m)
  have step : ∀ j, 1 ≤ j ∧ j ≤ p.n → ∀ (first : Step K) rest m, A j (first :: rest) m →
      ∃ m', first m = .ok m' ∧ A j rest m' ∧
        ∀ k, 1 ≤ k ∧ k ≤ p.n → k ≠ j → ∀ left, A k left m → A k left m' := by
    rintro j ⟨low, high⟩ first rest m ⟨packed, start | ⟨stop, -⟩⟩
    · obtain ⟨rfl, rfl⟩ := List.cons.inj start
      obtain ⟨m', made, packed', copied, same⟩ := compactRow_spec packed low high
      refine ⟨m', made, ⟨packed', .inr ⟨rfl, copied⟩⟩, ?_⟩
      rintro k range other left ⟨-, notYet | ⟨done, there⟩⟩
      · exact ⟨packed', .inl notYet⟩
      · exact ⟨packed', .inr ⟨done, there.of_same other low range.1 same⟩⟩
    · cases stop
  obtain ⟨m', run, each⟩ := runSchedule_of_assertions step complete
    (fun j _ => ⟨packed, .inl rfl⟩)
  have copied : ∀ j, 1 ≤ j → j ≤ p.n → Copied p j m' := by
    intro j low high
    obtain ⟨-, start | ⟨-, there⟩⟩ := each j ⟨low, high⟩
    · cases start
    · exact there
  exact ⟨m', run, (each 1 ⟨le_rfl, p.positive⟩).1, copied⟩

structure Finished (p : Problem K) (m : Mem K) : Prop where
  pointers : ∀ x, 1 ≤ x → x ≤ p.n + 1 → m.rowstr x = p.final x
  copied : ∀ j, 1 ≤ j → j ≤ p.n → Copied p j m

theorem close_spec {order : List ℕ}
    (complete : Complete (fun j => 2 ≤ j ∧ j ≤ p.n + 1) (fun j => [Problem.closeRow (K := K) j])
      order) (packed : Packed p m) (copied : ∀ j, 1 ≤ j → j ≤ p.n → Copied p j m) :
    ∃ m', runSchedule (fun j => [Problem.closeRow j]) order m = .ok m' ∧ Finished p m' := by
  let A (j : ℕ) (left : List (Step K)) (x : Mem K) : Prop :=
    x.nzloc = m.nzloc ∧ x.colidx = m.colidx ∧ x.a = m.a ∧ x.rowstr 1 = 1 ∧
      (left = [Problem.closeRow j] ∧ x.rowstr j = p.start j ∨ left = [] ∧ x.rowstr j = p.final j)
  have step : ∀ j, 2 ≤ j ∧ j ≤ p.n + 1 → ∀ (first : Step K) rest x, A j (first :: rest) x →
      ∃ x', first x = .ok x' ∧ A j rest x' ∧
        ∀ k, 2 ≤ k ∧ k ≤ p.n + 1 → k ≠ j → ∀ left, A k left x → A k left x' := by
    rintro j ⟨low, high⟩ first rest x ⟨nzloc, colidx, a, one, ⟨start, here⟩ | ⟨stop, -⟩⟩
    · obtain ⟨rfl, rfl⟩ := List.cons.inj start
      have behind := packed.free (j - 1) (by omega) (by omega)
      rw [show j - 1 + 1 = j by omega] at behind
      have kept (v : ℕ) : Function.update x.rowstr j v 1 = 1 := by
        rw [Function.update_of_ne (by omega), one]
      refine ⟨_, rfl, ⟨nzloc, colidx, a, kept _, .inr ⟨rfl, ?_⟩⟩, ?_⟩
      · simp only [Function.update_self]
        rw [here, nzloc, behind, Nat.add_sub_cancel]
      · rintro k - other left ⟨-, -, -, -, now⟩
        refine ⟨nzloc, colidx, a, kept _, ?_⟩
        simp only [Function.update_of_ne other]
        exact now
    · cases stop
  have one : m.rowstr 1 = 1 := by
    rw [packed.pointers 1 le_rfl (by omega), p.start_one]
  obtain ⟨m', run, each⟩ := runSchedule_of_assertions step complete
    (fun j range => ⟨rfl, rfl, rfl, one, .inl ⟨rfl, packed.pointers j (by omega) range.2⟩⟩)
  have rows := p.positive
  obtain ⟨-, colidx, a, first, -⟩ := each 2 ⟨le_rfl, by omega⟩
  refine ⟨m', run, fun x low high => ?_, fun j low high d inside => ?_⟩
  · by_cases top : x = 1
    · rw [top, first]
      rfl
    · obtain ⟨-, -, -, -, ⟨start, -⟩ | ⟨-, here⟩⟩ := each x ⟨by omega, high⟩
      · cases start
      · exact here
  · rw [colidx, a]
    exact copied j low high d inside

end Compact

theorem sparse_finished {K : Type*} [CommRing K] {p : Problem K} {threads : ℕ}
    (team : Team p.n threads) (fits : p.nza ≤ p.nz) {o : Orders} (complete : p.Complete threads o)
    (m : Mem K) : ∃ m', p.sparse threads o m = .ok m' ∧ Finished p m' := by
  obtain ⟨m1, counting, counted⟩ := countRows_spec team complete.countRows m
  obtain ⟨m2, shifting, pointers⟩ := shiftRows_spec team complete.shiftRows counted
  obtain ⟨m3, assembling, pointers', rows⟩ := assemble_spec team complete.assemble pointers
  obtain ⟨m4, m5, summing, adding, sums, rowstr, slots⟩ :=
    free_spec team complete.countFree complete.shiftFree m3
  have packed := packed_of_rows pointers' rows sums rowstr slots
  obtain ⟨m6, compacting, packed', copied⟩ := compact_spec complete.compact packed
  obtain ⟨m7, closing, finished⟩ := close_spec complete.close packed' copied
  have space : ¬ m2.rowstr (p.n + 1) - 1 > p.nz := by
    rw [pointers (p.n + 1) (by omega) le_rfl]
    exact Nat.not_lt.mpr fits
  refine ⟨m7, ?_, finished⟩
  rw [Problem.sparse, counting]
  simp only [bind, Except.bind, shifting, if_neg space, assembling, summing, adding, compacting,
    closing]

end Baseliner.CgAssembly
