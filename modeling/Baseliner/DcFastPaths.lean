import Baseliner.DcMerge

/-! The views of the build with `OPTIMIZATION`. `PrefixedAggregate` makes a view whose
attributes are the first ones of its parent, by adding up equal rows as they come;
`SharedSortAggregate` makes one that begins with the parent's first attribute, and takes
the rows with one value of it at a time. -/

namespace Baseliner.DcFastPaths

open PathTree KeyedSums RunMerge DcTree DcRuns DcMerge

def ADC_WRITE_FAILED : Nat := 1

/-- `exit(1)` of the program. -/
def exitCode : Nat := 1

variable {nm : Nat}

section Prefixed

/-- `PrefixedAggregate` in the course of its loop; `nOut` rows are in the pool. -/
structure Prefixed (nm : Nat) where
  aggrBuf : Row nm
  prevBuf : Row nm
  memPool : List (Row nm)
  written : Written nm

variable (memoryLimit outRecSize : Nat)

def Prefixed.emit (p : Prefixed nm) : Outcome (Prefixed nm) :=
  if memoryLimit < (p.memPool.length + 1) * outRecSize then .undefined
  else .ok { p with
    memPool := p.memPool ++ [p.aggrBuf]
    written := { p.written with
      checksums := fun i => p.written.checksums i +
        (↑(p.memPool.length + 1) * p.aggrBuf.2 i).tmod measbound } }

def Prefixed.store (p : Prefixed nm) : Prefixed nm :=
  { p with
    memPool := []
    written := { p.written with
      rows := p.written.rows ++ p.memPool
      nViewRows := p.written.nViewRows + p.memPool.length } }

/-- A full pool is stored, and `nOut` begins anew; a write of no bytes is an error. -/
def Prefixed.flush (p : Prefixed nm) : Outcome (Prefixed nm) :=
  if p.memPool.length = memoryLimit / outRecSize then
    if p.memPool.length = 0 then .error ADC_WRITE_FAILED else .ok p.store
  else .ok p

def Prefixed.add (p : Prefixed nm) (currBuf : Row nm) : Outcome (Prefixed nm) :=
  if keyComp currBuf.1 p.prevBuf.1 = 1 then
    (p.emit memoryLimit outRecSize).bind fun p => .ok { p with aggrBuf := currBuf }
  else if keyComp currBuf.1 p.prevBuf.1 = 0 then
    .ok { p with aggrBuf := (p.aggrBuf.1, p.aggrBuf.2 + currBuf.2) }
  else .error exitCode

def Prefixed.addAll : List (Row nm) → Prefixed nm → Outcome (Prefixed nm)
  | [], p => .ok p
  | currBuf :: rows, p =>
      ((p.add memoryLimit outRecSize currBuf).bind fun p =>
        (p.flush memoryLimit outRecSize).bind fun p => .ok { p with prevBuf := currBuf }).bind
          (addAll rows)

end Prefixed

/-- Without a row the buffer is still written, with zeros. The loop is as endless as that
of `RunFormation` over the most rows that can be told. -/
def prefixedAggregate (memoryLimit nv : Nat) (rows : List (Row nm)) : Outcome (Written nm) :=
  let outRecSize := getRecSize nv nm
  let zeros : Row nm := (List.replicate nv 0, 0)
  let first := rows.headD zeros
  (Prefixed.addAll memoryLimit outRecSize rows.tail
    ⟨first, first, [], ⟨[], 0, fun _ => 0⟩⟩).bind fun p =>
  if rows.length = 2 ^ 32 - 1 then .undefined
  else (p.emit memoryLimit outRecSize).bind fun p => .ok p.store.written

section SharedSort

/-- `SharedSortAggregate` in the course of its loop. The chunk file is written from where
the last read has ended, once chunks have been merged. -/
structure SharedSort (nm : Nat) where
  form : Formation nm
  merged : Bool
  written : Written nm
  ordern : Nat
  prevV : Option Nat

variable (memoryLimit nv : Nat)

def SharedSort.insert (s : SharedSort nm) (currBuf : Row nm) : Outcome (SharedSort nm) :=
  match treeInsert memoryLimit (treeNodeSize nv nm) s.form.tree currBuf with
  | none => .undefined
  | some tree =>
      if tree.memoryIsFull then
        if MAX_NUM_OF_CHUNKS ≤ s.form.numberOfChunks then .undefined
        else if MAX_NUM_OF_CHUNKS ≤ s.form.numberOfChunks + 1 then .error exitCode
        else if s.merged then .undefined
        else
          let form := { s.form with tree := tree }
          .ok { s with
            form := { form.addChunk (getRecSize nv nm) with tree := emptyTree memoryLimit nv } }
      else .ok { s with form := { s.form with tree := tree } }

def SharedSort.enter (s : SharedSort nm) (tree : RBTree nm) (currV : Nat) : SharedSort nm :=
  { s with form := { s.form with tree := tree }, prevV := some currV }

/-- The first row with its first attribute; the tree may be full with it. -/
def SharedSort.begin (s : SharedSort nm) (currBuf : Row nm) : Outcome (SharedSort nm) :=
  match treeInsert memoryLimit (treeNodeSize nv nm) (emptyTree memoryLimit nv) currBuf with
  | none => .undefined
  | some tree => .ok (s.enter tree (currBuf.1.headD 0))

/-- The rows of the tree as a last chunk, when there are chunks. -/
def SharedSort.lastChunk (s : SharedSort nm) : Outcome (SharedSort nm) :=
  if s.form.numberOfChunks ≠ 0 ∧ s.form.tree.count ≠ 0 then
    if MAX_NUM_OF_CHUNKS ≤ s.form.numberOfChunks ∨ s.merged then .undefined
    else .ok { s with form := s.form.addChunk (getRecSize nv nm) }
  else .ok s

def SharedSort.close (s : SharedSort nm) : Outcome (SharedSort nm) :=
  (s.lastChunk nv).bind fun s =>
    if s.form.numberOfChunks = 0 then
      let w := writeViewToDiskCS s.form.tree.root
        ({ s.written with nViewRows := s.written.nViewRows + s.form.tree.count }, s.ordern)
      .ok { s with written := w.1, ordern := w.2 }
    else (multiWayMerge memoryLimit nv s.form s.written).bind fun w =>
      .ok { s with written := w, merged := true }

def SharedSort.add (s : SharedSort nm) (currBuf : Row nm) : Outcome (SharedSort nm) :=
  if s.prevV = none then s.begin memoryLimit nv currBuf
  else if s.prevV = some (currBuf.1.headD 0) then s.insert memoryLimit nv currBuf
  else (s.close memoryLimit nv).bind fun s => s.begin memoryLimit nv currBuf

def SharedSort.addAll : List (Row nm) → SharedSort nm → Outcome (SharedSort nm)
  | [], s => .ok s
  | currBuf :: rows, s => (s.add memoryLimit nv currBuf).bind (addAll rows)

/-- `left` is the tree of the view before, which is still there when no row comes. -/
def startSharedSort (left : RBTree nm) : SharedSort nm :=
  ⟨{ (startFormation memoryLimit nv : Formation nm) with tree := left }, false,
    ⟨[], 0, fun _ => 0⟩, 0, none⟩

end SharedSort

def sharedSortAggregate (memoryLimit nv : Nat) (left : RBTree nm) (rows : List (Row nm)) :
    Outcome (Written nm) :=
  (SharedSort.addAll memoryLimit nv rows (startSharedSort memoryLimit nv left)).bind fun s =>
    (s.close memoryLimit nv).bind fun s => .ok s.written

section PrefixedRows

variable {memoryLimit outRecSize nv : Nat} {total rest : List (Row nm)} {p : Prefixed nm}
  {o : Output (List Nat) (Fin nm → Int)}

/-- The rows of the pool are the finished ones, and none has gone to the file. -/
structure Collected (nv : Nat) (total rest : List (Row nm))
    (o : Output (List Nat) (Fin nm → Int)) (p : Prefixed nm) : Prop where
  merging : Merging total rest o
  last : o.last = some p.aggrBuf
  prev : p.prevBuf.1 = p.aggrBuf.1
  pool : p.memPool = o.done
  written : p.written = ⟨[], 0, (mergeView o.done).checksums⟩
  keys : ∀ r ∈ p.aggrBuf :: rest, r.1.length = nv

theorem Collected.room (h : Collected nv total rest o p)
    (fits : (groupBy total).length ≤ memoryLimit / outRecSize) :
    p.memPool.length < memoryLimit / outRecSize := by
  have count : o.rows.length ≤ (groupBy total).length := by
    refine h.merging.ascending.length_le_groupBy ?_
    intro r hr
    refine (h.merging.same.keys r.1).mp (List.mem_map_of_mem ?_)
    exact List.mem_append_left _ hr
  rw [Output.rows, h.last, List.length_append] at count
  rw [h.pool]
  simp only [Option.toList_some, List.length_singleton] at count
  omega

theorem Collected.emit (size : 0 < outRecSize) (h : Collected nv total rest o p)
    (fits : (groupBy total).length ≤ memoryLimit / outRecSize) :
    p.emit memoryLimit outRecSize = .ok { p with
      memPool := o.done ++ [p.aggrBuf]
      written := ⟨[], 0, (mergeView (o.done ++ [p.aggrBuf])).checksums⟩ } := by
  have room : (p.memPool.length + 1) * outRecSize ≤ memoryLimit :=
    (Nat.le_div_iff_mul_le size).mp (h.room fits)
  have sums : (mergeView (o.done ++ [p.aggrBuf])).checksums = fun i =>
      (mergeView o.done).checksums i +
        (↑(p.memPool.length + 1) * p.aggrBuf.2 i).tmod measbound := by
    rw [mergeView, List.foldl_append, ← mergeView, h.pool, ← nViewRows_mergeView o.done]
    rfl
  rw [Prefixed.emit, if_neg (by omega), sums, h.written, h.pool]

theorem Collected.add (size : 0 < outRecSize) {currBuf : Row nm}
    (h : Collected nv total (currBuf :: rest) o p)
    (fits : (groupBy total).length ≤ memoryLimit / outRecSize)
    (least : ∀ x ∈ rest, currBuf.1 ≤ x.1) :
    ∃ p', ((p.add memoryLimit outRecSize currBuf).bind fun p =>
        (p.flush memoryLimit outRecSize).bind fun p => .ok { p with prevBuf := currBuf }) =
          .ok p' ∧ Collected nv total rest (o.put currBuf) p' := by
  have put := h.merging.put least
  have up := h.merging.below _ h.last currBuf (List.mem_cons_self ..)
  have keys := h.keys
  rw [List.forall_mem_cons, List.forall_mem_cons] at keys
  have length : currBuf.1.length = p.prevBuf.1.length := by
    rw [h.prev, keys.1, keys.2.1]
  have emitted := h.emit size fits
  by_cases same : p.aggrBuf.1 = currBuf.1
  · have next : o.put currBuf = ⟨o.done, some (p.aggrBuf.1, p.aggrBuf.2 + currBuf.2)⟩ := by
      rw [Output.put, h.last]
      exact if_pos same
    have zero : keyComp currBuf.1 p.prevBuf.1 = 0 := by
      rw [keyComp_eq_zero_iff length, h.prev, same]
    rw [next] at put ⊢
    have notFull := h.room fits
    rw [Prefixed.add, if_neg (by rw [zero]; decide), if_pos zero, Outcome.bind, Prefixed.flush,
      if_neg (by dsimp only; omega)]
    refine ⟨_, rfl, put, rfl, same.symm, h.pool, h.written, ?_⟩
    rw [List.forall_mem_cons]
    exact ⟨keys.1, keys.2.2⟩
  · have next : o.put currBuf = ⟨o.done ++ [p.aggrBuf], some currBuf⟩ := by
      rw [Output.put, h.last]
      exact if_neg same
    have one : keyComp currBuf.1 p.prevBuf.1 = 1 := by
      rw [keyComp_eq_one_iff length, h.prev]
      exact lt_of_le_of_ne up same
    rw [next] at put ⊢
    have collected : Collected nv total rest ⟨o.done ++ [p.aggrBuf], some currBuf⟩
        ⟨currBuf, currBuf, o.done ++ [p.aggrBuf],
          ⟨[], 0, (mergeView (o.done ++ [p.aggrBuf])).checksums⟩⟩ := by
      refine ⟨put, rfl, rfl, rfl, rfl, ?_⟩
      rw [List.forall_mem_cons]
      exact keys.2
    have notFull := collected.room fits
    rw [Prefixed.add, if_pos one, emitted, Outcome.bind, Outcome.bind, Prefixed.flush,
      if_neg (by dsimp only at notFull ⊢; omega)]
    exact ⟨_, rfl, collected⟩

theorem Collected.addAll (size : 0 < outRecSize) (h : Collected nv total rest o p)
    (fits : (groupBy total).length ≤ memoryLimit / outRecSize)
    (sorted : rest.Pairwise fun x y => x.1 ≤ y.1) :
    ∃ p' o', Prefixed.addAll memoryLimit outRecSize rest p = .ok p' ∧
      Collected nv total [] o' p' := by
  induction rest generalizing p o with
  | nil => exact ⟨p, o, rfl, h⟩
  | cons currBuf rest ih =>
      rw [List.pairwise_cons] at sorted
      obtain ⟨p', added, next⟩ := h.add size fits sorted.1
      rw [Prefixed.addAll, added, Outcome.bind]
      exact ih next sorted.2

/-- Rows in order that fit in the pool make the view that the merge makes. -/
theorem prefixedAggregate_spec (size : 0 < getRecSize nv nm) (some_ : total ≠ [])
    (short : total.length ≠ 2 ^ 32 - 1) (sorted : total.Pairwise fun x y => x.1 ≤ y.1)
    (keys : ∀ r ∈ total, r.1.length = nv)
    (fits : (groupBy total).length ≤ memoryLimit / getRecSize nv nm) :
    prefixedAggregate memoryLimit nv total = .ok (mergeView (groupBy total)) := by
  cases total with
  | nil => exact absurd rfl some_
  | cons first rest =>
      rw [List.pairwise_cons] at sorted
      have start : Collected nv (first :: rest) rest ⟨[], some first⟩
          ⟨first, first, [], ⟨[], 0, fun _ => 0⟩⟩ :=
        ⟨(merging_start (first :: rest)).put sorted.1, rfl, rfl, rfl, rfl, keys⟩
      obtain ⟨p, o, added, ends⟩ := start.addAll size fits sorted.2
      have grouped := ends.merging.rows_eq
      rw [Output.rows, ends.last, Option.toList_some] at grouped
      rw [prefixedAggregate, List.headD_cons, List.tail_cons, added, Outcome.bind, if_neg short,
        ends.emit size fits, Outcome.bind, grouped]
      refine congrArg Outcome.ok (Written.ext ?_ ?_ rfl)
      · simp [Prefixed.store]
      · simp [Prefixed.store]

end PrefixedRows

section Partitions

variable {memoryLimit nv : Nat} {total closed part rest : List (Row nm)} {s : SharedSort nm}
  {v : Nat}

theorem lt_of_headD_lt {a b : List Nat} (a_some : a ≠ []) (b_some : b ≠ [])
    (less : a.headD 0 < b.headD 0) : a < b := by
  cases a with
  | nil => exact absurd rfl a_some
  | cons x xs =>
      cases b with
      | nil => exact absurd rfl b_some
      | cons y ys => exact List.cons_lt_cons_iff.mpr (.inl less)

/-- The rows in `closed` are written, those in `part` share their first attribute and are
in the tree, and there is no chunk. -/
structure Parted (memoryLimit nv : Nat) (closed part : List (Row nm)) (v : Nat)
    (s : SharedSort nm) : Prop where
  noChunks : s.form.numberOfChunks = 0
  tree : Holds memoryLimit (treeNodeSize nv nm) nv s.form.tree (groupBy part)
  written : s.written = treeView (groupBy closed)
  ordern : s.ordern = (groupBy closed).length * nm
  prev : s.prevV = some v
  some_ : part ≠ []
  heads : ∀ r ∈ part, r.1.headD 0 = v
  before : ∀ r ∈ closed, r.1.headD 0 < v
  keys : ∀ r ∈ closed ++ part, r.1.length = nv

theorem Parted.groupBy_eq (dims : 0 < nv) (h : Parted memoryLimit nv closed part v s) :
    groupBy (closed ++ part) = groupBy closed ++ groupBy part := by
  have some_ : ∀ r ∈ closed ++ part, r.1 ≠ [] := by
    intro r hr none
    have := h.keys r hr
    rw [none] at this
    exact absurd this.symm (Nat.ne_of_gt dims)
  refine groupBy_append ?_
  intro x hx y hy
  refine lt_of_headD_lt (some_ x (List.mem_append_left _ hx))
    (some_ y (List.mem_append_right _ hy)) ?_
  rw [h.heads y hy]
  exact h.before x hx

theorem Parted.close (dims : 0 < nv) (h : Parted memoryLimit nv closed part v s) :
    ∃ s', s.close memoryLimit nv = .ok s' ∧ s'.form = s.form ∧
      s'.written = treeView (groupBy (closed ++ part)) ∧
      s'.ordern = (groupBy (closed ++ part)).length * nm := by
  have both := foldl_writeRow_treeView (groupBy closed) (groupBy part)
  rw [SharedSort.close, SharedSort.lastChunk, if_neg (by rw [h.noChunks]; simp), Outcome.bind,
    if_pos h.noChunks]
  dsimp only
  rw [writeViewToDiskCS_eq, h.tree.entries, h.tree.count, h.written, h.ordern,
    nViewRows_treeView, both, ← h.groupBy_eq dims]
  exact ⟨_, rfl, rfl, rfl, rfl⟩

theorem begin_spec (limit : memoryLimit < 2 ^ 32) (s : SharedSort nm) {currBuf : Row nm}
    (key : currBuf.1.length = nv) (room : 1 ≤ memoryLimit / treeNodeSize nv nm) :
    ∃ tree, s.begin memoryLimit nv currBuf = .ok (s.enter tree (currBuf.1.headD 0)) ∧
      Holds memoryLimit (treeNodeSize nv nm) nv tree [currBuf] := by
  have start : Holds memoryLimit (treeNodeSize nv nm) nv
      (emptyTree memoryLimit nv : RBTree nm) [] := holds_initializeTree ..
  obtain ⟨tree, inserted, holds⟩ := start.insert limit (le_treeNodeSize nv nm) key room
  rw [SharedSort.begin, inserted]
  exact ⟨tree, rfl, holds⟩

theorem add_first (memoryLimit nv : Nat) (left : RBTree nm) (currBuf : Row nm) :
    (startSharedSort memoryLimit nv left).add memoryLimit nv currBuf =
      (startSharedSort memoryLimit nv left).begin memoryLimit nv currBuf :=
  if_pos rfl

theorem Parted.add (dims : 0 < nv) (limit : memoryLimit < 2 ^ 32)
    (h : Parted memoryLimit nv closed part v s) {currBuf : Row nm}
    (key : currBuf.1.length = nv) (up : v ≤ currBuf.1.headD 0)
    (same : currBuf.1.headD 0 = v →
      (groupBy (part ++ [currBuf])).length < memoryLimit / treeNodeSize nv nm)
    (new : 1 ≤ memoryLimit / treeNodeSize nv nm) :
    ∃ s' closed' part', s.add memoryLimit nv currBuf = .ok s' ∧
      closed' ++ part' = closed ++ part ++ [currBuf] ∧
      Parted memoryLimit nv closed' part' (currBuf.1.headD 0) s' := by
  have keys : ∀ r ∈ closed ++ part ++ [currBuf], r.1.length = nv := by
    intro r hr
    rcases List.mem_append.mp hr with old | here
    · exact h.keys r old
    · rw [List.mem_singleton.mp here, key]
  rw [SharedSort.add, if_neg (by rw [h.prev]; simp)]
  by_cases equal : v = currBuf.1.headD 0
  · have room := same equal.symm
    rw [groupBy_concat] at room
    obtain ⟨tree, inserted, holds⟩ := h.tree.insert limit (le_treeNodeSize nv nm) key room.le
    have notFull : tree.memoryIsFull = false := by
      rw [Bool.eq_false_iff]
      intro full
      have := (holds.full.mp full).2
      omega
    have heads : ∀ r ∈ part ++ [currBuf], r.1.headD 0 = currBuf.1.headD 0 := by
      intro r hr
      rcases List.mem_append.mp hr with old | here
      · rw [h.heads r old, equal]
      · rw [List.mem_singleton.mp here]
    rw [if_pos (by rw [h.prev, equal]), SharedSort.insert, inserted]
    dsimp only
    rw [if_neg (by rw [notFull]; decide)]
    refine ⟨_, closed, part ++ [currBuf], rfl, (List.append_assoc ..).symm, ?_⟩
    refine ⟨h.noChunks, ?_, h.written, h.ordern, ?_, by simp, heads, ?_, ?_⟩
    · rw [groupBy_concat]
      exact holds
    · rw [← equal]
      exact h.prev
    · rw [← equal]
      exact h.before
    · rw [← List.append_assoc]
      exact keys
  · obtain ⟨s', closes, form, written, ordern⟩ := h.close dims
    obtain ⟨tree, begins, holds⟩ := begin_spec limit s' key new
    rw [if_neg (by rw [h.prev]; simpa using equal), closes, Outcome.bind, begins]
    refine ⟨_, closed ++ part, [currBuf], rfl, rfl, ?_, holds, written, ordern, rfl, by simp,
      by simp, ?_, keys⟩
    · rw [SharedSort.enter, form]
      exact h.noChunks
    · intro r hr
      have less : v < currBuf.1.headD 0 := lt_of_le_of_ne up equal
      rcases List.mem_append.mp hr with early | late
      · exact (h.before r early).trans less
      · rw [h.heads r late]
        exact less

def withHead (total : List (Row nm)) (r : Row nm) : List (Row nm) :=
  total.filter fun x => x.1.headD 0 = r.1.headD 0

/-- The rows with one first attribute are one row, or leave room in the tree. -/
def SmallParts (memoryLimit nv : Nat) (total : List (Row nm)) : Prop :=
  ∀ r ∈ total, (withHead total r).length = 1 ∨
    (groupBy (withHead total r)).length < memoryLimit / treeNodeSize nv nm

instance (memoryLimit nv : Nat) (total : List (Row nm)) :
    Decidable (SmallParts memoryLimit nv total) :=
  inferInstanceAs (Decidable (∀ r ∈ total, _ ∨ _))

theorem Parted.sublist {currBuf : Row nm} (h : Parted memoryLimit nv closed part v s)
    (all : closed ++ part ++ currBuf :: rest = total) (equal : currBuf.1.headD 0 = v) :
    (part ++ [currBuf]).Sublist (withHead total currBuf) := by
  have own : (part ++ [currBuf]).filter (fun x => x.1.headD 0 = currBuf.1.headD 0) =
      part ++ [currBuf] := by
    refine List.filter_eq_self.mpr ?_
    intro r hr
    rcases List.mem_append.mp hr with old | new
    · rw [h.heads r old, equal]
      simp
    · rw [List.mem_singleton.mp new]
      simp
  have within : (part ++ [currBuf]).Sublist total := by
    rw [← all, List.append_assoc]
    refine List.Sublist.trans ?_ (List.sublist_append_right ..)
    exact ((List.Sublist.refl part).append (List.singleton_sublist.mpr (List.mem_cons_self ..)))
  have filtered := within.filter fun x => decide (x.1.headD 0 = currBuf.1.headD 0)
  rwa [own] at filtered

theorem Parted.addAll (dims : 0 < nv) (limit : memoryLimit < 2 ^ 32)
    (room : 1 ≤ memoryLimit / treeNodeSize nv nm) (h : Parted memoryLimit nv closed part v s)
    (all : closed ++ part ++ rest = total) (keys : ∀ r ∈ total, r.1.length = nv)
    (sorted : rest.Pairwise fun x y => x.1.headD 0 ≤ y.1.headD 0)
    (up : ∀ r ∈ rest, v ≤ r.1.headD 0) (small : SmallParts memoryLimit nv total) :
    ∃ s' closed' part' v', SharedSort.addAll memoryLimit nv rest s = .ok s' ∧
      closed' ++ part' = total ∧ Parted memoryLimit nv closed' part' v' s' := by
  induction rest generalizing closed part v s with
  | nil =>
      rw [List.append_nil] at all
      exact ⟨s, closed, part, v, rfl, all, h⟩
  | cons currBuf rest ih =>
      rw [List.pairwise_cons] at sorted
      rw [List.forall_mem_cons] at up
      have here : currBuf ∈ total := by
        rw [← all]
        simp
      have same (equal : currBuf.1.headD 0 = v) :
          (groupBy (part ++ [currBuf])).length < memoryLimit / treeNodeSize nv nm := by
        have among := h.sublist all equal
        have two : 2 ≤ (withHead total currBuf).length := by
          have := among.length_le
          have := List.length_pos_iff.mpr h.some_
          rw [List.length_append, List.length_singleton] at *
          omega
        refine lt_of_le_of_lt ((ascending_groupBy _).length_le_groupBy ?_)
          ((small currBuf here).resolve_left (by omega))
        intro r hr
        obtain ⟨x, hx, key⟩ := List.mem_map.mp (mem_groupBy_key.mp (List.mem_map_of_mem hr))
        rw [← key]
        exact List.mem_map_of_mem (among.subset hx)
      obtain ⟨s', closed', part', added, split, next⟩ :=
        h.add dims limit (keys currBuf here) up.1 same room
      rw [SharedSort.addAll, added, Outcome.bind]
      refine ih next ?_ sorted.2 sorted.1
      rw [split, ← all]
      simp

/-- When no first attribute fills the tree, the rows are written as from one tree. -/
theorem sharedSortAggregate_parts (dims : 0 < nv) (limit : memoryLimit < 2 ^ 32)
    (room : 1 ≤ memoryLimit / treeNodeSize nv nm) (left : RBTree nm) (some_ : total ≠ [])
    (keys : ∀ r ∈ total, r.1.length = nv)
    (sorted : total.Pairwise fun x y => x.1.headD 0 ≤ y.1.headD 0)
    (small : SmallParts memoryLimit nv total) :
    sharedSortAggregate memoryLimit nv left total = .ok (treeView (groupBy total)) := by
  cases total with
  | nil => exact absurd rfl some_
  | cons first rest =>
      rw [List.pairwise_cons] at sorted
      have key := keys first (List.mem_cons_self ..)
      obtain ⟨tree, begins, holds⟩ :=
        begin_spec limit (startSharedSort memoryLimit nv left) key room
      have parted : Parted memoryLimit nv [] [first] (first.1.headD 0)
          ((startSharedSort memoryLimit nv left).enter tree (first.1.headD 0)) := by
        refine ⟨rfl, holds, rfl, ?_, rfl, by simp, by simp, by simp, by simpa using key⟩
        simp [groupBy, startSharedSort, SharedSort.enter]
      have all : [] ++ [first] ++ rest = first :: rest := rfl
      obtain ⟨s', closed, part, v, added, split, ends⟩ :=
        parted.addAll dims limit room all keys sorted.2 sorted.1 small
      obtain ⟨s'', closes, _, written, _⟩ := ends.close dims
      rw [sharedSortAggregate, SharedSort.addAll, add_first, begins, Outcome.bind,
        added, Outcome.bind, closes, Outcome.bind, written, split]

end Partitions

section OnePart

variable {memoryLimit nv : Nat} {total done rest rows : List (Row nm)} {s : SharedSort nm}
  {chunks : List (List (Row nm))} {v : Nat}

theorem insert_ok (few : s.form.numberOfChunks < MAX_NUM_OF_CHUNKS) (fresh : s.merged = false)
    {currBuf : Row nm} {f : Formation nm}
    (inserted : s.form.insert memoryLimit nv currBuf = .ok f) :
    s.insert memoryLimit nv currBuf = .ok { s with form := f } := by
  rw [Formation.insert] at inserted
  rw [SharedSort.insert]
  cases entered : treeInsert memoryLimit (treeNodeSize nv nm) s.form.tree currBuf with
  | none =>
      rw [entered] at inserted
      cases inserted
  | some tree =>
      rw [entered] at inserted
      dsimp only [Formation.checkFull] at inserted ⊢
      by_cases full : tree.memoryIsFull = true
      · rw [if_pos full] at inserted ⊢
        rw [if_neg (by omega)]
        by_cases many : MAX_NUM_OF_CHUNKS ≤ s.form.numberOfChunks + 1
        · rw [if_pos many] at inserted
          cases inserted
        · rw [if_neg many] at inserted
          rw [if_neg many, if_neg (by rw [fresh]; decide)]
          cases inserted
          rfl
      · rw [if_neg full] at inserted ⊢
        cases inserted
        rfl

theorem insert_error (few : s.form.numberOfChunks < MAX_NUM_OF_CHUNKS) {currBuf : Row nm}
    {retCode : Nat} (failed : s.form.insert memoryLimit nv currBuf = .error retCode) :
    s.insert memoryLimit nv currBuf = .error exitCode := by
  rw [Formation.insert] at failed
  rw [SharedSort.insert]
  cases entered : treeInsert memoryLimit (treeNodeSize nv nm) s.form.tree currBuf with
  | none =>
      rw [entered] at failed
      cases failed
  | some tree =>
      rw [entered] at failed
      dsimp only [Formation.checkFull] at failed ⊢
      split_ifs at failed ⊢ with full many
      · omega
      · rfl

/-- The only part so far: nothing is written, and the rows are where `RunFormation` would
have them. -/
structure OnePart (memoryLimit nv : Nat) (done : List (Row nm)) (v : Nat) (s : SharedSort nm) :
    Prop where
  formed : ∃ chunks rows, Formed memoryLimit nv done chunks rows s.form
  fresh : s.merged = false
  written : s.written = ⟨[], 0, fun _ => 0⟩
  ordern : s.ordern = 0
  prev : s.prevV = some v

theorem OnePart.few (h : OnePart memoryLimit nv done v s) :
    s.form.numberOfChunks < MAX_NUM_OF_CHUNKS := by
  obtain ⟨chunks, rows, formed⟩ := h.formed
  rw [formed.chunked.number]
  exact formed.few

theorem OnePart.add (limit : memoryLimit < 2 ^ 32) (h : OnePart memoryLimit nv done v s)
    {currBuf : Row nm} (key : currBuf.1.length = nv) (same : currBuf.1.headD 0 = v) :
    s.add memoryLimit nv currBuf = .error exitCode ∨
      ∃ s', s.add memoryLimit nv currBuf = .ok s' ∧
        OnePart memoryLimit nv (done ++ [currBuf]) v s' := by
  obtain ⟨chunks, rows, formed⟩ := h.formed
  rw [SharedSort.add, if_neg (by rw [h.prev]; simp), if_pos (by rw [h.prev, same])]
  rcases formed.insert limit key with ⟨failed, _⟩ | ⟨f, chunks', rows', inserted, next, _⟩
  · exact .inl (insert_error h.few failed)
  · exact .inr ⟨_, insert_ok h.few h.fresh inserted, ⟨chunks', rows', next⟩, h.fresh, h.written,
      h.ordern, h.prev⟩

theorem OnePart.addAll (limit : memoryLimit < 2 ^ 32) (h : OnePart memoryLimit nv done v s)
    (keys : ∀ r ∈ rest, r.1.length = nv) (same : ∀ r ∈ rest, r.1.headD 0 = v) :
    SharedSort.addAll memoryLimit nv rest s = .error exitCode ∨
      ∃ s', SharedSort.addAll memoryLimit nv rest s = .ok s' ∧
        OnePart memoryLimit nv (done ++ rest) v s' := by
  induction rest generalizing done s with
  | nil => exact .inr ⟨s, rfl, by rwa [List.append_nil]⟩
  | cons currBuf rest ih =>
      rw [List.forall_mem_cons] at keys same
      rw [SharedSort.addAll]
      rcases h.add limit keys.1 same.1 with failed | ⟨s', added, next⟩
      · left
        rw [failed]
        rfl
      · rw [added, Outcome.bind]
        have all := ih next keys.2 same.2
        rwa [List.append_assoc] at all

theorem OnePart.lastChunk (h : OnePart memoryLimit nv done v s) :
    s.lastChunk nv = .ok { s with form := s.form.lastChunk (getRecSize nv nm) } := by
  have few := h.few
  have open_ : ¬(MAX_NUM_OF_CHUNKS ≤ s.form.numberOfChunks ∨ s.merged = true) := by
    rw [h.fresh]
    simp
    omega
  rw [SharedSort.lastChunk, Formation.lastChunk]
  split_ifs
  · rfl
  · rfl

theorem OnePart.close (size : 0 < getRecSize nv nm) (h : OnePart memoryLimit nv done v s) :
    s.close memoryLimit nv = .error ADC_INTERNAL_ERROR ∨ ∃ s', s.close memoryLimit nv = .ok s' ∧
      ((groupBy done).length < memoryLimit / treeNodeSize nv nm ∧
          s'.written = treeView (groupBy done) ∨
        memoryLimit / treeNodeSize nv nm ≤ (groupBy done).length ∧
          s'.written = mergeView (groupBy done)) := by
  obtain ⟨chunks, rows, formed⟩ := h.formed
  have ending := formed.lastChunk
  rw [SharedSort.close, h.lastChunk, Outcome.bind]
  generalize s.form.lastChunk (getRecSize nv nm) = f at ending ⊢
  cases ending with
  | tree number holds notFull =>
      refine .inr ⟨_, if_pos number, .inl ⟨notFull, ?_⟩⟩
      dsimp only
      rw [writeViewToDiskCS_eq, holds.entries, holds.count, h.written, h.ordern, Nat.zero_add]
      rfl
  | chunks chunks some_ chunked same many =>
      have number : f.numberOfChunks ≠ 0 := by
        rw [chunked.number]
        exact fun none => some_ (List.length_eq_zero_iff.mp none)
      rw [if_neg number]
      dsimp only
      rw [h.written]
      rcases multiWayMerge_spec size chunked some_ same ⟨[], 0, fun _ => 0⟩ with
        ⟨failed, _⟩ | merged
      · left
        rw [failed]
        rfl
      · right
        rw [merged]
        exact ⟨_, rfl, .inr ⟨many, rfl⟩⟩

/-- A tree of one node is full with its first row; a second row of the same key makes the chunk. -/
theorem insert_second (limit : memoryLimit < 2 ^ 32) (one : memoryLimit / treeNodeSize nv nm = 1)
    {tree : RBTree nm} {first second : Row nm}
    (holds : Holds memoryLimit (treeNodeSize nv nm) nv tree [first]) (key : second.1.length = nv)
    (same : second.1 = first.1) :
    ∃ f, Formation.insert memoryLimit nv
        { (startFormation memoryLimit nv : Formation nm) with tree := tree } second = .ok f ∧
      Formed memoryLimit nv [first, second] [insertRow second [first]] [] f := by
  have length : (insertRow second [first]).length = 1 := by simp [insertRow, same]
  have some_ : insertRow second [first] ≠ [] := List.ne_nil_of_length_eq_add_one length
  obtain ⟨tree', inserted, holds'⟩ := holds.insert limit (le_treeNodeSize nv nm) key
    (by rw [length, one])
  have full := holds'.full.mpr ⟨some_, by rw [length, one]⟩
  have chunked := ((chunked_start memoryLimit nv).setTree tree').addChunk holds' some_
  refine ⟨_, ?_, chunked.setTree (emptyTree memoryLimit nv), ?_, ?_, ?_, ?_, ?_⟩
  · rw [Formation.insert, inserted]
    dsimp only
    rw [Formation.checkFull, if_pos full, if_neg (by simp [startFormation, MAX_NUM_OF_CHUNKS])]
  · simp [MAX_NUM_OF_CHUNKS]
  · exact holds_initializeTree ..
  · rw [one]
    exact Nat.zero_lt_one
  · rw [List.append_nil, List.flatten_singleton]
    exact (same_insertRow second [first]).trans (.of_perm (List.Perm.swap ..))
  · intro _
    rw [one]
    exact length_groupBy_le [first] second

/-- The tree has room for two rows, or a second row goes to the node of the first one. -/
def SecondFits (memoryLimit nv : Nat) (rows : List (Row nm)) : Prop :=
  2 ≤ memoryLimit / treeNodeSize nv nm ∨ memoryLimit / treeNodeSize nv nm = 1 ∧
    2 ≤ rows.length ∧ rows[1]?.map Prod.fst = rows[0]?.map Prod.fst

instance (memoryLimit nv : Nat) (rows : List (Row nm)) :
    Decidable (SecondFits memoryLimit nv rows) :=
  inferInstanceAs (Decidable (_ ∨ _))

theorem onePart_start (limit : memoryLimit < 2 ^ 32) (left : RBTree nm) (some_ : total ≠ [])
    (fits : SecondFits memoryLimit nv total) (keys : ∀ r ∈ total, r.1.length = nv)
    (same : ∀ r ∈ total, r.1.headD 0 = v) :
    ∃ front rest s, total = front ++ rest ∧ OnePart memoryLimit nv front v s ∧
      SharedSort.addAll memoryLimit nv total (startSharedSort memoryLimit nv left) =
        SharedSort.addAll memoryLimit nv rest s := by
  cases total with
  | nil => exact absurd rfl some_
  | cons first rest =>
      rw [List.forall_mem_cons] at keys same
      have room : 1 ≤ memoryLimit / treeNodeSize nv nm := by
        rcases fits with two | ⟨one, _⟩ <;> omega
      obtain ⟨tree, begins, holds⟩ := begin_spec limit (startSharedSort memoryLimit nv left)
        keys.1 room
      rw [SharedSort.addAll, add_first, begins, Outcome.bind, same.1]
      rcases fits with two | ⟨one, more, equal⟩
      · have chunked := (chunked_start memoryLimit nv).setTree tree
        refine ⟨[first], rest, _, rfl, ⟨⟨[], [first], chunked, ?_, holds, two, .refl _, ?_⟩, rfl,
          rfl, rfl, rfl⟩, rfl⟩
        · exact Nat.zero_lt_succ _
        · exact fun none => absurd rfl none
      · cases rest with
        | nil => simp at more
        | cons second rest =>
            rw [List.forall_mem_cons] at keys same
            have key : second.1 = first.1 := by simpa using equal
            obtain ⟨f, inserted, formed⟩ := insert_second limit one holds keys.2.1 key
            let s := (startSharedSort memoryLimit nv left).enter tree v
            have few : s.form.numberOfChunks < MAX_NUM_OF_CHUNKS := Nat.zero_lt_succ _
            refine ⟨[first, second], rest, { s with form := f }, rfl,
              ⟨⟨_, _, formed⟩, rfl, rfl, rfl, rfl⟩, ?_⟩
            rw [SharedSort.addAll, SharedSort.add, if_neg (by simp [SharedSort.enter]),
              if_pos (by rw [SharedSort.enter, same.2.1]), insert_ok few rfl inserted]
            rfl

/-- With one first attribute the view is the plain one, unless the first row fills the tree and
the second one needs another node. -/
theorem sharedSortAggregate_single (size : 0 < getRecSize nv nm) (limit : memoryLimit < 2 ^ 32)
    (left : RBTree nm) (some_ : total ≠ []) (fits : SecondFits memoryLimit nv total)
    (keys : ∀ r ∈ total, r.1.length = nv) (same : ∀ r ∈ total, r.1.headD 0 = v)
    {w : Written nm} (done : sharedSortAggregate memoryLimit nv left total = .ok w) :
    (groupBy total).length < memoryLimit / treeNodeSize nv nm ∧ w = treeView (groupBy total) ∨
      memoryLimit / treeNodeSize nv nm ≤ (groupBy total).length ∧
        w = mergeView (groupBy total) := by
  obtain ⟨front, rest, s, rfl, only, start⟩ := onePart_start limit left some_ fits keys same
  rw [List.forall_mem_append] at keys same
  rw [sharedSortAggregate, start] at done
  rcases only.addAll limit keys.2 same.2 with failed | ⟨s, added, ends⟩
  · rw [failed] at done
    cases done
  · rw [added, Outcome.bind] at done
    rcases ends.close size with failed | ⟨s', closes, views⟩
    · rw [failed] at done
      cases done
    · rw [closes] at done
      cases done
      exact views

def Cleared (tree : RBTree nm) : Prop :=
  tree.root.toList = [] ∧ tree.count = 0

instance (tree : RBTree nm) : Decidable (Cleared tree) :=
  inferInstanceAs (Decidable (_ ∧ _))

theorem sharedSortAggregate_nil (memoryLimit nv : Nat) {left : RBTree nm} (cleared : Cleared left) :
    sharedSortAggregate memoryLimit nv left ([] : List (Row nm)) = .ok (treeView []) := by
  have close : (startSharedSort memoryLimit nv left).close memoryLimit nv =
      .ok (startSharedSort memoryLimit nv left) := by
    have noChunks : (startSharedSort memoryLimit nv left).form.numberOfChunks = 0 := rfl
    rw [SharedSort.close, SharedSort.lastChunk, if_neg (by rw [noChunks]; simp), Outcome.bind,
      if_pos noChunks]
    simp [startSharedSort, writeViewToDiskCS_eq, cleared.1, cleared.2]
  rw [sharedSortAggregate, SharedSort.addAll, Outcome.bind, close]
  rfl

end OnePart

section Agreement

variable {memoryLimit nv : Nat} {total : List (Row nm)} {w v : Written nm}

def SameWeights (rows : List (Row nm)) : Prop :=
  Fitting rows ∧ EvenWeights rows

instance (rows : List (Row nm)) : Decidable (SameWeights rows) :=
  inferInstanceAs (Decidable (_ ∧ _))

theorem SameWeights.treeView_eq {rows : List (Row nm)} (h : SameWeights rows) :
    treeView rows = mergeView rows :=
  (treeView_eq_mergeView_iff h.1).mpr h.2

/-- The pool holds all rows of the view, and the plain build merges or weights the same. -/
@[mk_iff]
structure PrefixedFine (memoryLimit nv : Nat) (rows : List (Row nm)) : Prop where
  some_ : rows ≠ []
  fits : (groupBy rows).length ≤ memoryLimit / getRecSize nv nm
  writer : memoryLimit / treeNodeSize nv nm ≤ (groupBy rows).length ∨ SameWeights (groupBy rows)

/-- There is no row and no tree left to write, or one first attribute and room for its second row,
or no first attribute fills the tree and the plain build writes a tree or weights the same. -/
def SharedSortFine (memoryLimit nv : Nat) (left : RBTree nm) (rows : List (Row nm)) : Prop :=
  rows = [] ∧ Cleared left ∨
  rows ≠ [] ∧ SecondFits memoryLimit nv rows ∧
    (∀ r ∈ rows, ∀ x ∈ rows, r.1.headD 0 = x.1.headD 0) ∨
  rows ≠ [] ∧ SmallParts memoryLimit nv rows ∧
    ((groupBy rows).length < memoryLimit / treeNodeSize nv nm ∨ SameWeights (groupBy rows))

instance (memoryLimit nv : Nat) (rows : List (Row nm)) :
    Decidable (PrefixedFine memoryLimit nv rows) :=
  decidable_of_iff _ (prefixedFine_iff memoryLimit nv rows).symm

instance (memoryLimit nv : Nat) (left : RBTree nm) (rows : List (Row nm)) :
    Decidable (SharedSortFine memoryLimit nv left rows) :=
  inferInstanceAs (Decidable (_ ∨ _))

theorem prefixed_agrees (limit : memoryLimit < 2 ^ 32) (size : 0 < getRecSize nv nm)
    (keys : ∀ r ∈ total, r.1.length = nv) (sorted : total.Pairwise fun x y => x.1 ≤ y.1)
    (fine : PrefixedFine memoryLimit nv total) (plain : plainView memoryLimit nv total = .ok w) :
    prefixedAggregate memoryLimit nv total = .ok w := by
  obtain ⟨_, short, written⟩ := plainView_ok limit size fine.some_ keys plain
  rw [prefixedAggregate_spec size fine.some_ short sorted keys fine.fits]
  rcases written with ⟨few, rfl⟩ | ⟨_, rfl⟩
  · rw [(fine.writer.resolve_left (by omega)).treeView_eq]
  · rfl

theorem sharedSort_agrees (dims : 0 < nv) (limit : memoryLimit < 2 ^ 32)
    (size : 0 < getRecSize nv nm) {left : RBTree nm} (keys : ∀ r ∈ total, r.1.length = nv)
    (sorted : total.Pairwise fun x y => x.1.headD 0 ≤ y.1.headD 0)
    (fine : SharedSortFine memoryLimit nv left total)
    (plain : plainView memoryLimit nv total = .ok w)
    (shared : sharedSortAggregate memoryLimit nv left total = .ok v) : v = w := by
  rcases fine with ⟨rfl, cleared⟩ | ⟨some_, fits, single⟩ | ⟨some_, small, writer⟩
  · rw [sharedSortAggregate_nil memoryLimit nv cleared] at shared
    rw [plainView_nil] at plain
    cases shared
    cases plain
    rfl
  · obtain ⟨_, _, written⟩ := plainView_ok limit size some_ keys plain
    obtain ⟨first, member⟩ := List.exists_mem_of_ne_nil total some_
    have views := sharedSortAggregate_single size limit left some_ fits keys
      (fun r hr => single r hr first member) shared
    rcases views with ⟨few, rfl⟩ | ⟨many, rfl⟩
    · rcases written with ⟨_, rfl⟩ | ⟨many, _⟩
      · rfl
      · omega
    · rcases written with ⟨few, _⟩ | ⟨_, rfl⟩
      · omega
      · rfl
  · obtain ⟨room, _, written⟩ := plainView_ok limit size some_ keys plain
    rw [sharedSortAggregate_parts dims limit room left some_ keys sorted small] at shared
    cases shared
    rcases written with ⟨_, rfl⟩ | ⟨many, rfl⟩
    · rfl
    · exact (writer.resolve_left (by omega)).treeView_eq

end Agreement

end Baseliner.DcFastPaths
