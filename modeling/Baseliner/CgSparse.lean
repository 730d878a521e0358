import Mathlib.Algebra.BigOperators.Intervals
import Baseliner.BarrierPhases
import Baseliner.CgInsertion
import Baseliner.CountingScatter

/-! The assembly of the CG matrix, `sparse`, by a team of threads. Each thread has a range of
rows, from `makea`. Between two barriers it makes its steps one after another while the other
threads make theirs; a step is one turn of a loop. -/

namespace Baseliner.CgSparse

open BarrierPhases CgInsertion CountingScatter KeyedSums

/-- What `sparse` is called with. List `i` has the columns `acol(., i)` and the elements
`aelt(., i)`, and `arow(i)` is its length; `ratio` is `rcond ** (1.0D0 / dfloat(n))`. -/
structure Problem (K : Type*) where
  n : ℕ
  nz : ℕ
  rcond : K
  shift : K
  ratio : K
  entries : ℕ → List (ℕ × K)
  positive : 1 ≤ n
  distinct : ∀ i, 1 ≤ i → i ≤ n → ((entries i).map Prod.fst).Nodup
  inside : ∀ i, 1 ≤ i → i ≤ n → ∀ e ∈ entries i, 1 ≤ e.1 ∧ e.1 ≤ n
  own : ∀ i, 1 ≤ i → i ≤ n → i ∈ (entries i).map Prod.fst

structure Mem (K : Type*) where
  rowstr : ℕ → ℕ
  lastN : ℕ → ℕ
  nzrow : ℕ → ℕ
  slots : Slots K
  nzloc : ℕ → ℕ
  colidx : ℕ → ℕ
  a : ℕ → K

abbrev Step (K : Type*) := Mem K → Except Stop (Mem K)

section Ranges

def maxThreads : ℕ := 1024

def numThreads (threads : ℕ) : ℕ := if threads > maxThreads then maxThreads else threads

variable (n threads myid : ℕ)

def work : ℕ := (n + numThreads threads - 1) / numThreads threads

def ilow : ℕ := work n threads * myid + 1

def ihigh : ℕ :=
  if ilow n threads myid + work n threads - 1 > n then n
  else ilow n threads myid + work n threads - 1

def rows : List ℕ :=
  List.range' (ilow n threads myid) (ihigh n threads myid + 1 - ilow n threads myid)

/-- `j1` behind the count: the first thread has the pointer of row 1 besides. -/
def firstPointer : ℕ := if myid = 0 then 1 else ilow n threads myid + 1

end Ranges

section Stores

variable {K : Type*} (x : ℕ) (value : Mem K → ℕ)

def storeRowstr : Step K := fun m => .ok { m with rowstr := Function.update m.rowstr x (value m) }

def storeLastN : Step K := fun m => .ok { m with lastN := Function.update m.lastN x (value m) }

def storeNzrow : Step K := fun m => .ok { m with nzrow := Function.update m.nzrow x (value m) }

def storeNzloc : Step K := fun m => .ok { m with nzloc := Function.update m.nzloc x (value m) }

end Stores

namespace Problem

variable {K : Type*} [CommRing K] (p : Problem K) (threads : ℕ)

def counted : List (ℕ × ℕ) :=
  (List.range' 1 p.n).flatMap fun i => (p.entries i).map fun e => (e.1, (p.entries i).length)

def countRows (myid : ℕ) : List (Step K) :=
  let low := ilow p.n threads myid
  let high := ihigh p.n threads myid
  let j1 := firstPointer p.n threads myid
  (List.range' (low + 1) (high + 1 - low)).map (fun j => storeRowstr j fun _ => 0) ++
    ((p.counted.filter fun e => low ≤ e.1 ∧ e.1 ≤ high).map fun e =>
      storeRowstr (e.1 + 1) fun m => m.rowstr (e.1 + 1) + e.2) ++
    (if myid = 0 then [storeRowstr 1 fun _ => 1] else []) ++
    (List.range' (j1 + 1) (high + 1 - j1)).map
      (fun j => storeRowstr j fun m => m.rowstr j + m.rowstr (j - 1)) ++
    (if myid < numThreads threads then [storeLastN myid fun m => m.rowstr (high + 1)] else [])

def sumBefore (myid : ℕ) : List (Step K) :=
  storeNzrow myid (fun _ => 0) ::
    if myid < numThreads threads then
      (List.range myid).map fun i => storeNzrow myid fun m => m.nzrow myid + m.lastN i
    else []

def shiftRows (myid : ℕ) : List (Step K) :=
  let j1 := firstPointer p.n threads myid
  sumBefore threads myid ++
    (List.range' j1 (ihigh p.n threads myid + 2 - j1)).map fun j m =>
      if m.nzrow myid > 0 then storeRowstr j (fun m => m.rowstr j + m.nzrow myid) m else .ok m

def preload (j : ℕ) : Step K := fun m =>
  .ok { m with
    slots := m.slots.free (m.rowstr j) (m.rowstr (j + 1))
    nzloc := Function.update m.nzloc j 0 }

/-- `va` for column `jcol` of row `j` and list `i`. -/
def element (i j : ℕ) (scale : K) (e : ℕ × K) : K :=
  if e.1 = j ∧ j = i then e.2 * scale + p.rcond - p.shift else e.2 * scale

/-- The elements of some rows, in the order of the loops over `i`, `nza` and `nzrow`: a row, a
column and `va`. -/
def elements (mine : ℕ → Bool) : ℕ → ℕ → K → List (ℕ × ℕ × K)
  | 0, _, _ => []
  | left + 1, i, size =>
      ((p.entries i).filter fun e => mine e.1).flatMap (fun e =>
        (p.entries i).map fun c => (e.1, c.1, p.element i e.1 (size * e.2) c)) ++
      elements mine left (i + 1) (size * p.ratio)

def enter (e : ℕ × ℕ × K) : Step K := fun m =>
  match m.slots.insert (m.rowstr e.1) (m.rowstr (e.1 + 1)) e.2.1 e.2.2
      (m.rowstr (e.1 + 1) - m.rowstr e.1) (m.rowstr e.1) with
  | .ok (slots, true) =>
      .ok { m with slots := slots, nzloc := Function.update m.nzloc e.1 (m.nzloc e.1 + 1) }
  | .ok (slots, false) => .ok { m with slots := slots }
  | .error stop => .error stop

def assemble (myid : ℕ) : List (Step K) :=
  let low := ilow p.n threads myid
  let high := ihigh p.n threads myid
  (rows p.n threads myid).map preload ++
    (p.elements (fun j => low ≤ j ∧ j ≤ high) p.n 1 1).map enter

def countFree (myid : ℕ) : List (Step K) :=
  let low := ilow p.n threads myid
  let high := ihigh p.n threads myid
  (List.range' (low + 1) (high - low)).map
      (fun j => storeNzloc j fun m => m.nzloc j + m.nzloc (j - 1)) ++
    (if myid < numThreads threads then [storeLastN myid fun m => m.nzloc high] else [])

def shiftFree (myid : ℕ) : List (Step K) :=
  sumBefore threads myid ++
    (rows p.n threads myid).map fun j m =>
      if m.nzrow myid > 0 then storeNzloc j (fun m => m.nzloc j + m.nzrow myid) m else .ok m

/-- The entries of a row, without the free slots, go to `a` and `colidx`. -/
def compactRow (j : ℕ) : Step K := fun m =>
  let j1 := if j > 1 then m.rowstr j - m.nzloc (j - 1) else 1
  let j2 := m.rowstr (j + 1) - m.nzloc j - 1
  .ok { m with
    a := (List.range (j2 + 1 - j1)).foldl
      (fun a d => Function.update a (j1 + d) (m.slots.v (m.rowstr j + d))) m.a
    colidx := (List.range (j2 + 1 - j1)).foldl
      (fun c d => Function.update c (j1 + d) (m.slots.iv (m.rowstr j + d))) m.colidx }

def closeRow (j : ℕ) : Step K := storeRowstr j fun m => m.rowstr j - m.nzloc (j - 1)

end Problem

structure Orders where
  countRows : List ℕ
  shiftRows : List ℕ
  assemble : List ℕ
  countFree : List ℕ
  shiftFree : List ℕ
  compact : List ℕ
  close : List ℕ

namespace Problem

variable {K : Type*} [CommRing K] (p : Problem K)

/-- Every thread makes all its steps, and every turn of a loop over rows is made. -/
structure Complete (threads : ℕ) (o : Orders) : Prop where
  countRows : BarrierPhases.Complete (· < threads) (p.countRows threads) o.countRows
  shiftRows : BarrierPhases.Complete (· < threads) (p.shiftRows threads) o.shiftRows
  assemble : BarrierPhases.Complete (· < threads) (p.assemble threads) o.assemble
  countFree : BarrierPhases.Complete (· < threads) (p.countFree threads) o.countFree
  shiftFree : BarrierPhases.Complete (· < threads) (p.shiftFree threads) o.shiftFree
  compact : BarrierPhases.Complete (fun j => 1 ≤ j ∧ j ≤ p.n)
    (fun j => [compactRow (K := K) j]) o.compact
  close : BarrierPhases.Complete (fun j => 2 ≤ j ∧ j ≤ p.n + 1)
    (fun j => [closeRow (K := K) j]) o.close

def sparse (threads : ℕ) (o : Orders) (m : Mem K) : Except Stop (Mem K) := do
  let m ← runSchedule (p.countRows threads) o.countRows m
  let m ← runSchedule (p.shiftRows threads) o.shiftRows m
  if m.rowstr (p.n + 1) - 1 > p.nz then .error .spaceExceeded
  else
    let m ← runSchedule (p.assemble threads) o.assemble m
    let m ← runSchedule (p.countFree threads) o.countFree m
    let m ← runSchedule (p.shiftFree threads) o.shiftFree m
    let m ← runSchedule (fun j => [compactRow j]) o.compact m
    runSchedule (fun j => [closeRow j]) o.close m

end Problem

namespace Problem

variable {K : Type*} (p : Problem K)

def count (j : ℕ) : ℕ := sumOver (fun k => decide (k = j)) p.counted

def width (x : ℕ) : ℕ := if x = 1 then 1 else p.count (x - 1)

def start (x : ℕ) : ℕ := ∑ y ∈ Finset.Ico 1 (x + 1), p.width y

def nza : ℕ := p.start (p.n + 1) - 1

theorem start_one : p.start 1 = 1 := by
  simp [start, width]

theorem start_succ {j : ℕ} (low : 1 ≤ j) : p.start (j + 1) = p.start j + p.count j := by
  have other : j + 1 ≠ 1 := by omega
  rw [start, Finset.sum_Ico_succ_top (by omega), width, if_neg other, Nat.add_sub_cancel]
  rfl

theorem start_mono {j k : ℕ} (low : 1 ≤ j) (le : j ≤ k) : p.start j ≤ p.start k := by
  induction le with
  | refl => exact le_rfl
  | @step k le ih =>
      rw [p.start_succ (low.trans le)]
      exact ih.trans (Nat.le_add_right ..)

end Problem

end Baseliner.CgSparse
