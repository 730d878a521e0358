import Mathlib.Data.List.Nodup
import Mathlib.Data.List.Perm.Subperm
import Baseliner.BenchmarkFiles

/-! The NPB loops of `orchestrator.py`. For each socket number they write the
result files whose path contains `socket` followed by that number, so a file is
also written for every socket number whose digits begin its own. The database
takes every write. -/

namespace Baseliner.OrchestratorNpb
open SegmentedNames BenchmarkFiles

/-- `find_npb_cpu_st_tests` and `find_npb_cpu_mt_tests` on a directory listing. -/
def findNpbCpuTests (t : Threads) (filenames : List Str) : List Str :=
  (filenames.filter fun f => startswith f "npb".toList && endswith f (t.text ++ ".csv".toList)).map
    path

/-- A call of `write_dataframe`: the file read, its socket tag, the collection. -/
structure Write where
  source : Str
  socket : Str
  collection : Threads
  deriving DecidableEq

def socketid (sno : Nat) : Str := "socket".toList ++ str sno

def npbLoop (nsockets : Nat) (t : Threads) (results : List Str) : List Write :=
  (List.range nsockets).flatMap fun sno =>
    (results.filter fun res => isIn (socketid sno) res).map fun res => ⟨res, str sno, t⟩

def npbWrites (nsockets : Nat) (listing : Threads → List Str) : List Write :=
  npbLoop nsockets .st (findNpbCpuTests .st (listing .st)) ++
    npbLoop nsockets .mt (findNpbCpuTests .mt (listing .mt))

/-- What `os.listdir` returns: no entry twice, and the files of the DVFS runs, which are always
made, in any order among any other entries. The two suites have their own benchmarks. -/
structure Listing (nsockets : Nat) (names : Threads → List Str) (filenames : List Str) : Prop where
  nodup : filenames.Nodup
  complete : ∀ t, ∀ name ∈ names t, ∀ n < nsockets, npbFile name n .dvfs t ∈ filenames

def Attributed (nsockets : Nat) (names : Threads → List Str) (listing : Threads → List Str) :
    Prop :=
  ∀ t, ∀ name ∈ names t, ∀ n < nsockets, ∀ d, npbFile name n d t ∈ listing t →
    (npbWrites nsockets listing).filter (·.source = path (npbFile name n d t)) =
      [⟨path (npbFile name n d t), str n, t⟩]

/-! ### Which socket numbers a file matches -/

theorem socket_infix_of_socketid {k : Nat} {y : Str} (h : socketid k <:+: y) :
    "socket".toList <:+: y :=
  (List.prefix_append _ _).isInfix.trans h

theorem dot_notMem_socketid (k : Nat) : '.' ∉ socketid k :=
  notMem_append_str (by decide) (by decide) k

theorem socketid_infix_socketid {k n : Nat} : socketid k <:+: socketid n ↔ str k <+: str n := by
  constructor
  · intro h
    have rest : ¬ socketid k <:+: "ocket".toList ++ str n := by
      intro later
      have s : 's' ∈ "ocket".toList ++ str n :=
        later.subset (List.mem_append_left (str k) (by decide))
      exact notMem_append_str (by decide) (by decide) n s
    have first : socketid k <+: socketid n := by
      rcases List.infix_cons_iff.mp (show socketid k <:+: 's' :: ("ocket".toList ++ str n) from h)
        with first | later
      · exact first
      · exact absurd later rest
    exact (List.prefix_append_right_inj "socket".toList).mp first
  · intro h
    exact ((List.prefix_append_right_inj "socket".toList).mpr h).isInfix

theorem socketid_in_npbFile {name : Str} (hname : ¬ "socket".toList <:+: name) (k n : Nat)
    (d : Dvfs) (t : Threads) :
    isIn (socketid k) (path (npbFile name n d t)) = true ↔ str k <+: str n := by
  have dot := dot_notMem_socketid k
  have none : ∀ y : Str, ¬ "socket".toList <:+: y → ¬ socketid k <:+: y :=
    fun y hy h => hy (socket_infix_of_socketid h)
  have head : ¬ socketid k <:+: "/root/npb".toList := none _ (by decide)
  have dvfs : ¬ socketid k <:+: d.text := none _ (by cases d <;> decide)
  have threads : ¬ socketid k <:+: t.text := none _ (by cases t <;> decide)
  have csv : ¬ socketid k <:+: "csv".toList := none _ (by decide)
  have split : path (npbFile name n d t) = "/root/npb".toList ++ '.' :: (name ++ '.' ::
      (socketid n ++ '.' :: (d.text ++ '.' :: (t.text ++ '.' :: "csv".toList)))) := rfl
  rw [isIn, decide_eq_true_iff, split, infix_append_sep dot, infix_append_sep dot,
    infix_append_sep dot, infix_append_sep dot, infix_append_sep dot, socketid_infix_socketid]
  simp only [head, none name hname, dvfs, threads, csv, false_or, or_false]

/-! ### The writes of one file -/

theorem filter_mem_nodup {α : Type*} [DecidableEq α] {l : List α} (nodup : l.Nodup) {x : α}
    (hx : x ∈ l) : l.filter (· = x) = [x] := by
  rw [List.filter_eq, List.count_eq_one_of_mem nodup hx]
  rfl

theorem npbLoop_filter (nsockets : Nat) (t : Threads) {results : List Str}
    (nodup : results.Nodup) {f : Str} (hf : f ∈ results) :
    (npbLoop nsockets t results).filter (·.source = f) =
      ((List.range nsockets).filter fun sno => isIn (socketid sno) f).map
        fun sno => ⟨f, str sno, t⟩ := by
  have own : ∀ sno, ((results.filter fun res => isIn (socketid sno) res).map
      fun res => (⟨res, str sno, t⟩ : Write)).filter (·.source = f) =
        if isIn (socketid sno) f then [⟨f, str sno, t⟩] else [] := by
    intro sno
    rw [List.filter_map, Function.comp_def, List.filter_comm, filter_mem_nodup nodup hf,
      List.filter_singleton]
    cases isIn (socketid sno) f <;> rfl
  unfold npbLoop
  rw [List.filter_flatMap]
  simp only [own]
  induction List.range nsockets with
  | nil => rfl
  | cons k ks ih =>
      rw [List.flatMap_cons, ih, List.filter_cons]
      split_ifs <;> rfl

theorem npbLoop_filter_notMem (nsockets : Nat) (t : Threads) {results : List Str} {f : Str}
    (hf : f ∉ results) : (npbLoop nsockets t results).filter (·.source = f) = [] := by
  rw [List.filter_eq_nil_iff]
  intro w hw
  simp only [npbLoop, List.mem_flatMap, List.mem_map, List.mem_filter] at hw
  obtain ⟨sno, -, res, ⟨hres, -⟩, rfl⟩ := hw
  rw [decide_eq_true_iff]
  intro same
  exact hf (same ▸ hres)

theorem findNpbCpuTests_nodup (t : Threads) {filenames : List Str} (h : filenames.Nodup) :
    (findNpbCpuTests t filenames).Nodup :=
  (List.nodup_map_iff path_injective).mpr (h.filter _)

theorem npbFile_endswith (name : Str) (n : Nat) (d : Dvfs) (t t' : Threads) :
    endswith (npbFile name n d t) (t'.text ++ ".csv".toList) = true ↔ t = t' := by
  have ending : t.text ++ ".csv".toList <:+ npbFile name n d t :=
    ⟨"npb".toList ++ '.' :: (name ++ '.' :: ("socket".toList ++ str n ++ '.' :: (d.text ++ ['.']))),
      by
        simp only [npbFile, joinSegments, List.append_assoc, List.cons_append]
        rfl⟩
  rw [endswith, decide_eq_true_iff]
  constructor
  · intro h
    have last := List.suffix_of_suffix_length_le h ending (by cases t <;> cases t' <;> decide)
    revert last
    cases t <;> cases t' <;> decide
  · rintro rfl
    exact ending

theorem path_mem_findNpbCpuTests {name : Str} {n : Nat} {d : Dvfs} {t t' : Threads}
    {filenames : List Str} :
    path (npbFile name n d t) ∈ findNpbCpuTests t' filenames ↔
      npbFile name n d t ∈ filenames ∧ t = t' := by
  have npb : startswith (npbFile name n d t) "npb".toList = true :=
    decide_eq_true (List.prefix_append _ _)
  unfold findNpbCpuTests
  rw [List.mem_map_of_injective path_injective, List.mem_filter, Bool.and_eq_true, npb,
    npbFile_endswith]
  simp

theorem npbWrites_filter {nsockets : Nat} {listing : Threads → List Str}
    (nodup : ∀ t, (listing t).Nodup) {name : Str} (hname : ¬ "socket".toList <:+: name) {n : Nat}
    {d : Dvfs} {t : Threads} (listed : npbFile name n d t ∈ listing t) :
    (npbWrites nsockets listing).filter (·.source = path (npbFile name n d t)) =
      ((List.range nsockets).filter fun sno => decide (str sno <+: str n)).map
        fun sno => ⟨path (npbFile name n d t), str sno, t⟩ := by
  have tests : (fun sno => isIn (socketid sno) (path (npbFile name n d t))) =
      fun sno => decide (str sno <+: str n) := by
    funext sno
    rw [Bool.eq_iff_iff, socketid_in_npbFile hname, decide_eq_true_iff]
  have own : path (npbFile name n d t) ∈ findNpbCpuTests t (listing t) :=
    path_mem_findNpbCpuTests.mpr ⟨listed, rfl⟩
  have other : ∀ t' ≠ t, path (npbFile name n d t) ∉ findNpbCpuTests t' (listing t') :=
    fun t' ht h => ht (path_mem_findNpbCpuTests.mp h).2.symm
  unfold npbWrites
  rw [List.filter_append]
  cases t with
  | st =>
      rw [npbLoop_filter nsockets .st (findNpbCpuTests_nodup .st (nodup .st)) own,
        npbLoop_filter_notMem nsockets .mt (other .mt (by decide)), List.append_nil, tests]
  | mt =>
      rw [npbLoop_filter nsockets .mt (findNpbCpuTests_nodup .mt (nodup .mt)) own,
        npbLoop_filter_notMem nsockets .st (other .st (by decide)), List.nil_append, tests]

/-! ### Decimal prefixes -/

theorem eq_of_str_prefix : ∀ n < 10, ∀ k < 10, str k <+: str n → k = n := by
  decide

theorem range_filter_prefix {nsockets n : Nat} (few : nsockets ≤ 10) (hn : n < nsockets) :
    (List.range nsockets).filter (fun sno => decide (str sno <+: str n)) = [n] := by
  have tests : ∀ sno ∈ List.range nsockets,
      decide (str sno <+: str n) = decide (sno = n) := by
    intro sno hsno
    rw [List.mem_range] at hsno
    rw [Bool.eq_iff_iff, decide_eq_true_iff, decide_eq_true_iff]
    constructor
    · exact eq_of_str_prefix n (by omega) sno (by omega)
    · rintro rfl
      exact List.prefix_refl _
  rw [List.filter_congr tests]
  exact filter_mem_nodup List.nodup_range (List.mem_range.mpr hn)

theorem ten_matches_twice {nsockets : Nat} (many : 10 < nsockets) :
    2 ≤ ((List.range nsockets).filter fun sno => decide (str sno <+: str 10)).length := by
  have both : List.Subperm [1, 10]
      ((List.range nsockets).filter fun sno => decide (str sno <+: str 10)) := by
    refine List.subperm_of_subset (by decide) ?_
    intro k hk
    rw [List.mem_filter, List.mem_range]
    simp only [List.mem_cons, List.not_mem_nil, or_false] at hk
    rcases hk with rfl | rfl
    · exact ⟨by omega, by decide⟩
    · exact ⟨many, by decide⟩
  exact both.length_le

/-- Each NPB result file is written once and under its own socket number
exactly when there are at most ten sockets, or no benchmark at all. -/
theorem npb_attributed_iff (nsockets : Nat) (names : Threads → List Str)
    (hnames : ∀ t, ∀ name ∈ names t, ¬ "socket".toList <:+: name)
    (listing : Threads → List Str) (listed : ∀ t, Listing nsockets names (listing t)) :
    Attributed nsockets names listing ↔ nsockets ≤ 10 ∨ ∀ t, names t = [] := by
  have nodup : ∀ t, (listing t).Nodup := fun t => (listed t).nodup
  constructor
  · intro h
    by_contra neither
    obtain ⟨many, some_⟩ := not_or.mp neither
    obtain ⟨t, some_⟩ := not_forall.mp some_
    obtain ⟨name, own⟩ := List.exists_mem_of_ne_nil _ some_
    have file := (listed t).complete t name own 10 (by omega)
    have once := h t name own 10 (by omega) .dvfs file
    rw [npbWrites_filter nodup (hnames t name own) file] at once
    have two := @ten_matches_twice nsockets (by omega)
    have length := congrArg List.length once
    rw [List.length_map, List.length_singleton] at length
    omega
  · rintro (few | none_) t name hname n hn d file
    · rw [npbWrites_filter nodup (hnames t name hname) file, range_filter_prefix few hn]
      rfl
    · rw [none_ t] at hname
      exact absurd hname List.not_mem_nil

/-! ### One benchmark of each suite on two and on eleven sockets -/

def sampleNames : Threads → List Str
  | .st => ["bt.W.x".toList]
  | .mt => ["bt.A.x".toList]

def sampleListing (nsockets : Nat) : List Str :=
  (List.range nsockets).flatMap fun n =>
    [npbFile "bt.W.x".toList n .dvfs .st, npbFile "bt.A.x".toList n .dvfs .mt]

theorem sampleListing_listing {nsockets : Nat} (nodup : (sampleListing nsockets).Nodup) :
    Listing nsockets sampleNames (sampleListing nsockets) := by
  refine ⟨nodup, ?_⟩
  intro t name hname n hn
  refine List.mem_flatMap.mpr ⟨n, List.mem_range.mpr hn, ?_⟩
  cases t <;> rw [List.mem_singleton.mp hname] <;> simp

theorem two_sockets_attributed : Attributed 2 sampleNames fun _ => sampleListing 2 :=
  (npb_attributed_iff 2 sampleNames (by rintro (_ | _) <;> decide) _
    fun _ => sampleListing_listing (by decide)).mpr (Or.inl (by decide))

/-- With eleven sockets the file of socket 10 is written twice, for sockets 1
and 10. -/
theorem eleven_sockets_misattributed :
    Listing 11 sampleNames (sampleListing 11) ∧
      ¬ Attributed 11 sampleNames fun _ => sampleListing 11 := by
  have nodup : (sampleListing 11).Nodup := by decide
  have file : npbFile "bt.W.x".toList 10 .dvfs .st ∈ sampleListing 11 := by decide
  refine ⟨sampleListing_listing nodup, ?_⟩
  intro h
  have once := h .st "bt.W.x".toList (by decide) 10 (by decide) .dvfs file
  have twice := @npbWrites_filter 11 (fun _ => sampleListing 11) (fun _ => nodup) "bt.W.x".toList
    (by decide) 10 .dvfs .st file
  have length := congrArg List.length (once.symm.trans twice)
  rw [List.length_map] at length
  exact absurd length (by decide)

end Baseliner.OrchestratorNpb
