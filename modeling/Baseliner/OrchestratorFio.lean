import Baseliner.BenchmarkFiles
import Baseliner.ListSearch

/-! The fio part of `orchestrator.py`. A result file is looked up by a type that
must occur in its name, a depth that must occur in it, and a device that must
end it; the first entry of the listing that passes is taken. -/

namespace Baseliner.OrchestratorFio
open SegmentedNames BenchmarkFiles ListSearch

def ioWord (iodepth : Nat) : Str := "io".toList ++ str iodepth

def csvName (device : Str) : Str := device ++ ".csv".toList

/-- The test in the loop of `find_fio_benchmark_result_file`. -/
def passes (iodepth : Nat) (type device filename : Str) : Bool :=
  isIn type filename && isIn (ioWord iodepth) filename && endswith filename (csvName device)

def findFioBenchmarkResultFile (iodepth : Nat) (type device : Str) (filenames : List Str) :
    Option Str :=
  (filenames.find? (passes iodepth type device)).map path

def disksTxt (devices : List Str) : Str := devices.flatMap (· ++ ['\n'])

def readDisks (data : Str) : List Str :=
  if data = [] then [] else (data.splitOn '\n').dropLast

/-- A call of `write_dataframe` for the `fio` collection, with its tags. -/
structure Write where
  source : Str
  type : FioType
  ioDepth : Nat
  device : Str
  deriving DecidableEq

def types : List FioType := [.readSeq, .readRand, .writeSeq, .writeRand]

def depths : List Iodepth := [.one, .full]

/-- The loop over the disks. Each lookup lists the directory anew, and one that
finds nothing is skipped. -/
def fioWrites (disks : List Str) (listing : Str → FioType → Iodepth → List Str) : List Write :=
  disks.flatMap fun device => types.flatMap fun t => depths.filterMap fun d =>
    (findFioBenchmarkResultFile d.number t.text device (listing device t d)).map
      fun f => ⟨f, t, d.number, device⟩

structure DeviceName (name : Str) : Prop where
  nonempty : name ≠ []
  plain : (name.all fun c => c.isLower || c.isDigit) = true

/-- The other entries of the directory: the files of the other benchmarks, and
any entry in whose name no fio type occurs. -/
inductive OtherFile : Str → Prop
  | disks : OtherFile "disks.txt".toList
  | fioInfo : OtherFile "fio_info.csv".toList
  | streamInfo : OtherFile "stream_info.csv".toList
  | membenchInfo : OtherFile "membench_info.csv".toList
  | diskInfo (name : Str) (h : DeviceName name) :
      OtherFile (joinSegments '_' ["disk".toList, "info".toList, csvName name])
  | stream (n : Nat) (d : Dvfs) :
      OtherFile (joinSegments '_' ["stream".toList, "out".toList, "socket".toList ++ str n,
        csvName d.text])
  | membench (n : Nat) (d : Dvfs) :
      OtherFile (joinSegments '_' ["membench".toList, "out".toList, "socket".toList ++ str n,
        csvName d.text])
  | npb (name : Str) (n : Nat) (d : Dvfs) (t : Threads) : OtherFile (npbFile name n d t)
  | npbOut (name : Str) (n : Nat) (d : Dvfs) (t : Threads) :
      OtherFile (joinSegments '.' ["npb".toList, name, "socket".toList ++ str n, d.text, t.text,
        "out".toList])
  | extraNpb (name : Str) (n i : Nat) (h : ∀ t : FioType, ¬ t.text <:+: name) :
      OtherFile (joinSegments '.' ["extra-npb".toList, name, "socket".toList ++ str n,
        Dvfs.nodvfs.text, Threads.mt.text, "run".toList ++ str i, "csv".toList])
  | extraNpbOut (name : Str) (n i : Nat) :
      OtherFile (joinSegments '.' ["extra-npb".toList, name, "socket".toList ++ str n,
        Dvfs.nodvfs.text, Threads.mt.text, "run".toList ++ str i, "out".toList])
  | unrelated (f : Str) (h : ∀ t : FioType, ¬ t.text <:+: f) : OtherFile f

/-- The directory after a run: the eight files of each device, and others. -/
structure Directory (devices entries : List Str) : Prop where
  written : ∀ dev ∈ devices, ∀ t d, fioFile t d dev ∈ entries
  only : ∀ f ∈ entries, (∃ dev ∈ devices, ∃ t d, f = fioFile t d dev) ∨ OtherFile f

/-- In every order of the entries, each lookup returns its own file. -/
def Attributed (devices entries : List Str) : Prop :=
  ∀ filenames : List Str, filenames.Perm entries → ∀ d t, ∀ dev ∈ devices,
    findFioBenchmarkResultFile d.number (FioType.text t) dev filenames =
      some (path (fioFile t d dev))

/-! ### Which lookups a result file passes -/

theorem notMem_of_plain {name : Str} (h : DeviceName name) {c : Char}
    (lower : c.isLower = false) (digit : c.isDigit = false) : c ∉ name := by
  intro hc
  have plain := List.all_eq_true.mp h.plain c hc
  rw [lower, digit] at plain
  exact absurd plain (by decide)

theorem notMem_csvName {name : Str} (h : DeviceName name) : '_' ∉ csvName name := by
  intro hc
  rcases List.mem_append.mp hc with hc | hc
  · exact notMem_of_plain h (by decide) (by decide) hc
  · exact absurd hc (by decide)

theorem not_infix_of_notMem {c : Char} {x y : Str} (hx : c ∈ x) (hy : c ∉ y) : ¬ x <:+: y :=
  fun h => hy (h.subset hx)

theorem underscore_mem_text (t : FioType) : '_' ∈ t.text := by
  cases t <;> decide

theorem text_infix_fioFile {t t' : FioType} {d : Iodepth} {dev : Str} (h : DeviceName dev) :
    t.text <:+: fioFile t' d dev ↔ t = t' := by
  have hu : '_' ∉ t.words.1 := by cases t <;> decide
  have hv : '_' ∉ t.words.2 := by cases t <;> decide
  have hu' : '_' ∉ t'.words.1 := by cases t' <;> decide
  have hv' : '_' ∉ t'.words.2 := by cases t' <;> decide
  have hd : '_' ∉ "io".toList ++ str d.number := by cases d <;> decide
  have last : ¬ t.words.1 ++ '_' :: t.words.2 <:+: csvName dev :=
    not_infix_of_notMem (underscore_mem_text t) (notMem_csvName h)
  have fio : ¬ t.words.1 <:+ "fio".toList := by cases t <;> decide
  have second : ¬ t.words.1 <:+ t'.words.2 := by cases t <;> cases t' <;> decide
  have depth : ¬ t.words.1 <:+ "io".toList ++ str d.number := by cases t <;> cases d <;> decide
  have own : t.words.1 <:+ t'.words.1 ∧ t.words.2 <+: t'.words.2 ↔ t = t' := by
    cases t <;> cases t' <;> decide
  have split : fioFile t' d dev = "fio".toList ++ '_' :: (t'.words.1 ++ '_' :: (t'.words.2 ++
      '_' :: ("io".toList ++ str d.number ++ '_' :: csvName dev))) := rfl
  rw [split, FioType.text, pair_infix_append_sep hu (by decide), pair_infix_append_sep hu hu',
    pair_infix_append_sep hu hv', pair_infix_append_sep hu hd]
  simp only [fio, second, depth, last, false_and, false_or, or_false]
  rw [prefix_append_sep hv, own]

theorem ioWord_infix_fioFile {d d' : Iodepth} {t : FioType} {dev : Str} :
    ioWord d.number <:+: fioFile t d' dev ↔ d = d' ∨ ioWord d.number <:+: dev := by
  have line : '_' ∉ ioWord d.number := by cases d <;> decide
  have dot : '.' ∉ ioWord d.number := by cases d <;> decide
  have fio : ¬ ioWord d.number <:+: "fio".toList := by cases d <;> decide
  have first : ¬ ioWord d.number <:+: t.words.1 := by cases d <;> cases t <;> decide
  have second : ¬ ioWord d.number <:+: t.words.2 := by cases d <;> cases t <;> decide
  have csv : ¬ ioWord d.number <:+: "csv".toList := by cases d <;> decide
  have own : ioWord d.number <:+: "io".toList ++ str d'.number ↔ d = d' := by
    cases d <;> cases d' <;> decide
  have split : fioFile t d' dev = "fio".toList ++ '_' :: (t.words.1 ++ '_' :: (t.words.2 ++
      '_' :: ("io".toList ++ str d'.number ++ '_' :: (dev ++ '.' :: "csv".toList)))) := rfl
  rw [split, infix_append_sep line, infix_append_sep line, infix_append_sep line,
    infix_append_sep line, infix_append_sep dot, own]
  simp only [fio, first, second, csv, false_or, or_false]

theorem csvName_suffix_fioFile {dev dev' : Str} (h : DeviceName dev) {t : FioType} {d : Iodepth} :
    csvName dev <:+ fioFile t d dev' ↔ dev <:+ dev' := by
  have line := notMem_csvName h
  have split : fioFile t d dev' = "fio".toList ++ '_' :: (t.words.1 ++ '_' :: (t.words.2 ++
      '_' :: ("io".toList ++ str d.number ++ '_' :: csvName dev'))) := rfl
  rw [split, suffix_append_sep line, suffix_append_sep line, suffix_append_sep line,
    suffix_append_sep line]
  exact suffix_append_right_inj _

theorem passes_fioFile (d d' : Iodepth) (t t' : FioType) {dev dev' : Str} (h : DeviceName dev)
    (h' : DeviceName dev') :
    passes d.number t.text dev (fioFile t' d' dev') = true ↔
      t = t' ∧ (d = d' ∨ ioWord d.number <:+: dev') ∧ dev <:+ dev' := by
  simp only [passes, isIn, endswith, Bool.and_eq_true, decide_eq_true_iff, and_assoc]
  rw [text_infix_fioFile h', ioWord_infix_fioFile, csvName_suffix_fioFile h]

/-! ### The other entries pass no lookup -/

/-- A name of a `_`-separated file passes no lookup when none of its segments
ends in the first word of a type. -/
theorem text_not_infix_join {t : FioType} {segs : List Str} (plain : ∀ s ∈ segs, '_' ∉ s)
    (word : ∀ s ∈ segs, ¬ t.words.1 <:+ s) : ¬ t.text <:+: joinSegments '_' segs := by
  intro h
  have hu : '_' ∉ t.words.1 := by cases t <;> decide
  obtain ⟨s, hs, found⟩ := pair_infix_joinSegments hu plain h
  exact word s hs found

theorem word_not_suffix_csvName (t : FioType) (name : Str) : ¬ t.words.1 <:+ csvName name := by
  intro h
  have csv : ".csv".toList <:+ csvName name := List.suffix_append _ _
  have last := List.suffix_of_suffix_length_le csv h (by cases t <;> decide)
  revert last
  cases t <;> decide

theorem word_not_suffix_socket (t : FioType) (n : Nat) :
    ¬ t.words.1 <:+ "socket".toList ++ str n := by
  intro h
  have r : 'r' ∈ "socket".toList ++ str n := h.subset (by cases t <;> decide)
  exact notMem_append_str (by decide) (by decide) n r

theorem text_not_infix_out {t : FioType} {first : Str} (plain : '_' ∉ first)
    (word : ¬ t.words.1 <:+ first) (n : Nat) (d : Dvfs) :
    ¬ t.text <:+: joinSegments '_' [first, "out".toList, "socket".toList ++ str n,
      csvName d.text] := by
  have socket : '_' ∉ "socket".toList ++ str n := notMem_append_str (by decide) (by decide) n
  refine text_not_infix_join ?_ ?_
  · simp only [List.forall_mem_cons, List.not_mem_nil, false_implies, implies_true, and_true]
    exact ⟨plain, by decide, socket, by cases d <;> decide⟩
  · simp only [List.forall_mem_cons, List.not_mem_nil, false_implies, implies_true, and_true]
    exact ⟨word, by cases t <;> decide, word_not_suffix_socket t n, word_not_suffix_csvName t _⟩

theorem csvName_not_suffix_of_end {dev f post : Str} (ending : post <:+ f)
    (length : post.length = 4) (differs : post ≠ ".csv".toList) : ¬ csvName dev <:+ f := by
  intro h
  have csv : ".csv".toList <:+ f := (List.suffix_append dev _).trans h
  exact differs ((List.suffix_of_suffix_length_le ending csv (by rw [length]; decide)).eq_of_length
    (by rw [length]; decide))

theorem csvName_not_suffix_npbFile {dev : Str} (h : DeviceName dev) (name : Str) (n : Nat)
    (d : Dvfs) (t : Threads) : ¬ csvName dev <:+ npbFile name n d t := by
  have capital : 'T' ∉ csvName dev := by
    intro hc
    rcases List.mem_append.mp hc with hc | hc
    · exact notMem_of_plain h (by decide) (by decide) hc
    · exact absurd hc (by decide)
  have split : ∃ front, npbFile name n d t = front ++ 'T' :: ".csv".toList := by
    refine ⟨"npb".toList ++ '.' :: (name ++ '.' :: ("socket".toList ++ str n ++ '.' :: (d.text ++
      '.' :: t.text.dropLast))), ?_⟩
    simp only [npbFile, joinSegments, List.append_assoc, List.cons_append]
    cases t <;> rfl
  obtain ⟨front, split⟩ := split
  rw [split, suffix_append_sep capital]
  intro short
  have length := short.length_le
  rw [csvName, List.length_append] at length
  exact h.nonempty (List.eq_nil_of_length_eq_zero (by omega))

theorem passes_otherFile {f : Str} (other : OtherFile f) (d : Iodepth) (t : FioType) {dev : Str}
    (h : DeviceName dev) : passes d.number t.text dev f = false := by
  have noType : ¬ t.text <:+: f → passes d.number t.text dev f = false := by
    intro no
    simp [passes, isIn, no]
  have noEnd : ¬ csvName dev <:+ f → passes d.number t.text dev f = false := by
    intro no
    simp [passes, endswith, no]
  cases other with
  | disks => exact noType (by cases t <;> decide)
  | fioInfo => exact noType (by cases t <;> decide)
  | streamInfo => exact noType (by cases t <;> decide)
  | membenchInfo => exact noType (by cases t <;> decide)
  | diskInfo name hname =>
      refine noType (text_not_infix_join ?_ ?_)
      · simp only [List.forall_mem_cons, List.not_mem_nil, false_implies, implies_true, and_true]
        exact ⟨by decide, by decide, notMem_csvName hname⟩
      · simp only [List.forall_mem_cons, List.not_mem_nil, false_implies, implies_true, and_true]
        exact ⟨by cases t <;> decide, by cases t <;> decide, word_not_suffix_csvName t name⟩
  | stream n mode => exact noType (text_not_infix_out (by decide) (by cases t <;> decide) n mode)
  | membench n mode => exact noType (text_not_infix_out (by decide) (by cases t <;> decide) n mode)
  | npb name n mode threads => exact noEnd (csvName_not_suffix_npbFile h name n mode threads)
  | npbOut name n mode threads =>
      exact noEnd (csvName_not_suffix_of_end (last_suffix_joinSegments "npb".toList "out".toList
        [name, "socket".toList ++ str n, mode.text, threads.text]) rfl (by decide))
  | extraNpb name n i hname =>
      have dot : '.' ∉ t.text := by cases t <;> decide
      have line := underscore_mem_text t
      have socket : '_' ∉ "socket".toList ++ str n := notMem_append_str (by decide) (by decide) n
      have run : '_' ∉ "run".toList ++ str i := notMem_append_str (by decide) (by decide) i
      refine noType ?_
      rw [infix_joinSegments dot (List.ne_nil_of_mem line)]
      simp only [List.exists_mem_cons_iff, List.not_mem_nil, false_and, exists_false, or_false,
        not_or]
      exact ⟨not_infix_of_notMem line (by decide), hname t,
        not_infix_of_notMem line socket, not_infix_of_notMem line (by decide),
        not_infix_of_notMem line (by decide), not_infix_of_notMem line run,
        not_infix_of_notMem line (by decide)⟩
  | extraNpbOut name n i =>
      exact noEnd (csvName_not_suffix_of_end (last_suffix_joinSegments "extra-npb".toList
        "out".toList [name, "socket".toList ++ str n, Dvfs.nodvfs.text, Threads.mt.text,
          "run".toList ++ str i]) rfl (by decide))
  | unrelated f no => exact noType (no t)

/-! ### The lookups over all orders -/

/-- No device name ends another one, and none contains a depth. -/
structure Separable (devices : List Str) : Prop where
  suffix : ∀ dev ∈ devices, ∀ dev' ∈ devices, dev <:+ dev' → dev = dev'
  depth : ∀ dev ∈ devices, ∀ d : Iodepth, ¬ ioWord d.number <:+: dev

theorem fioFile_device_injective {t : FioType} {d : Iodepth} {dev dev' : Str}
    (h : fioFile t d dev = fioFile t d dev') : dev = dev' := by
  simp only [fioFile, joinSegments, List.append_cancel_left_eq, List.cons.injEq, true_and] at h
  exact List.append_cancel_right h

theorem fioFile_depth_ne (t : FioType) {d d' : Iodepth} (hd : d ≠ d') (dev : Str) :
    fioFile t d dev ≠ fioFile t d' dev := by
  intro h
  simp only [fioFile, joinSegments, List.append_assoc, List.append_cancel_left_eq, List.cons.injEq,
    true_and] at h
  cases d <;> cases d' <;> first | exact hd rfl | exact absurd (List.cons.inj h).1 (by decide)

theorem find_eq_iff {iodepth : Nat} {type device f : Str} {filenames : List Str} :
    findFioBenchmarkResultFile iodepth type device filenames = some (path f) ↔
      filenames.find? (passes iodepth type device) = some f := by
  unfold findFioBenchmarkResultFile
  rw [← Option.map_some, (Option.map_injective path_injective).eq_iff]

/-- A lookup that is right in every order has its own file as only match. -/
theorem attributed_iff_only_match {devices entries : List Str}
    (names : ∀ dev ∈ devices, DeviceName dev) (directory : Directory devices entries) :
    Attributed devices entries ↔ ∀ d t, ∀ dev ∈ devices, ∀ y ∈ entries,
      passes d.number (FioType.text t) dev y = true → y = fioFile t d dev := by
  constructor
  · intro h d t dev hdev
    have all := fun m hm => find_eq_iff.mp (h m hm d t dev hdev)
    exact (find_perm_iff.mp all).2.2
  · intro only m hm d t dev hdev
    have file := directory.written dev hdev t d
    have own : passes d.number t.text dev (fioFile t d dev) = true := by
      rw [passes_fioFile d d t t (names dev hdev) (names dev hdev)]
      exact ⟨rfl, Or.inl rfl, List.suffix_refl dev⟩
    rw [find_eq_iff]
    exact find_perm_iff.mpr ⟨file, own, only d t dev hdev⟩ m hm

theorem separable_of_attributed {devices entries : List Str}
    (names : ∀ dev ∈ devices, DeviceName dev) (directory : Directory devices entries)
    (h : Attributed devices entries) : Separable devices := by
  rw [attributed_iff_only_match names directory] at h
  refine ⟨?_, ?_⟩
  · -- the file of the longer name passes the lookup of the shorter one
    intro dev hdev dev' hdev' ends
    have hit := (passes_fioFile .one .one .readSeq .readSeq (names dev hdev)
      (names dev' hdev')).mpr ⟨rfl, Or.inl rfl, ends⟩
    have file := directory.written dev' hdev' .readSeq .one
    exact (fioFile_device_injective (h .one .readSeq dev hdev _ file hit)).symm
  · -- a device that contains a depth matches it in the file of the other depth
    intro dev hdev d contains
    have other : ∃ d' : Iodepth, d' ≠ d := by
      cases d with
      | one => exact ⟨.full, by decide⟩
      | full => exact ⟨.one, by decide⟩
    obtain ⟨d', hd⟩ := other
    have hit := (passes_fioFile d d' .readSeq .readSeq (names dev hdev) (names dev hdev)).mpr
      ⟨rfl, Or.inr contains, List.suffix_refl dev⟩
    have file := directory.written dev hdev .readSeq d'
    exact fioFile_depth_ne .readSeq hd dev (h d .readSeq dev hdev _ file hit)

theorem attributed_of_separable {devices entries : List Str}
    (names : ∀ dev ∈ devices, DeviceName dev) (directory : Directory devices entries)
    (separable : Separable devices) : Attributed devices entries := by
  rw [attributed_iff_only_match names directory]
  intro d t dev hdev y hy hit
  rcases directory.only y hy with ⟨dev', hdev', t', d', rfl⟩ | other
  · rw [passes_fioFile d d' t t' (names dev hdev) (names dev' hdev')] at hit
    obtain ⟨rfl, depth, ends⟩ := hit
    rw [separable.suffix dev hdev dev' hdev' ends,
      depth.resolve_right (separable.depth dev' hdev' d)]
  · rw [passes_otherFile other d t (names dev hdev)] at hit
    exact absurd hit (by decide)

/-- Every lookup returns its own file in every order of the directory exactly
when the device names are separable. -/
theorem fio_attributed_iff (devices : List Str) (names : ∀ dev ∈ devices, DeviceName dev)
    (entries : List Str) (directory : Directory devices entries) :
    Attributed devices entries ↔ Separable devices :=
  ⟨separable_of_attributed names directory, attributed_of_separable names directory⟩

/-! ### The loop over the disks -/

theorem readDisks_disksTxt (devices : List Str) (h : ∀ dev ∈ devices, DeviceName dev) :
    readDisks (disksTxt devices) = devices := by
  have lines : disksTxt devices = ['\n'].intercalate (devices ++ [[]]) := by
    induction devices with
    | nil => rfl
    | cons dev devices ih =>
        rw [disksTxt, List.flatMap_cons, ← disksTxt,
          ih fun d hd => h d (List.mem_cons_of_mem dev hd)]
        cases devices <;> simp [List.intercalate]
  have newline : ∀ l ∈ devices ++ [[]], '\n' ∉ l := by
    intro l hl
    rcases List.mem_append.mp hl with hl | hl
    · exact notMem_of_plain (h l hl) (by decide) (by decide)
    · rw [List.mem_singleton.mp hl]
      exact List.not_mem_nil
  cases devices with
  | nil => rfl
  | cons dev devices =>
      have nonempty : disksTxt (dev :: devices) ≠ [] := by simp [disksTxt]
      rw [readDisks, if_neg nonempty, lines, List.splitOn_intercalate _ newline (by simp),
        List.dropLast_concat]

theorem fioWrites_eq {devices entries : List Str} (names : ∀ dev ∈ devices, DeviceName dev)
    (directory : Directory devices entries) (separable : Separable devices)
    (listing : Str → FioType → Iodepth → List Str)
    (listed : ∀ dev t d, (listing dev t d).Perm entries) :
    fioWrites (readDisks (disksTxt devices)) listing =
      devices.flatMap fun dev => types.flatMap fun t => depths.map fun d =>
        ⟨path (fioFile t d dev), t, d.number, dev⟩ := by
  have found : ∀ dev ∈ devices, ∀ t d, findFioBenchmarkResultFile d.number (FioType.text t) dev
      (listing dev t d) = some (path (fioFile t d dev)) :=
    fun dev hdev t d => attributed_of_separable names directory separable (listing dev t d)
      (listed dev t d) d t dev hdev
  unfold fioWrites
  rw [readDisks_disksTxt devices names]
  apply List.flatMap_congr
  intro dev hdev
  simp only [found dev hdev, Option.map_some, List.filterMap_eq_map']

/-! ### Two disks of each kind -/

def results (a b : Str) : List Str :=
  [a, b].flatMap fun dev => types.flatMap fun t => depths.map fun d => fioFile t d dev

theorem results_directory (a b : Str) : Directory [a, b] (results a b) := by
  have all : ∀ f, f ∈ results a b ↔ ∃ dev ∈ [a, b], ∃ t d, fioFile t d dev = f := by
    intro f
    have ht : ∀ t : FioType, t ∈ types := by intro t; cases t <;> decide
    have hd : ∀ d : Iodepth, d ∈ depths := by intro d; cases d <;> decide
    simp only [results, List.mem_flatMap, List.mem_map, ht, hd, true_and]
  refine ⟨?_, ?_⟩
  · intro dev hdev t d
    exact (all _).mpr ⟨dev, hdev, t, d, rfl⟩
  · intro f hf
    obtain ⟨dev, hdev, t, d, rfl⟩ := (all f).mp hf
    exact Or.inl ⟨dev, hdev, t, d, rfl⟩

theorem two_names {a b : Str} (ha : DeviceName a) (hb : DeviceName b) :
    ∀ dev ∈ [a, b], DeviceName dev := by
  intro dev hdev
  rcases List.mem_cons.mp hdev with rfl | hdev
  · exact ha
  · rw [List.mem_singleton.mp hdev]
    exact hb

theorem sda_sdb_attributed :
    Attributed ["sda".toList, "sdb".toList] (results "sda".toList "sdb".toList) := by
  have depth : ∀ d : Iodepth, ∀ dev ∈ ["sda".toList, "sdb".toList],
      ¬ ioWord d.number <:+: dev := by
    intro d
    cases d <;> decide
  have names := two_names (a := "sda".toList) (b := "sdb".toList) ⟨by decide, by decide⟩
    ⟨by decide, by decide⟩
  exact (fio_attributed_iff _ names _ (results_directory _ _)).mpr
    ⟨by decide, fun dev hdev d => depth d dev hdev⟩

/-- A disk `vda` beside a disk `xvda`: listed first, the file of `xvda` is
returned for `vda`. -/
theorem xvda_vda_misattributed :
    (∀ dev ∈ ["xvda".toList, "vda".toList], DeviceName dev) ∧
      Directory ["xvda".toList, "vda".toList] (results "xvda".toList "vda".toList) ∧
      ¬ Attributed ["xvda".toList, "vda".toList] (results "xvda".toList "vda".toList) := by
  refine ⟨two_names ⟨by decide, by decide⟩ ⟨by decide, by decide⟩, results_directory _ _, ?_⟩
  intro h
  have wanted := h (results "xvda".toList "vda".toList) (List.Perm.refl _) .one .readSeq
    "vda".toList (by decide)
  have returned : findFioBenchmarkResultFile Iodepth.one.number FioType.readSeq.text "vda".toList
      (results "xvda".toList "vda".toList) = some (path "fio_read_seq_io1_xvda.csv".toList) := by
    decide
  rw [returned] at wanted
  exact absurd wanted (by decide)

end Baseliner.OrchestratorFio
