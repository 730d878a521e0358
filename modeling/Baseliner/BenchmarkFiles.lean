import Baseliner.SegmentedNames

/-! File names of a benchmark run: those that `benchmark.sh` writes to the home
directory, and the string tests with which `orchestrator.py` finds them again.
A string is its list of characters; `str` of a number is its decimal digits. -/

namespace Baseliner.BenchmarkFiles
open SegmentedNames

abbrev Str := List Char

def str (n : Nat) : Str := Nat.toDigits 10 n

/-- `sub in s`. -/
def isIn (sub s : Str) : Bool := decide (sub <:+: s)

def startswith (s pre : Str) : Bool := decide (pre <+: s)

def endswith (s post : Str) : Bool := decide (post <:+ s)

def BASE_DIR : Str := "/root/".toList

/-- `os.path.join(BASE_DIR, filename)` for a name without a slash. -/
def path (filename : Str) : Str := BASE_DIR ++ filename

inductive Dvfs
  | dvfs | nodvfs
  deriving DecidableEq

def Dvfs.text : Dvfs → Str
  | .dvfs => "dvfs".toList
  | .nodvfs => "nodvfs".toList

inductive Threads
  | st | mt
  deriving DecidableEq

def Threads.text : Threads → Str
  | .st => "ST".toList
  | .mt => "MT".toList

/-- `npb.$filename.socket$n.dvfs.ST.csv` and its variants. -/
def npbFile (filename : Str) (n : Nat) (d : Dvfs) (t : Threads) : Str :=
  joinSegments '.' ["npb".toList, filename, "socket".toList ++ str n, d.text, t.text, "csv".toList]

inductive FioType
  | writeSeq | writeRand | readSeq | readRand
  deriving DecidableEq

def FioType.words : FioType → Str × Str
  | .writeSeq => ("write".toList, "seq".toList)
  | .writeRand => ("write".toList, "rand".toList)
  | .readSeq => ("read".toList, "seq".toList)
  | .readRand => ("read".toList, "rand".toList)

def FioType.text (t : FioType) : Str := t.words.1 ++ '_' :: t.words.2

inductive Iodepth
  | one | full
  deriving DecidableEq

/-- 1, or the `iodepth` of the script. -/
def Iodepth.number : Iodepth → Nat
  | .one => 1
  | .full => 4096

/-- `fio_write_seq_io$iodepth_$device.csv` and its variants. -/
def fioFile (t : FioType) (d : Iodepth) (device : Str) : Str :=
  joinSegments '_' ["fio".toList, t.words.1, t.words.2, "io".toList ++ str d.number,
    device ++ ".csv".toList]

theorem path_injective : Function.Injective path := fun _ _ h => List.append_cancel_left h

theorem str_isDigit {n : Nat} {c : Char} (h : c ∈ str n) : c.isDigit = true :=
  Nat.isDigit_of_mem_toDigits (by decide) (by decide) h

theorem notMem_str {c : Char} (h : c.isDigit = false) (n : Nat) : c ∉ str n := by
  intro hc
  rw [str_isDigit hc] at h
  exact absurd h (by decide)

theorem notMem_append_str {c : Char} (h : c.isDigit = false) {word : Str} (hw : c ∉ word)
    (n : Nat) : c ∉ word ++ str n := by
  intro hc
  rcases List.mem_append.mp hc with hc | hc
  · exact hw hc
  · exact notMem_str h n hc

end Baseliner.BenchmarkFiles
