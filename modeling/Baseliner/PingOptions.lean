import Mathlib.Data.List.Range
import Mathlib.Tactic.Common
import Mathlib.Tactic.IntervalCases
import Mathlib.Tactic.SplitIfs

/-! `pr_options` of `ping`, on memory from the first byte of the options on. A turn of
its loop is the list of what it does: the bytes it reads, what it prints, and how many
bytes it stores in `old_rr`. -/

namespace Baseliner.PingOptions

def IPOPT_EOL : UInt8 := 0
def IPOPT_NOP : UInt8 := 1
def IPOPT_RR : UInt8 := 7
def IPOPT_TS : UInt8 := 68
def IPOPT_LSRR : UInt8 := 131
def IPOPT_SSRR : UInt8 := 137

def IPOPT_MINOFF : Nat := 4
def IPOPT_TS_TSONLY : Nat := 0
def MAX_IPOPTLEN : Nat := 40

abbrev Memory := Nat → UInt8

inductive Item
  | nop
  | sourceRoute (strict : Bool)
  | address (bytes : List UInt8)
  | sameRoute
  | recordRoute
  | timestamps
  | stamp (standard absolute : Bool) (value : Int)
  | unrecordedHops (hops : Nat)
  | unknown (option : UInt8)
  deriving DecidableEq, Repr

inductive Act
  | read (k : Nat)
  | store (size : Nat)
  | print (item : Item)
  deriving DecidableEq, Repr

def word (mem : Memory) (cp : Nat) : List UInt8 :=
  [mem cp, mem (cp + 1), mem (cp + 2), mem (cp + 3)]

/-- `m` words from `cp` on. -/
def words (mem : Memory) (cp m : Nat) : List (List UInt8) :=
  (List.range m).map fun t => word mem (cp + 4 * t)

def readBytes (cp n : Nat) : List Act := (List.range' cp n).map .read

/-- An address is copied from `cp` and printed. -/
def printAddress (mem : Memory) (cp : Nat) : List Act :=
  readBytes cp 4 ++ [.print (.address (word mem cp))]

/-- `for (;;)` over addresses, until the counter `j` is down to `stop`. -/
def addresses (mem : Memory) (stop cp j : Nat) : List Act :=
  printAddress mem cp ++
    if h : j - 4 ≤ stop then [] else addresses mem stop (cp + 4) (j - 4)
termination_by j

/-- `IPOPT_SSRR` and `IPOPT_LSRR`. -/
def sourceRoute (mem : Memory) (b : Nat) : List Act :=
  let j := (mem (b + 1)).toNat
  [.print (.sourceRoute (mem b = IPOPT_SSRR)), .read (b + 1)] ++
    if j > IPOPT_MINOFF then addresses mem IPOPT_MINOFF (b + 2) j else []

/-- The pointer of an option, or its length if that is less. -/
def pointer (mem : Memory) (b : Nat) : Nat :=
  let j := (mem (b + 1)).toNat
  let i := (mem (b + 2)).toNat
  if i > j then j else i

/-- The bytes that are compared with `old_rr` and stored there: they start with the
pointer of the option. -/
def route (mem : Memory) (b : Nat) : List UInt8 :=
  (List.range' (b + 2) (pointer mem b - IPOPT_MINOFF)).map mem

/-- The record route that was printed last, if there was one: its memory and its place there. The
code keeps no more of it than `old_rr`. -/
abbrev Printed := Option (Memory × Nat)

/-- The first `old_rrlen` bytes of `old_rr`. -/
def oldRr : Printed → List UInt8
  | none => []
  | some (mem, b) => route mem b

def printedAddresses : Printed → List (List UInt8)
  | none => []
  | some (mem, b) => words mem (b + 3) ((pointer mem b - IPOPT_MINOFF + 3) / 4)

def Same (mem : Memory) (flood : Bool) (b : Nat) (last : Printed) : Prop :=
  route mem b = oldRr last ∧ flood = false

instance (mem : Memory) (flood : Bool) (b : Nat) (last : Printed) :
    Decidable (Same mem flood b last) := inferInstanceAs (Decidable (_ ∧ _))

/-- `IPOPT_RR`. -/
def recordRoute (mem : Memory) (flood : Bool) (b : Nat) (last : Printed) : List Act :=
  let i := pointer mem b - IPOPT_MINOFF
  [.read (b + 1), .read (b + 2)] ++
    if i = 0 then []
    else
      readBytes (b + 2) i ++
        if Same mem flood b last then [.print .sameRoute]
        else [.store i, .print .recordRoute] ++ addresses mem 0 (b + 3) i

def routeAfter (mem : Memory) (flood : Bool) (b : Nat) (last : Printed) : Printed :=
  if pointer mem b - IPOPT_MINOFF = 0 ∨ Same mem flood b last then last else some (mem, b)

/-- The time of one hop and those printed last, `0` before the first one. -/
structure Times where
  stdtime : Nat
  nonstdtime : Nat

def stampAt (mem : Memory) (cp : Nat) : Nat :=
  (((mem cp).toNat * 256 + (mem (cp + 1)).toNat) * 256 + (mem (cp + 2)).toNat) * 256 +
    (mem (cp + 3)).toNat

def Times.item (times : Times) (l : Nat) : Item :=
  if 2 ^ 31 ≤ l then
    if times.nonstdtime = 0 then .stamp false true (l % 2 ^ 31 : Nat)
    else .stamp false false ((l % 2 ^ 31 : Nat) - times.nonstdtime)
  else if times.stdtime = 0 then .stamp true true l
  else .stamp true false (l - times.stdtime)

def Times.next (times : Times) (l : Nat) : Times :=
  if 2 ^ 31 ≤ l then { times with nonstdtime := l % 2 ^ 31 } else { times with stdtime := l }

/-- `for (;;)` over the hops, each a time or an address and a time. -/
def hops (mem : Memory) (tsonly : Bool) (cp i : Nat) (times : Times) : List Act :=
  let stamp (cp : Nat) := readBytes cp 4 ++ [.print (times.item (stampAt mem cp))]
  if tsonly then
    stamp cp ++
      if h : i ≤ 4 then [] else hops mem tsonly (cp + 4) (i - 4) (times.next (stampAt mem cp))
  else
    printAddress mem cp ++
      if i ≤ 4 then []
      else
        stamp (cp + 4) ++
          if h : i - 4 ≤ 4 then []
          else hops mem tsonly (cp + 8) (i - 8) (times.next (stampAt mem (cp + 4)))
termination_by i

/-- `IPOPT_TS`. -/
def timestamp (mem : Memory) (b : Nat) : List Act :=
  let i := pointer mem b - 5
  [.read (b + 1), .read (b + 2)] ++
    if i = 0 then []
    else
      let flags := (mem (b + 3)).toNat
      [.read (b + 3), .print .timestamps] ++
        hops mem (flags % 16 = IPOPT_TS_TSONLY) (b + 4) i ⟨0, 0⟩ ++
          if flags / 16 = 0 then [] else [.print (.unrecordedHops (flags / 16))]

/-- The `switch` over the type of an option. -/
def option (mem : Memory) (flood : Bool) (b : Nat) (last : Printed) : List Act :=
  if mem b = IPOPT_SSRR ∨ mem b = IPOPT_LSRR then sourceRoute mem b
  else if mem b = IPOPT_RR then recordRoute mem flood b last
  else if mem b = IPOPT_TS then timestamp mem b
  else [.print (.unknown (mem b))]

def optionAfter (mem : Memory) (flood : Bool) (b : Nat) (last : Printed) : Printed :=
  if mem b = IPOPT_RR then routeAfter mem flood b last else last

/-- One turn of the loop, with `optptr` at `start`, after a record route over `before`. -/
structure Turn where
  start : Nat
  before : List (List UInt8)
  acts : List Act
  deriving DecidableEq, Repr

/-- The loop, with a bound on its turns: `none` if it goes on for longer. -/
def prOptions (mem : Memory) (flood : Bool) :
    Nat → Nat → Nat → Printed → Option (List Turn × Printed)
  | turns, totlen, b, last =>
      if totlen = 0 then some ([], last)
      else
        match turns with
        | 0 => none
        | turns + 1 =>
            let before := printedAddresses last
            if mem b = IPOPT_EOL then some ([⟨b, before, [.read b]⟩], last)
            else if mem b = IPOPT_NOP then
              (prOptions mem flood turns (totlen - 1) (b + 1) last).map
                (Prod.map (⟨b, before, [.read b, .print .nop]⟩ :: ·) id)
            else
              let optlen := (mem (b + 1)).toNat
              if optlen < 2 ∨ totlen < optlen then
                some ([⟨b, before, [.read b, .read (b + 1)]⟩], last)
              else
                (prOptions mem flood turns (totlen - optlen) (b + optlen)
                    (optionAfter mem flood b last)).map
                  (Prod.map
                    (⟨b, before, [.read b, .read (b + 1)] ++ option mem flood b last⟩ :: ·) id)

/-- Where `ping4_parse_reply` finds the options: behind a header of `ihl` words, or in a
control message of type `IP_RETOPTS` with `n` bytes, if there is one. -/
inductive Options
  | raw (ihl : Nat)
  | dgram (n : Option Nat)

def Options.area : Options → Nat
  | .raw ihl => 4 * ihl - 20
  | .dgram n => n.getD 0

/-- `sizeof(struct cmsghdr)`, which is part of `cmsg_len`. -/
def CMSG_HDR : Nat := 16

/-- `optlen`. -/
def Options.optlen : Options → Nat
  | .raw ihl => 4 * ihl - 20
  | .dgram none => 0
  | .dgram (some n) => CMSG_HDR + n

/-! ### What a turn may do -/

section Acts

variable {n : Nat} {acts rest : List Act}

def ReadsBelow (n : Nat) (acts : List Act) : Prop := ∀ k, .read k ∈ acts → k < n

def StoresFit (acts : List Act) : Prop := ∀ size, .store size ∈ acts → size ≤ MAX_IPOPTLEN

def shown (acts : List Act) : List (List UInt8) :=
  acts.filterMap fun
    | .print (.address bytes) => some bytes
    | _ => none

@[simp] theorem readsBelow_nil : ReadsBelow n [] := fun _ h => absurd h List.not_mem_nil

@[simp] theorem readsBelow_append :
    ReadsBelow n (acts ++ rest) ↔ ReadsBelow n acts ∧ ReadsBelow n rest := by
  simp only [ReadsBelow, List.mem_append, or_imp, forall_and]

@[simp] theorem readsBelow_read (k : Nat) :
    ReadsBelow n (.read k :: acts) ↔ k < n ∧ ReadsBelow n acts := by
  simp [ReadsBelow, or_imp, forall_and]

@[simp] theorem readsBelow_print (item : Item) :
    ReadsBelow n (.print item :: acts) ↔ ReadsBelow n acts := by
  simp [ReadsBelow]

@[simp] theorem readsBelow_store (size : Nat) :
    ReadsBelow n (.store size :: acts) ↔ ReadsBelow n acts := by
  simp [ReadsBelow]

@[simp] theorem storesFit_nil : StoresFit [] := fun _ h => absurd h List.not_mem_nil

@[simp] theorem storesFit_append :
    StoresFit (acts ++ rest) ↔ StoresFit acts ∧ StoresFit rest := by
  simp only [StoresFit, List.mem_append, or_imp, forall_and]

@[simp] theorem storesFit_read (k : Nat) : StoresFit (.read k :: acts) ↔ StoresFit acts := by
  simp [StoresFit]

@[simp] theorem storesFit_print (item : Item) :
    StoresFit (.print item :: acts) ↔ StoresFit acts := by
  simp [StoresFit]

@[simp] theorem storesFit_store (size : Nat) :
    StoresFit (.store size :: acts) ↔ size ≤ MAX_IPOPTLEN ∧ StoresFit acts := by
  simp [StoresFit, or_imp, forall_and]

@[simp] theorem shown_append : shown (acts ++ rest) = shown acts ++ shown rest :=
  List.filterMap_append

theorem readsBelow_readBytes {cp count : Nat} (some : 0 < count) :
    ReadsBelow n (readBytes cp count) ↔ cp + count ≤ n := by
  simp only [ReadsBelow, readBytes, List.mem_map, List.mem_range'_1, Act.read.injEq]
  constructor
  · intro h
    have last := h (cp + count - 1) ⟨_, by omega, rfl⟩
    omega
  · rintro h k ⟨k', inside, rfl⟩
    omega

@[simp] theorem storesFit_readBytes (cp count : Nat) : StoresFit (readBytes cp count) := by
  simp [StoresFit, readBytes]

@[simp] theorem shown_readBytes (cp count : Nat) : shown (readBytes cp count) = [] := by
  simp [shown, readBytes]

@[simp] theorem print_not_mem_readBytes (item : Item) (cp count : Nat) :
    .print item ∉ readBytes cp count := by
  simp [readBytes]

end Acts

theorem words_succ (mem : Memory) (cp m : Nat) :
    words mem cp (m + 1) = word mem cp :: words mem (cp + 4) m := by
  rw [words, words, List.range_succ_eq_map, List.map_cons, List.map_map]
  refine congrArg _ (List.map_congr_left fun t _ => ?_)
  exact congrArg (word mem) (by omega)

@[simp] theorem readsBelow_printAddress (n : Nat) (mem : Memory) (cp : Nat) :
    ReadsBelow n (printAddress mem cp) ↔ cp + 4 ≤ n := by
  simp [printAddress, readsBelow_readBytes]

@[simp] theorem storesFit_printAddress (mem : Memory) (cp : Nat) :
    StoresFit (printAddress mem cp) := by
  simp [printAddress]

@[simp] theorem shown_printAddress (mem : Memory) (cp : Nat) :
    shown (printAddress mem cp) = [word mem cp] := by
  rw [printAddress, shown_append, shown_readBytes]
  rfl

@[simp] theorem sameRoute_not_mem_printAddress (mem : Memory) (cp : Nat) :
    .print .sameRoute ∉ printAddress mem cp := by
  simp [printAddress]

/-- What a loop over addresses does: as many words as the counter asks for, the last one
in full. -/
structure Loops (mem : Memory) (cp m : Nat) (acts : List Act) : Prop where
  reads : ∀ n, ReadsBelow n acts ↔ cp + 4 * m ≤ n
  stores : StoresFit acts
  shows_ : shown acts = words mem cp m
  fresh : .print .sameRoute ∉ acts

theorem loops_addresses (mem : Memory) (stop cp j : Nat) (more : stop < j) :
    Loops mem cp ((j - stop + 3) / 4) (addresses mem stop cp j) := by
  fun_induction addresses mem stop cp j with
  | case1 cp j ih =>
      by_cases last : j - 4 ≤ stop
      · have one : (j - stop + 3) / 4 = 1 := by omega
        rw [dif_pos last, List.append_nil, one]
        constructor
        · simp
        · simp
        · simp [words]
        · simp
      · have next := ih last (by omega)
        have count : (j - stop + 3) / 4 = (j - 4 - stop + 3) / 4 + 1 := by omega
        rw [dif_neg last, count]
        constructor
        · intro n
          rw [readsBelow_append, readsBelow_printAddress, next.reads]
          omega
        · simpa using next.stores
        · rw [shown_append, next.shows_, words_succ, shown_printAddress]
          rfl
        · simpa using next.fresh

theorem hops_reads (mem : Memory) (tsonly : Bool) (cp i : Nat) (times : Times) (more : 0 < i) :
    (∀ n, ReadsBelow n (hops mem tsonly cp i times) ↔ cp + 4 * ((i + 3) / 4) ≤ n) ∧
      StoresFit (hops mem tsonly cp i times) := by
  have stampReads (cp n : Nat) (item : Item) :
      ReadsBelow n (readBytes cp 4 ++ [.print item]) ↔ cp + 4 ≤ n := by
    simp [readsBelow_readBytes]
  have stampStores (cp : Nat) (item : Item) : StoresFit (readBytes cp 4 ++ [.print item]) := by
    simp
  fun_induction hops mem tsonly cp i times with
  | case1 cp i times stamp only ih =>
      by_cases last : i ≤ 4
      · have one : (i + 3) / 4 = 1 := by omega
        rw [dif_pos last, List.append_nil, one]
        exact ⟨fun n => stampReads cp n _, stampStores cp _⟩
      · have count : (i + 3) / 4 = (i - 4 + 3) / 4 + 1 := by omega
        obtain ⟨reads, stores⟩ := ih last (by omega)
        rw [dif_neg last, count]
        refine ⟨fun n => ?_, storesFit_append.mpr ⟨stampStores cp _, stores⟩⟩
        rw [readsBelow_append, stampReads, reads]
        omega
  | case2 cp i times stamp both ih =>
      by_cases first : i ≤ 4
      · have one : (i + 3) / 4 = 1 := by omega
        rw [if_pos first, List.append_nil, one]
        exact ⟨fun n => readsBelow_printAddress n mem cp, storesFit_printAddress mem cp⟩
      · rw [if_neg first]
        by_cases last : i - 4 ≤ 4
        · have two : (i + 3) / 4 = 2 := by omega
          rw [dif_pos last, List.append_nil, two]
          refine ⟨fun n => ?_,
            storesFit_append.mpr ⟨storesFit_printAddress mem cp, stampStores (cp + 4) _⟩⟩
          rw [readsBelow_append, readsBelow_printAddress, stampReads]
          omega
        · have count : (i + 3) / 4 = (i - 8 + 3) / 4 + 2 := by omega
          obtain ⟨reads, stores⟩ := ih first (by omega)
          rw [dif_neg last, count]
          refine ⟨fun n => ?_, storesFit_append.mpr ⟨storesFit_printAddress mem cp,
            storesFit_append.mpr ⟨stampStores (cp + 4) _, stores⟩⟩⟩
          rw [readsBelow_append, readsBelow_append, readsBelow_printAddress, stampReads, reads]
          omega

/-! ### One option -/

section OneOption

variable (mem : Memory) (n : Nat) (flood : Bool) (b : Nat) (last : Printed)

def IsSourceRoute : Prop := mem b = IPOPT_SSRR ∨ mem b = IPOPT_LSRR

instance : Decidable (IsSourceRoute mem b) := inferInstanceAs (Decidable (_ ∨ _))

def extent : Nat :=
  if IsSourceRoute mem b then
    if (mem (b + 1)).toNat ≤ 4 then 2 else 2 + 4 * (((mem (b + 1)).toNat - 4 + 3) / 4)
  else if mem b = IPOPT_RR then
    if pointer mem b ≤ 4 then 3
    else if Same mem flood b last then 2 + (pointer mem b - 4)
    else 3 + 4 * ((pointer mem b - 4 + 3) / 4)
  else if mem b = IPOPT_TS then
    if pointer mem b ≤ 5 then 3 else 4 + 4 * ((pointer mem b - 5 + 3) / 4)
  else 2

/-- A route of whole addresses in the area, with a pointer to one of them or behind the
last one. -/
structure WellFormedRoute : Prop where
  kind : IsSourceRoute mem b ∨ mem b = IPOPT_RR
  size : (mem (b + 1)).toNat % 4 = 3
  inside : b + (mem (b + 1)).toNat ≤ n
  low : 4 ≤ (mem (b + 2)).toNat
  aligned : (mem (b + 2)).toNat % 4 = 0
  high : (mem (b + 2)).toNat ≤ (mem (b + 1)).toNat + 1

/-- How many addresses are to be shown: those recorded so far, or all of a source route. -/
def routeCount : Nat :=
  if mem b = IPOPT_RR then ((mem (b + 2)).toNat - 4) / 4 else ((mem (b + 1)).toNat - 3) / 4

/-- The words at offsets 3, 7, 11 and so on of the option are shown, or it is said that
they are those printed before, and they are. -/
def RouteShown (turn : Turn) : Prop :=
  (.print .sameRoute ∈ turn.acts ∧
      turn.before = words mem (turn.start + 3) (routeCount mem turn.start)) ∨
    shown turn.acts = words mem (turn.start + 3) (routeCount mem turn.start)

/-- The octets of the route that are not compared are those of the route printed before. The
comparison starts with the pointer, so that the last octet is left out, and when the option is full
the last two are. -/
def RestSame : Prop :=
  ∀ old ∈ last, ∀ k < 4 * routeCount mem b, pointer mem b - IPOPT_MINOFF ≤ k + 1 →
    mem (b + 3 + k) = old.1 (old.2 + 3 + k)

structure Safe (turn : Turn) : Prop where
  inside : ReadsBelow n turn.acts
  fits : StoresFit turn.acts
  route : WellFormedRoute mem n turn.start → RouteShown mem turn

structure Fine : Prop where
  inside : b + extent mem flood b last ≤ n
  fits : mem b = IPOPT_RR → ¬ Same mem flood b last → pointer mem b - 4 ≤ MAX_IPOPTLEN
  route : IsSourceRoute mem b → WellFormedRoute mem n b →
    ∀ k < (mem (b + 1)).toNat - 3, mem (b + 3 + k) = mem (b + 2)
  same : mem b = IPOPT_RR → WellFormedRoute mem n b → 4 < pointer mem b →
    Same mem flood b last → RestSame mem b last

variable {mem n flood b last}

theorem sourceRoute_reads :
    ReadsBelow n (sourceRoute mem b) ↔ b + 1 < n ∧
      (4 < (mem (b + 1)).toNat → b + 2 + 4 * (((mem (b + 1)).toNat - 4 + 3) / 4) ≤ n) := by
  unfold sourceRoute IPOPT_MINOFF
  dsimp only
  by_cases long : 4 < (mem (b + 1)).toNat
  · have loop := loops_addresses mem 4 (b + 2) (mem (b + 1)).toNat long
    rw [if_pos long]
    simp [loop.reads, long]
  · rw [if_neg long]
    simp [long]

theorem sourceRoute_shows :
    StoresFit (sourceRoute mem b) ∧ .print .sameRoute ∉ sourceRoute mem b ∧
      shown (sourceRoute mem b) = words mem (b + 2) (((mem (b + 1)).toNat - 4 + 3) / 4) := by
  unfold sourceRoute IPOPT_MINOFF
  dsimp only
  by_cases long : 4 < (mem (b + 1)).toNat
  · have loop := loops_addresses mem 4 (b + 2) (mem (b + 1)).toNat long
    rw [if_pos long, shown_append, loop.shows_]
    exact ⟨by simpa using loop.stores, by simpa using loop.fresh, rfl⟩
  · have none : ((mem (b + 1)).toNat - 4 + 3) / 4 = 0 := by omega
    rw [if_neg long, none]
    exact ⟨by simp, by simp, rfl⟩

theorem recordRoute_idle (empty : pointer mem b ≤ 4) :
    recordRoute mem flood b last = [.read (b + 1), .read (b + 2)] := by
  unfold recordRoute IPOPT_MINOFF
  dsimp only
  rw [if_pos (by omega), List.append_nil]

theorem recordRoute_same (some : 4 < pointer mem b) (same : Same mem flood b last) :
    recordRoute mem flood b last =
      [.read (b + 1), .read (b + 2)] ++
        (readBytes (b + 2) (pointer mem b - 4) ++ [.print .sameRoute]) := by
  unfold recordRoute IPOPT_MINOFF
  dsimp only
  rw [if_neg (by omega)]
  exact congrArg _ (congrArg _ (if_pos same))

theorem recordRoute_new (some : 4 < pointer mem b) (new : ¬ Same mem flood b last) :
    recordRoute mem flood b last =
      [.read (b + 1), .read (b + 2)] ++
        (readBytes (b + 2) (pointer mem b - 4) ++
          ([.store (pointer mem b - 4), .print .recordRoute] ++
            addresses mem 0 (b + 3) (pointer mem b - 4))) := by
  unfold recordRoute IPOPT_MINOFF
  dsimp only
  rw [if_neg (by omega)]
  exact congrArg _ (congrArg _ (if_neg new))

theorem timestamp_reads :
    (ReadsBelow n (timestamp mem b) ↔ b + 2 < n ∧
      (5 < pointer mem b → b + 4 + 4 * ((pointer mem b - 5 + 3) / 4) ≤ n)) ∧
    StoresFit (timestamp mem b) := by
  unfold timestamp
  dsimp only
  by_cases long : 5 < pointer mem b
  · rw [if_neg (by omega)]
    obtain ⟨reads, stores⟩ := hops_reads mem ((mem (b + 3)).toNat % 16 = IPOPT_TS_TSONLY) (b + 4)
      (pointer mem b - 5) ⟨0, 0⟩ (by omega)
    generalize hops mem _ (b + 4) (pointer mem b - 5) ⟨0, 0⟩ = loop at reads stores ⊢
    split
    · simp [reads, stores, long]
      omega
    · simp [reads, stores, long]
      omega
  · rw [if_pos (by omega)]
    simp [long]
    omega

theorem not_isSourceRoute (kind : mem b = IPOPT_RR) : ¬ IsSourceRoute mem b := by
  rw [IsSourceRoute, kind]
  decide

theorem option_source (kind : IsSourceRoute mem b) :
    option mem flood b last = sourceRoute mem b :=
  if_pos kind

theorem option_record (kind : mem b = IPOPT_RR) :
    option mem flood b last = recordRoute mem flood b last := by
  exact (if_neg (not_isSourceRoute kind)).trans (if_pos kind)

theorem option_timestamp (kind : mem b = IPOPT_TS) :
    option mem flood b last = timestamp mem b := by
  unfold option
  rw [if_neg (by rw [kind]; decide), if_neg (by rw [kind]; decide), if_pos kind]

theorem option_unknown (source : ¬ IsSourceRoute mem b) (record : mem b ≠ IPOPT_RR)
    (times : mem b ≠ IPOPT_TS) : option mem flood b last = [.print (.unknown (mem b))] := by
  exact (if_neg source).trans ((if_neg record).trans (if_neg times))

def optionTurn (mem : Memory) (flood : Bool) (b : Nat) (last : Printed) : Turn :=
  ⟨b, printedAddresses last, [.read b, .read (b + 1)] ++ option mem flood b last⟩

theorem inside_iff :
    ReadsBelow n (optionTurn mem flood b last).acts ↔ b + extent mem flood b last ≤ n := by
  unfold optionTurn extent
  by_cases source : IsSourceRoute mem b
  · rw [option_source source, if_pos source, readsBelow_append, sourceRoute_reads]
    simp only [readsBelow_read, readsBelow_nil, and_true]
    split
    · omega
    · omega
  rw [if_neg source]
  by_cases record : mem b = IPOPT_RR
  · rw [option_record record, if_pos record]
    split
    · rename_i empty
      rw [recordRoute_idle empty]
      simp only [readsBelow_append, readsBelow_read, readsBelow_nil, and_true]
      omega
    · rename_i some
      split
      · rename_i same
        rw [recordRoute_same (by omega) same]
        simp only [readsBelow_append, readsBelow_read, readsBelow_print, readsBelow_nil, and_true]
        rw [readsBelow_readBytes (by omega)]
        omega
      · rename_i new
        have loop := loops_addresses mem 0 (b + 3) (pointer mem b - 4) (by omega)
        rw [recordRoute_new (by omega) new]
        simp only [readsBelow_append, readsBelow_read, readsBelow_print, readsBelow_store,
          readsBelow_nil, and_true, true_and, loop.reads, Nat.sub_zero]
        rw [readsBelow_readBytes (by omega)]
        omega
  rw [if_neg record]
  by_cases times : mem b = IPOPT_TS
  · rw [option_timestamp times, if_pos times, readsBelow_append, timestamp_reads.1]
    simp only [readsBelow_read, readsBelow_nil, and_true]
    split
    · omega
    · omega
  · rw [option_unknown source record times, if_neg times]
    simp only [readsBelow_append, readsBelow_read, readsBelow_print, readsBelow_nil, and_true]
    omega

theorem fits_iff :
    StoresFit (optionTurn mem flood b last).acts ↔
      (mem b = IPOPT_RR → ¬ Same mem flood b last → pointer mem b - 4 ≤ MAX_IPOPTLEN) := by
  unfold optionTurn
  by_cases source : IsSourceRoute mem b
  · have other : mem b ≠ IPOPT_RR := fun record => not_isSourceRoute record source
    have stores := (@sourceRoute_shows mem b).1
    rw [option_source source]
    simp [stores, other]
  by_cases record : mem b = IPOPT_RR
  · rw [option_record record]
    by_cases empty : pointer mem b ≤ 4
    · rw [recordRoute_idle empty, Nat.sub_eq_zero_of_le empty]
      simp
    · by_cases same : Same mem flood b last
      · rw [recordRoute_same (by omega) same]
        simp [same]
      · have loop := loops_addresses mem 0 (b + 3) (pointer mem b - 4) (by omega)
        rw [recordRoute_new (by omega) same]
        simp [same, record, loop.stores]
  by_cases times : mem b = IPOPT_TS
  · have stores := (@timestamp_reads mem 0 b).2
    rw [option_timestamp times]
    simp [stores, record]
  · rw [option_unknown source record times]
    simp [record]

theorem word_eq_iff (mem mem' : Memory) (cp cp' : Nat) :
    word mem cp = word mem' cp' ↔ ∀ s < 4, mem (cp + s) = mem' (cp' + s) := by
  constructor
  · intro same s low
    simp only [word, List.cons.injEq, and_true] at same
    obtain ⟨first, second, third, fourth⟩ := same
    interval_cases s
    · exact first
    · exact second
    · exact third
    · exact fourth
  · intro same
    have first : mem cp = mem' cp' := same 0 (by omega)
    rw [word, word, first, same 1 (by omega), same 2 (by omega), same 3 (by omega)]

theorem words_eq_iff (mem mem' : Memory) (cp cp' m : Nat) :
    words mem cp m = words mem' cp' m ↔ ∀ k < 4 * m, mem (cp + k) = mem' (cp' + k) := by
  simp only [words, List.map_inj_left, List.mem_range, word_eq_iff]
  constructor
  · intro same k low
    have here := same (k / 4) (by omega) (k % 4) (by omega)
    have place : 4 * (k / 4) + k % 4 = k := by omega
    rwa [Nat.add_assoc, Nat.add_assoc, place] at here
  · intro same t low s high
    rw [Nat.add_assoc, Nat.add_assoc]
    exact same (4 * t + s) (by omega)

/-- Words that are read one byte too early are right only where all bytes are the same. -/
theorem words_early_iff (cp m : Nat) :
    words mem cp m = words mem (cp + 1) m ↔ ∀ k < 4 * m, mem (cp + 1 + k) = mem cp := by
  rw [words_eq_iff]
  constructor
  · intro same k low
    induction k with
    | zero => exact (same 0 low).symm
    | succ k ih =>
        rw [← ih (by omega)]
        have next := same (k + 1) low
        have place : cp + (k + 1) = cp + 1 + k := by omega
        rw [place] at next
        exact next.symm
  · intro same k low
    rw [same k low]
    cases k with
    | zero => rfl
    | succ k =>
        have place : cp + (k + 1) = cp + 1 + k := by omega
        rw [place]
        exact same k (by omega)

/-- A well-formed source route is shown as it should be exactly when its addresses consist of
copies of its pointer. -/
theorem sourceRoute_iff (form : WellFormedRoute mem n b) (source : IsSourceRoute mem b) :
    RouteShown mem (optionTurn mem flood b last) ↔
      ∀ k < (mem (b + 1)).toNat - 3, mem (b + 3 + k) = mem (b + 2) := by
  have size := form.size
  have low := form.low
  have aligned := form.aligned
  have high := form.high
  have other : mem b ≠ IPOPT_RR := fun record => not_isSourceRoute record source
  obtain ⟨-, fresh, shows_⟩ := @sourceRoute_shows mem b
  have all : ((mem (b + 1)).toNat - 4 + 3) / 4 = ((mem (b + 1)).toNat - 3) / 4 := by omega
  have bytes : (mem (b + 1)).toNat - 3 = 4 * (((mem (b + 1)).toNat - 3) / 4) := by omega
  have notSame : .print .sameRoute ∉ [.read b, .read (b + 1)] ++ sourceRoute mem b := by
    simpa using fresh
  have none_ : shown [.read b, .read (b + 1)] = [] := rfl
  unfold RouteShown routeCount optionTurn
  rw [option_source source, if_neg other, or_iff_right fun h => notSame h.1, shown_append,
    shows_, all, none_, List.nil_append]
  change words mem (b + 2) _ = words mem (b + 2 + 1) _ ↔ _
  rw [words_early_iff, ← bytes]

theorem route_eq_iff (mem mem' : Memory) (b b' : Nat) :
    route mem b = route mem' b' ↔
      pointer mem b - IPOPT_MINOFF = pointer mem' b' - IPOPT_MINOFF ∧
        ∀ k < pointer mem b - IPOPT_MINOFF, mem (b + 2 + k) = mem' (b' + 2 + k) := by
  have bytes (mem : Memory) (b : Nat) : route mem b =
      (List.range (pointer mem b - IPOPT_MINOFF)).map fun k => mem (b + 2 + k) := by
    rw [route, List.range'_eq_map_range, List.map_map]
    rfl
  rw [bytes, bytes]
  constructor
  · intro same
    have length := congrArg List.length same
    rw [List.length_map, List.length_map, List.length_range, List.length_range] at length
    rw [← length] at same ⊢
    exact ⟨rfl, fun k low => List.map_inj_left.mp same k (List.mem_range.mpr low)⟩
  · rintro ⟨length, same⟩
    rw [← length]
    exact List.map_inj_left.mpr fun k low => same k (List.mem_range.mp low)

theorem same_route_iff (some_ : 4 < pointer mem b)
    (count : routeCount mem b = (pointer mem b - IPOPT_MINOFF + 3) / 4)
    (same : Same mem flood b last) :
    printedAddresses last = words mem (b + 3) (routeCount mem b) ↔ RestSame mem b last := by
  obtain ⟨bytes, -⟩ := same
  cases last with
  | none =>
      have length := congrArg List.length bytes
      rw [route, List.length_map, List.length_range', IPOPT_MINOFF] at length
      exact absurd length (Nat.sub_ne_zero_of_lt some_)
  | some old =>
      obtain ⟨mem', b'⟩ := old
      obtain ⟨length, compared⟩ := (route_eq_iff mem mem' b b').mp bytes
      simp only [printedAddresses, RestSame, Option.mem_def, Option.some.injEq, forall_eq']
      rw [← length, ← count, eq_comm, words_eq_iff]
      constructor
      · exact fun every k low _ => every k low
      · intro rest k low
        by_cases behind : pointer mem b - IPOPT_MINOFF ≤ k + 1
        · exact rest k low behind
        · have own := compared (k + 1) (by omega)
          rwa [Nat.add_assoc b, Nat.add_assoc b', show 2 + (k + 1) = 3 + k by omega,
            ← Nat.add_assoc, ← Nat.add_assoc] at own

theorem recordRoute_iff (form : WellFormedRoute mem n b) (record : mem b = IPOPT_RR) :
    RouteShown mem (optionTurn mem flood b last) ↔
      (4 < pointer mem b → Same mem flood b last → RestSame mem b last) := by
  have size := form.size
  have low := form.low
  have aligned := form.aligned
  have high := form.high
  have least : pointer mem b = min (mem (b + 2)).toNat (mem (b + 1)).toNat := by
    unfold pointer
    dsimp only
    split
    · omega
    · omega
  have count : routeCount mem b = (pointer mem b - IPOPT_MINOFF + 3) / 4 := by
    rw [routeCount, if_pos record, IPOPT_MINOFF]
    omega
  unfold RouteShown optionTurn
  dsimp only
  rw [option_record record]
  by_cases empty : pointer mem b ≤ 4
  · have none_ : routeCount mem b = 0 := by
      rw [count, IPOPT_MINOFF]
      omega
    rw [recordRoute_idle empty, none_]
    exact iff_of_true (.inr rfl) fun some_ => absurd empty (Nat.not_le.mpr some_)
  by_cases same : Same mem flood b last
  · have some_ : routeCount mem b ≠ 0 := by
      rw [count, IPOPT_MINOFF]
      omega
    have silent : shown ([.read b, .read (b + 1)] ++ ([.read (b + 1), .read (b + 2)] ++
        (readBytes (b + 2) (pointer mem b - 4) ++ [.print .sameRoute]))) = [] := by
      simp only [shown_append, shown_readBytes]
      rfl
    have unlike : [] ≠ words mem (b + 3) (routeCount mem b) := by
      rw [words, ne_comm, Ne, List.map_eq_nil_iff, List.range_eq_nil]
      exact some_
    rw [recordRoute_same (by omega) same, silent, or_iff_left unlike,
      and_iff_right (by simp), same_route_iff (by omega) count same]
    exact ⟨fun rest _ _ => rest, fun rest => rest (by omega) same⟩
  · have loop := loops_addresses mem 0 (b + 3) (pointer mem b - 4) (by omega)
    rw [recordRoute_new (by omega) same]
    refine iff_of_true (.inr ?_) fun _ is => absurd is same
    simp only [shown_append, shown_readBytes, loop.shows_, count]
    rfl

theorem safe_iff_fine :
    Safe mem n (optionTurn mem flood b last) ↔ Fine mem n flood b last := by
  constructor
  · intro h
    exact ⟨inside_iff.mp h.inside, fits_iff.mp h.fits,
      fun source form => (sourceRoute_iff form source).mp (h.route form),
      fun record form => (recordRoute_iff form record).mp (h.route form)⟩
  · intro h
    refine ⟨inside_iff.mpr h.inside, fits_iff.mpr h.fits, fun form => ?_⟩
    rcases form.kind with source | record
    · exact (sourceRoute_iff form source).mpr (h.route source form)
    · exact (recordRoute_iff form record).mpr (h.same record form)

end OneOption

/-! ### The whole area -/

/-- From `b` on, with `left` bytes to go, every byte that the loop looks at lies in the
area of `n` bytes, and every option it meets is fine. -/
inductive Clean (mem : Memory) (n : Nat) (flood : Bool) : Printed → Nat → Nat → Prop
  | done (last : Printed) (b : Nat) : Clean mem n flood last b 0
  | eol {last : Printed} {b left : Nat} (more : 0 < left) (inside : b < n)
      (kind : mem b = IPOPT_EOL) : Clean mem n flood last b left
  | nop {last : Printed} {b left : Nat} (more : 0 < left) (inside : b < n)
      (kind : mem b = IPOPT_NOP) (rest : Clean mem n flood last (b + 1) (left - 1)) :
      Clean mem n flood last b left
  | bad {last : Printed} {b left : Nat} (more : 0 < left) (inside : b + 1 < n)
      (other : mem b ≠ IPOPT_EOL ∧ mem b ≠ IPOPT_NOP)
      (length : (mem (b + 1)).toNat < 2 ∨ left < (mem (b + 1)).toNat) :
      Clean mem n flood last b left
  | option {last : Printed} {b left : Nat} (more : 0 < left)
      (other : mem b ≠ IPOPT_EOL ∧ mem b ≠ IPOPT_NOP)
      (length : ¬ ((mem (b + 1)).toNat < 2 ∨ left < (mem (b + 1)).toNat))
      (fine : Fine mem n flood b last)
      (rest : Clean mem n flood (optionAfter mem flood b last) (b + (mem (b + 1)).toNat)
        (left - (mem (b + 1)).toNat)) :
      Clean mem n flood last b left

section Walk

variable {mem : Memory} {n : Nat} {flood : Bool} {b left : Nat} {last : Printed}

theorem safe_plain_iff {acts : List Act} {before : List (List UInt8)} (stores : StoresFit acts)
    (none : ¬ WellFormedRoute mem n b) : Safe mem n ⟨b, before, acts⟩ ↔ ReadsBelow n acts :=
  ⟨Safe.inside, fun reads => ⟨reads, stores, fun form => absurd form none⟩⟩

theorem not_wellFormedRoute (kind : mem b = IPOPT_EOL ∨ mem b = IPOPT_NOP) :
    ¬ WellFormedRoute mem n b := by
  rintro ⟨type, -, -, -, -, -⟩
  unfold IsSourceRoute at type
  rcases kind with kind | kind
  · rw [kind] at type
    exact absurd type (by decide)
  · rw [kind] at type
    exact absurd type (by decide)

theorem clean_eol_iff (more : 0 < left) (kind : mem b = IPOPT_EOL) :
    Clean mem n flood last b left ↔ b < n := by
  constructor
  · intro clean
    cases clean with
    | done => omega
    | eol _ inside => exact inside
    | nop _ inside => exact inside
    | bad _ _ other => exact absurd kind other.1
    | option _ other => exact absurd kind other.1
  · exact fun inside => .eol more inside kind

theorem clean_nop_iff (more : 0 < left) (kind : mem b = IPOPT_NOP) :
    Clean mem n flood last b left ↔ b < n ∧ Clean mem n flood last (b + 1) (left - 1) := by
  have apart : IPOPT_NOP ≠ IPOPT_EOL := by decide
  constructor
  · intro clean
    cases clean with
    | done => omega
    | eol _ _ other => exact absurd (kind.symm.trans other) apart
    | nop _ inside _ rest => exact ⟨inside, rest⟩
    | bad _ _ other => exact absurd kind other.2
    | option _ other => exact absurd kind other.2
  · rintro ⟨inside, rest⟩
    exact .nop more inside kind rest

theorem clean_bad_iff (more : 0 < left) (other : mem b ≠ IPOPT_EOL ∧ mem b ≠ IPOPT_NOP)
    (length : (mem (b + 1)).toNat < 2 ∨ left < (mem (b + 1)).toNat) :
    Clean mem n flood last b left ↔ b + 1 < n := by
  constructor
  · intro clean
    cases clean with
    | done => omega
    | eol _ _ kind => exact absurd kind other.1
    | nop _ _ kind => exact absurd kind other.2
    | bad _ inside => exact inside
    | option _ _ good => exact absurd length good
  · exact fun inside => .bad more inside other length

theorem clean_option_iff (more : 0 < left) (other : mem b ≠ IPOPT_EOL ∧ mem b ≠ IPOPT_NOP)
    (length : ¬ ((mem (b + 1)).toNat < 2 ∨ left < (mem (b + 1)).toNat)) :
    Clean mem n flood last b left ↔
      Fine mem n flood b last ∧
        Clean mem n flood (optionAfter mem flood b last) (b + (mem (b + 1)).toNat)
          (left - (mem (b + 1)).toNat) := by
  constructor
  · intro clean
    cases clean with
    | done => omega
    | eol _ _ kind => exact absurd kind other.1
    | nop _ _ kind => exact absurd kind other.2
    | bad _ _ _ wrong => exact absurd wrong length
    | option _ _ _ fine rest => exact ⟨fine, rest⟩
  · rintro ⟨fine, rest⟩
    exact .option more other length fine rest

theorem prOptions_safe_iff (turns : Nat) (last : Printed) (enough : left ≤ turns)
    (within : n ≤ b + left) :
    ∃ done after, prOptions mem flood turns left b last = some (done, after) ∧
      ((∀ turn ∈ done, Safe mem n turn) ↔ Clean mem n flood last b left) := by
  induction turns generalizing left b last with
  | zero =>
      have none : left = 0 := by omega
      subst none
      refine ⟨[], last, rfl, ?_⟩
      exact iff_of_true (fun turn h => absurd h List.not_mem_nil) (.done last b)
  | succ turns ih =>
      rw [prOptions]
      by_cases none : left = 0
      · subst none
        refine ⟨[], last, if_pos rfl, ?_⟩
        exact iff_of_true (fun turn h => absurd h List.not_mem_nil) (.done last b)
      rw [if_neg none]
      dsimp only
      have more : 0 < left := by omega
      by_cases eol : mem b = IPOPT_EOL
      · refine ⟨_, last, if_pos eol, ?_⟩
        rw [List.forall_mem_singleton, clean_eol_iff more eol,
          safe_plain_iff (by simp) (not_wellFormedRoute (Or.inl eol))]
        simp
      rw [if_neg eol]
      by_cases nop : mem b = IPOPT_NOP
      · obtain ⟨done, after, rest, iff⟩ :=
          @ih (b + 1) (left - 1) last (by omega) (by omega)
        rw [if_pos nop, rest]
        refine ⟨_, after, rfl, ?_⟩
        rw [List.forall_mem_cons, clean_nop_iff more nop, iff,
          safe_plain_iff (by simp) (not_wellFormedRoute (Or.inr nop))]
        simp
      rw [if_neg nop]
      by_cases length : (mem (b + 1)).toNat < 2 ∨ left < (mem (b + 1)).toNat
      · have unformed : ¬ WellFormedRoute mem n b := by
          rintro ⟨-, size, inside, -, -, -⟩
          omega
        refine ⟨_, last, if_pos length, ?_⟩
        rw [List.forall_mem_singleton, clean_bad_iff more ⟨eol, nop⟩ length,
          safe_plain_iff (by simp) unformed]
        simp
        omega
      · obtain ⟨done, after, rest, iff⟩ :=
          @ih (b + (mem (b + 1)).toNat) (left - (mem (b + 1)).toNat) (optionAfter mem flood b last)
            (by omega) (by omega)
        rw [if_neg length, rest]
        refine ⟨_, after, rfl, ?_⟩
        rw [List.forall_mem_cons, clean_option_iff more ⟨eol, nop⟩ length, iff]
        exact and_congr_left fun _ => safe_iff_fine

end Walk

/-! ### The two callers -/

/-- `ping4_parse_reply` decodes the options in at most `optlen` turns, and every turn
is as it should be: it reads in the area only, stores no more than `old_rr` holds, and
shows the addresses of a well-formed route. -/
def Decodes (mem : Memory) (options : Options) (last : Printed) : Prop :=
  ∃ done after,
    prOptions mem false options.optlen options.optlen 0 last = some (done, after) ∧
      ∀ turn ∈ done, Safe mem options.area turn

theorem area_le_optlen (options : Options) : options.area ≤ options.optlen := by
  cases options with
  | raw ihl => exact Nat.le_refl _
  | dgram n =>
      cases n with
      | none => exact Nat.le_refl _
      | some n => exact Nat.le_add_left n CMSG_HDR

/-- The options of a reply are decoded as they should be exactly when their area is clean. -/
theorem decodes_iff (mem : Memory) (options : Options) (last : Printed) :
    Decodes mem options last ↔ Clean mem options.area false last 0 options.optlen := by
  have within : options.area ≤ 0 + options.optlen := by
    rw [Nat.zero_add]
    exact area_le_optlen options
  obtain ⟨done, after, run, iff⟩ :=
    @prOptions_safe_iff mem options.area false 0 options.optlen options.optlen last
      (Nat.le_refl _) within
  rw [← iff, Decodes]
  constructor
  · rintro ⟨done', after', run', safe⟩
    rw [run] at run'
    cases run'
    exact safe
  · exact fun safe => ⟨done, after, run, safe⟩

/-- A loose source route over `10.0.0.1` is shown as `8.10.0.0`; a record route over `10.0.0.2` is
taken for one over `10.0.0.1`; four bytes of padding in a control message are followed behind its
end. -/
theorem options_misread :
    ¬ Decodes (fun k => [131, 7, 8, 10, 0, 0, 1, 0].getD k 0) (.raw 7) none ∧
      ¬ Decodes (fun k => [7, 7, 8, 10, 0, 0, 2, 0].getD k 0) (.raw 7)
        (some (fun k => [7, 7, 8, 10, 0, 0, 1, 0].getD k 0, 0)) ∧
      ¬ Decodes (fun _ => 1) (.dgram (some 4)) none := by
  refine ⟨?_, ?_, ?_⟩
  · rintro ⟨done, after, run, safe⟩
    have turns : (prOptions (fun k => [131, 7, 8, 10, 0, 0, 1, 0].getD k 0) false 8 8 0 none).map
        Prod.fst = some [⟨0, [], [.read 0, .read 1, .print (.sourceRoute false), .read 1, .read 2,
          .read 3, .read 4, .read 5, .print (.address [8, 10, 0, 0])]⟩, ⟨7, [], [.read 7]⟩] := by
      decide +kernel
    have ends : prOptions (fun k => [131, 7, 8, 10, 0, 0, 1, 0].getD k 0) false 8 8 0 none =
      some (done, after) := run
    rw [ends] at turns
    cases Option.some.inj turns
    have form : WellFormedRoute (fun k => [131, 7, 8, 10, 0, 0, 1, 0].getD k 0) 8 0 :=
      ⟨Or.inl (Or.inr rfl), rfl, by decide, by decide, rfl, by decide⟩
    have first := (safe _ List.mem_cons_self).route form
    unfold RouteShown at first
    exact absurd first (by decide +kernel)
  · rintro ⟨done, after, run, safe⟩
    have turns : (prOptions (fun k => [7, 7, 8, 10, 0, 0, 2, 0].getD k 0) false 8 8 0
        (some (fun k => [7, 7, 8, 10, 0, 0, 1, 0].getD k 0, 0))).map Prod.fst =
          some [⟨0, [[10, 0, 0, 1]], [.read 0, .read 1, .read 1, .read 2, .read 2, .read 3,
            .read 4, .print .sameRoute]⟩, ⟨7, [[10, 0, 0, 1]], [.read 7]⟩] := by
      decide +kernel
    have ends : prOptions (fun k => [7, 7, 8, 10, 0, 0, 2, 0].getD k 0) false 8 8 0
      (some (fun k => [7, 7, 8, 10, 0, 0, 1, 0].getD k 0, 0)) = some (done, after) := run
    rw [ends] at turns
    cases Option.some.inj turns
    have form : WellFormedRoute (fun k => [7, 7, 8, 10, 0, 0, 2, 0].getD k 0) 8 0 :=
      ⟨Or.inr rfl, rfl, by decide, by decide, rfl, by decide⟩
    have first := (safe _ List.mem_cons_self).route form
    unfold RouteShown at first
    exact absurd first (by decide +kernel)
  · rintro ⟨done, after, run, safe⟩
    have behind : ∃ turn ∈ done, .read 4 ∈ turn.acts := by
      have found : ((prOptions (fun _ => 1) false 20 20 0 none).map fun r =>
          r.1.any fun turn => decide (Act.read 4 ∈ turn.acts)) = some true := by
        decide +kernel
      have ends : prOptions (fun _ => 1) false 20 20 0 none = some (done, after) := run
      rw [ends] at found
      simpa using found
    obtain ⟨turn, member, read⟩ := behind
    exact absurd ((safe turn member).inside 4 read) (by decide)

end Baseliner.PingOptions
