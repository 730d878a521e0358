import Baseliner.NinfodPacket
import Baseliner.TwoPassStore

/-! Address replies of `ninfod`. Pass 0 finds the interface of the subject, pass 1
counts the addresses to return and allocates the reply, pass 2 stores them, the
preferred ones before the deprecated ones. The passes test the interface against
different variables, and a truncated IPv6 reply changes the flags in between. -/

namespace Baseliner.Ninfod

open ByteOrder TwoPassStore

/-- A `struct ni_ifaddrs`. -/
structure NiIfaddrs (A : Type) where
  ifaIfindex : Nat
  ifaFlags : UInt16
  ifaAddr : Option A
  deriving DecidableEq, Repr

def IFA_F_SECONDARY : UInt16 := 0x01
def IFA_F_DEPRECATED : UInt16 := 0x20
def IFA_F_TENTATIVE : UInt16 := 0x40

namespace NiIfaddrs

variable {A : Type}

def usable (ifa : NiIfaddrs A) : Bool :=
  ifa.ifaAddr.isSome ∧ ifa.ifaFlags &&& (IFA_F_TENTATIVE ||| IFA_F_SECONDARY) = 0

def notTentative (ifa : NiIfaddrs A) : Bool :=
  ifa.ifaAddr.isSome ∧ ifa.ifaFlags &&& IFA_F_TENTATIVE = 0

def deprecated (ifa : NiIfaddrs A) : Bool := ifa.ifaFlags &&& IFA_F_DEPRECATED ≠ 0

end NiIfaddrs

def filterIpv6addr (ifaddr : In6Addr) (flags : UInt32) : Bool :=
  if ifaddr.isUnspecified || ifaddr.isLoopback then true
  else if ifaddr.isV4compat || ifaddr.isV4mapped then flags &&& NI_NODEADDR_FLAG_COMPAT = 0
  else if ifaddr.isLinklocal then flags &&& NI_NODEADDR_FLAG_LINKLOCAL = 0
  else if ifaddr.isSitelocal then flags &&& NI_NODEADDR_FLAG_SITELOCAL = 0
  else flags &&& NI_NODEADDR_FLAG_GLOBAL = 0

def filterIpv4addr (_ifaddr : UInt32) (_flags : UInt32) : Bool := false

def INADDR_LOOPBACK : UInt32 := 0x7f000001

/-- One round of pass 0. The receiving interface is the candidate when the subject
is the destination; an entry with the subject's address replaces no interface
yet, or the receiving one. -/
def subjectStep6 (pktinfo : Pktinfo) (subject : In6Addr) (ifindex : Nat)
    (ifa : NiIfaddrs In6Addr) : Nat :=
  if ifa.usable then
    let ifindex := if ifindex = 0 ∧ pktinfo.ipi6Addr = subject then pktinfo.ipi6Ifindex else ifindex
    if subject.isLoopback = false ∧ ifa.ifaAddr = some subject then
      if ifindex = 0 ∨ pktinfo.ipi6Ifindex = ifindex then ifa.ifaIfindex else ifindex
    else ifindex
  else ifindex

def subjectStep4 (pktinfo : Pktinfo) (subject : UInt32) (ifindex : Nat)
    (ifa : NiIfaddrs UInt32) : Nat :=
  if ifa.usable then
    if subject ≠ INADDR_LOOPBACK ∧ ifa.ifaAddr = some subject then
      if ifindex = 0 ∨ pktinfo.ipi6Ifindex = ifindex then ifa.ifaIfindex else ifindex
    else ifindex
  else ifindex

def givenIfindex (pktinfo : Pktinfo) (subjIf : Option Nat) : Nat :=
  let ifindex := subjIf.getD 0
  if ifindex = 0 then pktinfo.ipi6Ifindex else ifindex

def ifindex6 (ifa0 : List (NiIfaddrs In6Addr)) (pktinfo : Pktinfo) (subject : Option In6Addr)
    (subjIf : Option Nat) : Nat :=
  match subject with
  | some subject => ifa0.foldl (subjectStep6 pktinfo subject) 0
  | none => givenIfindex pktinfo subjIf

def ifindex4 (ifa0 : List (NiIfaddrs UInt32)) (pktinfo : Pktinfo) (subject : Option UInt32)
    (subjIf : Option Nat) : Nat :=
  match subject with
  | some subject => ifa0.foldl (subjectStep4 pktinfo subject) 0
  | none => givenIfindex pktinfo subjIf

/-- Pass 0 stores the subject's interface through the pointer. -/
def subjIfAfter {A : Type} (subject : Option A) (ifindex : Nat) (subjIf : Option Nat) :
    Option Nat :=
  if subject.isSome then subjIf.map fun _ => ifindex else subjIf

/-- The other spelling of the interface test, which does not read `ifindex`. -/
def pointedIfindex (pktinfo : Pktinfo) (subjIf : Option Nat) : Nat :=
  if subjIf.isSome ∧ subjIf.getD 0 ≠ 0 then subjIf.getD 0 else pktinfo.ipi6Ifindex

/-- Entries passing the tests of one pass, with the interface it compares to. -/
def selects6 (flags : UInt32) (ifindex : Nat) (ifa : NiIfaddrs In6Addr) : Bool :=
  ifa.usable && (flags &&& NI_NODEADDR_FLAG_ALL != 0 || ifa.ifaIfindex == ifindex) &&
    ifa.ifaAddr.any fun a => !filterIpv6addr a flags

def selects4 (flags : UInt32) (ifindex : Nat) (ifa : NiIfaddrs UInt32) : Bool :=
  ifa.notTentative && (flags &&& NI_NODEADDR_FLAG_ALL != 0 || ifa.ifaIfindex == ifindex) &&
    ifa.ifaAddr.any fun a => !filterIpv4addr a flags

theorem selects6_eq (flags : UInt32) (ifindex : Nat) (ifa : NiIfaddrs In6Addr) :
    selects6 flags ifindex ifa =
      ((ifa.usable && ifa.ifaAddr.any fun a => !filterIpv6addr a flags) &&
        (flags &&& NI_NODEADDR_FLAG_ALL != 0 || ifa.ifaIfindex == ifindex)) := by
  rw [selects6, Bool.and_assoc, Bool.and_assoc, Bool.and_comm (_ || _)]

theorem selects4_eq (flags : UInt32) (ifindex : Nat) (ifa : NiIfaddrs UInt32) :
    selects4 flags ifindex ifa =
      ((ifa.notTentative && ifa.ifaAddr.any fun a => !filterIpv4addr a flags) &&
        (flags &&& NI_NODEADDR_FLAG_ALL != 0 || ifa.ifaIfindex == ifindex)) := by
  rw [selects4, Bool.and_assoc, Bool.and_assoc, Bool.and_comm (_ || _)]

/-- A `uint32_t` and an address. -/
def ENTRY6 : Nat := 4 + 16
def ENTRY4 : Nat := 4 + 4

def LIMIT6 : Nat := (MAX_REPLY_SIZE - NODEINFO_SIZE) / ENTRY6
def LIMIT4 : Nat := (MAX_REPLY_SIZE - NODEINFO_SIZE) / ENTRY4

/-- The reply as the two passes leave it: flags after pass 1, its counts, whether
the allocation was possible, and the slots that pass 2 writes. -/
structure Filled (A : Type) where
  flags : UInt32
  addrs0 : Nat
  paddrs0 : Nat
  replydatalen : Nat
  allocated : Bool
  writes : List (Nat × NiIfaddrs A)
  deriving DecidableEq, Repr

/-- A reply that needs data and got no memory for it. -/
def failed (replydatalen : Nat) (replydata : Bool) : Bool := replydatalen != 0 && !replydata

/-- Passes 1 and 2 of `pr_nodeinfo_ipv6addr`. -/
def fill6 (ifa0 : List (NiIfaddrs In6Addr)) (pktinfo : Pktinfo) (ifindex : Nat)
    (subjIf : Option Nat) (flags : UInt32) (malloc : Bool) : Filled In6Addr :=
  let flags := flags &&& ~~~NI_NODEADDR_FLAG_TRUNCATE
  let c := countPass LIMIT6 (selects6 flags ifindex) NiIfaddrs.deprecated ifa0 0 0
  let flags := if c.truncated then flags ||| ~~~NI_NODEADDR_FLAG_TRUNCATE else flags
  let replydatalen := ENTRY6 * c.total
  let replydata := if replydatalen ≠ 0 then malloc else false
  let n := if failed replydatalen replydata then 0 else c.total
  let front := if failed replydatalen replydata then 0 else c.early
  ⟨flags, c.total, c.early, replydatalen, replydata,
    storePass n front (selects6 flags (pointedIfindex pktinfo subjIf)) NiIfaddrs.deprecated
      ifa0 0 0 0⟩

/-- Passes 1 and 2 of `pr_nodeinfo_ipv4addr`. -/
def fill4 (ifa0 : List (NiIfaddrs UInt32)) (pktinfo : Pktinfo) (ifindex : Nat)
    (subjIf : Option Nat) (flags : UInt32) (malloc : Bool) : Filled UInt32 :=
  let flags := flags &&& ~~~NI_IPV4ADDR_FLAG_TRUNCATE
  let c := countPass LIMIT4 (selects4 flags (pointedIfindex pktinfo subjIf)) NiIfaddrs.deprecated
    ifa0 0 0
  let flags := if c.truncated then flags ||| NI_IPV4ADDR_FLAG_TRUNCATE else flags
  let replydatalen := ENTRY4 * c.total
  let replydata := if c.total ≠ 0 then malloc else false
  let n := if failed replydatalen replydata then 0 else c.total
  let front := if failed replydatalen replydata then 0 else c.early
  ⟨flags, c.total, c.early, replydatalen, replydata,
    storePass n front (selects4 flags ifindex) NiIfaddrs.deprecated ifa0 0 0 0⟩

/-- The part of `pr_nodeinfo_ipv6addr` with `reply` set; `none` where it returns
before pass 1. -/
def replyIpv6addr (ifa0 : List (NiIfaddrs In6Addr)) (pktinfo : Pktinfo)
    (subject : Option In6Addr) (subjIf : Option Nat) (flags : UInt32) (malloc : Bool) :
    Option (Filled In6Addr) :=
  let ifindex := ifindex6 ifa0 pktinfo subject subjIf
  if ifindex = 0 then none
  else some (fill6 ifa0 pktinfo ifindex (subjIfAfter subject ifindex subjIf) flags malloc)

def replyIpv4addr (ifa0 : List (NiIfaddrs UInt32)) (pktinfo : Pktinfo)
    (subject : Option UInt32) (subjIf : Option Nat) (flags : UInt32) (malloc : Bool) :
    Option (Filled UInt32) :=
  let ifindex := ifindex4 ifa0 pktinfo subject subjIf
  if ifindex = 0 then none
  else some (fill4 ifa0 pktinfo ifindex (subjIfAfter subject ifindex subjIf) flags malloc)

/-- How `pr_nodeinfo` asks for a reply: during the subject check, with `subj_if`
null, or afterwards, without a subject. -/
inductive Call (A : Type)
  | checking (subject : A)
  | checked (subjIf : Nat)
  deriving DecidableEq, Repr

def Call.subject {A : Type} : Call A → Option A
  | .checking a => some a
  | .checked _ => none

def Call.subjIf {A : Type} : Call A → Option Nat
  | .checking _ => none
  | .checked i => some i

section SubjectInterface

variable {A : Type} [DecidableEq A]

/-- Whether an entry carries the subject on an interface other than the receiving
one. -/
def strays (received : Nat) (subject : A) (ifa : NiIfaddrs A) : Bool :=
  ifa.usable && (ifa.ifaAddr == some subject) && (ifa.ifaIfindex != 0) &&
    (ifa.ifaIfindex != received)

/-- The interface a reply is about: the first other interface that carries the
subject, or else the receiving one. -/
def subjectInterface (loopback : A → Bool) (ifa0 : List (NiIfaddrs A)) (received : Nat) :
    Call A → Nat
  | .checking a =>
      if loopback a then received
      else ((ifa0.find? (strays received a)).map NiIfaddrs.ifaIfindex).getD received
  | .checked i => if i = 0 then received else i

/-- What pass 0 does with one entry: `free` says that `ifindex` is still zero or the
receiving interface. -/
structure SubjectPass (loopback : Bool) (received : Nat) (subject : A)
    (step : Nat → NiIfaddrs A → Nat) : Prop where
  fixed : ∀ ifindex ifa, ifindex ≠ 0 → ifindex ≠ received → step ifindex ifa = ifindex
  stray : ∀ ifindex ifa, ifindex = 0 ∨ ifindex = received → loopback = false →
    strays received subject ifa = true → step ifindex ifa = ifa.ifaIfindex
  free : ∀ ifindex ifa, ifindex = 0 ∨ ifindex = received →
    loopback = true ∨ strays received subject ifa = false →
      step ifindex ifa = 0 ∨ step ifindex ifa = received

namespace SubjectPass

variable {loopback : Bool} {received : Nat} {subject : A} {step : Nat → NiIfaddrs A → Nat}

theorem foldl_fixed (h : SubjectPass loopback received subject step) (l : List (NiIfaddrs A))
    {ifindex : Nat} (some : ifindex ≠ 0) (other : ifindex ≠ received) :
    l.foldl step ifindex = ifindex := by
  induction l with
  | nil => rfl
  | cons ifa rest ih => rw [List.foldl_cons, h.fixed ifindex ifa some other, ih]

theorem foldl_loopback (h : SubjectPass loopback received subject step)
    (isLoopback : loopback = true) (l : List (NiIfaddrs A)) {ifindex : Nat}
    (free : ifindex = 0 ∨ ifindex = received) :
    l.foldl step ifindex = 0 ∨ l.foldl step ifindex = received := by
  induction l generalizing ifindex with
  | nil => exact free
  | cons ifa rest ih => exact ih (h.free ifindex ifa free (.inl isLoopback))

theorem foldl_free (h : SubjectPass loopback received subject step)
    (ordinary : loopback = false) (l : List (NiIfaddrs A)) {ifindex : Nat}
    (free : ifindex = 0 ∨ ifindex = received) :
    match l.find? (strays received subject) with
    | some ifa => l.foldl step ifindex = ifa.ifaIfindex
    | none => l.foldl step ifindex = 0 ∨ l.foldl step ifindex = received := by
  induction l generalizing ifindex with
  | nil => exact free
  | cons ifa rest ih =>
      cases found : strays received subject ifa with
      | true =>
          have taken := h.stray ifindex ifa free ordinary found
          simp only [List.find?_cons, found, List.foldl_cons, taken]
          simp only [strays, Bool.and_eq_true, bne_iff_ne] at found
          exact h.foldl_fixed rest found.1.2 found.2
      | false =>
          simp only [List.find?_cons, found, List.foldl_cons]
          exact ih (h.free ifindex ifa free (.inr found))

end SubjectPass

end SubjectInterface

theorem index_of_not_strays {A : Type} [DecidableEq A] {received : Nat} {subject : A}
    {ifa : NiIfaddrs A} (usable : ifa.usable = true) (here : ifa.ifaAddr = some subject)
    (none : strays received subject ifa = false) :
    ifa.ifaIfindex = 0 ∨ ifa.ifaIfindex = received := by
  simp only [strays, usable, here, beq_self_eq_true, Bool.and_true, Bool.true_and,
    Bool.and_eq_false_iff, bne_eq_false_iff_eq] at none
  exact none

theorem subjectPass6 (pktinfo : Pktinfo) (subject : In6Addr) :
    SubjectPass subject.isLoopback pktinfo.ipi6Ifindex subject (subjectStep6 pktinfo subject) where
  fixed ifindex ifa some other := by
    simp [subjectStep6, some, Ne.symm other]
  stray ifindex ifa free ordinary found := by
    simp only [strays, Bool.and_eq_true, beq_iff_eq] at found
    rcases free with rfl | rfl
    · by_cases candidate : pktinfo.ipi6Addr = subject
      · simp [subjectStep6, found.1.1.1, found.1.1.2, ordinary, candidate]
      · simp [subjectStep6, found.1.1.1, found.1.1.2, ordinary, candidate]
    · simp [subjectStep6, found.1.1.1, found.1.1.2, ordinary]
  free ifindex ifa free none := by
    -- the candidate of the round is zero or the receiving interface as well
    obtain ⟨candidate, chosen⟩ : ∃ candidate, candidate =
        if ifindex = 0 ∧ pktinfo.ipi6Addr = subject then pktinfo.ipi6Ifindex else ifindex :=
      ⟨_, rfl⟩
    have still : candidate = 0 ∨ candidate = pktinfo.ipi6Ifindex := by
      rw [chosen]
      split_ifs with taken
      · exact .inr rfl
      · exact free
    by_cases usable : ifa.usable = true
    · by_cases here : subject.isLoopback = false ∧ ifa.ifaAddr = some subject
      · have index := index_of_not_strays usable here.2
          (none.resolve_left (by simp [here.1]))
        have replaced : candidate = 0 ∨ pktinfo.ipi6Ifindex = candidate := by
          rcases still with zero | same
          · exact .inl zero
          · exact .inr same.symm
        simpa [subjectStep6, usable, here, ← chosen, replaced] using index
      · simpa [subjectStep6, usable, here, ← chosen] using still
    · simpa [subjectStep6, usable] using free

theorem subjectPass4 (pktinfo : Pktinfo) (subject : UInt32) :
    SubjectPass (subject = INADDR_LOOPBACK) pktinfo.ipi6Ifindex subject
      (subjectStep4 pktinfo subject) where
  fixed ifindex ifa some other := by
    simp [subjectStep4, some, Ne.symm other]
  stray ifindex ifa free ordinary found := by
    simp only [strays, Bool.and_eq_true, beq_iff_eq] at found
    have other : subject ≠ INADDR_LOOPBACK := of_decide_eq_false ordinary
    rcases free with rfl | rfl
    · simp [subjectStep4, found.1.1.1, found.1.1.2, other]
    · simp [subjectStep4, found.1.1.1, found.1.1.2, other]
  free ifindex ifa free none := by
    by_cases usable : ifa.usable = true
    · by_cases here : subject ≠ INADDR_LOOPBACK ∧ ifa.ifaAddr = some subject
      · have index := index_of_not_strays usable here.2
          (none.resolve_left (by simp [here.1]))
        have replaced : ifindex = 0 ∨ pktinfo.ipi6Ifindex = ifindex := by
          rcases free with zero | same
          · exact .inl zero
          · exact .inr same.symm
        simpa [subjectStep4, usable, here, replaced] using index
      · simpa [subjectStep4, usable, here] using free
    · simpa [subjectStep4, usable] using free

theorem SubjectPass.foldl_eq {A : Type} [DecidableEq A] (loopback : A → Bool) {received : Nat}
    {subject : A} {step : Nat → NiIfaddrs A → Nat}
    (h : SubjectPass (loopback subject) received subject step) (l : List (NiIfaddrs A))
    (found : l.foldl step 0 ≠ 0) :
    l.foldl step 0 = subjectInterface loopback l received (.checking subject) := by
  cases isLoopback : loopback subject with
  | true =>
      rcases h.foldl_loopback isLoopback l (.inl rfl) with zero | same
      · exact absurd zero found
      · simpa [subjectInterface, isLoopback] using same
  | false =>
      have split := h.foldl_free isLoopback l (.inl rfl)
      cases first : l.find? (strays received subject) with
      | none =>
          rw [first] at split
          simpa [subjectInterface, isLoopback, first] using split.resolve_left found
      | some ifa =>
          rw [first] at split
          simpa [subjectInterface, isLoopback, first] using split

theorem ifindex6_eq (ifa0 : List (NiIfaddrs In6Addr)) (pktinfo : Pktinfo) (c : Call In6Addr)
    (found : ifindex6 ifa0 pktinfo c.subject c.subjIf ≠ 0) :
    ifindex6 ifa0 pktinfo c.subject c.subjIf =
      subjectInterface In6Addr.isLoopback ifa0 pktinfo.ipi6Ifindex c := by
  cases c with
  | checking subject => exact SubjectPass.foldl_eq _ (subjectPass6 pktinfo subject) ifa0 found
  | checked i => rfl

theorem ifindex4_eq (ifa0 : List (NiIfaddrs UInt32)) (pktinfo : Pktinfo) (c : Call UInt32)
    (found : ifindex4 ifa0 pktinfo c.subject c.subjIf ≠ 0) :
    ifindex4 ifa0 pktinfo c.subject c.subjIf =
      subjectInterface (fun a => a = INADDR_LOOPBACK) ifa0 pktinfo.ipi6Ifindex c := by
  cases c with
  | checking subject =>
      exact SubjectPass.foldl_eq (fun a => a = INADDR_LOOPBACK) (subjectPass4 pktinfo subject)
        ifa0 found
  | checked i => rfl

/-! Flags: the truncation bit is none that the tests read, and the complement that
a truncated IPv6 reply sets is every other bit. -/

section Flags

theorem or_and_distrib (x y z : UInt32) : (x ||| y) &&& z = x &&& z ||| y &&& z := by
  apply UInt32.toBitVec_inj.mp
  simpa using BitVec.and_or_distrib_right

theorem and_clear_truncate (flag : UInt32) (other : ~~~NI_NODEADDR_FLAG_TRUNCATE &&& flag = flag)
    (flags : UInt32) : flags &&& ~~~NI_NODEADDR_FLAG_TRUNCATE &&& flag = flags &&& flag := by
  rw [UInt32.and_assoc, other]

theorem or_complement_and (flag : UInt32) (other : ~~~NI_NODEADDR_FLAG_TRUNCATE &&& flag = flag)
    (some : flag ≠ 0) (flags : UInt32) :
    (flags ||| ~~~NI_NODEADDR_FLAG_TRUNCATE) &&& flag ≠ 0 := by
  rw [or_and_distrib, other]
  intro zero
  exact some (UInt32.or_eq_zero_iff.mp zero).2

theorem filterIpv6addr_clear (a : In6Addr) (flags : UInt32) :
    filterIpv6addr a (flags &&& ~~~NI_NODEADDR_FLAG_TRUNCATE) = filterIpv6addr a flags := by
  simp only [filterIpv6addr, and_clear_truncate NI_NODEADDR_FLAG_COMPAT (by decide),
    and_clear_truncate NI_NODEADDR_FLAG_LINKLOCAL (by decide),
    and_clear_truncate NI_NODEADDR_FLAG_SITELOCAL (by decide),
    and_clear_truncate NI_NODEADDR_FLAG_GLOBAL (by decide)]

theorem filterIpv6addr_complement (a : In6Addr) (flags : UInt32) :
    filterIpv6addr a (flags ||| ~~~NI_NODEADDR_FLAG_TRUNCATE) =
      (a.isUnspecified || a.isLoopback) := by
  simp only [filterIpv6addr,
    or_complement_and NI_NODEADDR_FLAG_COMPAT (by decide) (by decide),
    or_complement_and NI_NODEADDR_FLAG_LINKLOCAL (by decide) (by decide),
    or_complement_and NI_NODEADDR_FLAG_SITELOCAL (by decide) (by decide),
    or_complement_and NI_NODEADDR_FLAG_GLOBAL (by decide) (by decide)]
  cases a.isUnspecified || a.isLoopback <;> simp

theorem selects6_clear (flags : UInt32) (ifindex : Nat) :
    selects6 (flags &&& ~~~NI_NODEADDR_FLAG_TRUNCATE) ifindex = selects6 flags ifindex := by
  funext ifa
  simp only [selects6, filterIpv6addr_clear,
    and_clear_truncate NI_NODEADDR_FLAG_ALL (by decide)]

/-- What pass 2 of a truncated IPv6 reply stores. -/
def storable6 (ifa : NiIfaddrs In6Addr) : Bool :=
  ifa.usable && ifa.ifaAddr.any fun a => !(a.isUnspecified || a.isLoopback)

theorem selects6_complement (flags : UInt32) (ifindex : Nat) :
    selects6 (flags ||| ~~~NI_NODEADDR_FLAG_TRUNCATE) ifindex = storable6 := by
  funext ifa
  have all : ((flags ||| ~~~NI_NODEADDR_FLAG_TRUNCATE) &&& NI_NODEADDR_FLAG_ALL != 0) = true :=
    bne_iff_ne.mpr (or_complement_and NI_NODEADDR_FLAG_ALL (by decide) (by decide) flags)
  simp only [selects6, storable6, filterIpv6addr_complement, all, Bool.true_or, Bool.and_true]

theorem storable6_of_selects6 {flags : UInt32} {ifindex : Nat} {ifa : NiIfaddrs In6Addr}
    (h : selects6 flags ifindex ifa = true) : storable6 ifa = true := by
  obtain ⟨index, flagged, address⟩ := ifa
  cases address with
  | none => simp [selects6] at h
  | some a =>
      simp only [selects6, filterIpv6addr, Bool.and_eq_true, Option.any_some,
        Bool.not_eq_true'] at h
      split_ifs at h with special
      all_goals simp_all [storable6]

theorem selects4_clear (flags : UInt32) (ifindex : Nat) :
    selects4 (flags &&& ~~~NI_IPV4ADDR_FLAG_TRUNCATE) ifindex = selects4 flags ifindex := by
  funext ifa
  have all := and_clear_truncate NI_NODEADDR_FLAG_ALL (by decide) flags
  simp only [selects4, NI_IPV4ADDR_FLAG_TRUNCATE, all, filterIpv4addr]

theorem selects4_truncate (flags : UInt32) (ifindex : Nat) :
    selects4 (flags ||| NI_IPV4ADDR_FLAG_TRUNCATE) ifindex = selects4 flags ifindex := by
  funext ifa
  have all : (flags ||| NI_IPV4ADDR_FLAG_TRUNCATE) &&& NI_NODEADDR_FLAG_ALL =
      flags &&& NI_NODEADDR_FLAG_ALL := by
    have apart : NI_IPV4ADDR_FLAG_TRUNCATE &&& NI_NODEADDR_FLAG_ALL = 0 := by decide
    rw [or_and_distrib, apart, UInt32.or_zero]
  simp only [selects4, all, filterIpv4addr]

end Flags

section Replies

variable {A : Type}

/-- A reply with room for the counted entries: pass 2 stays inside the allocated
bytes, writes every counted slot once, and writes there the counted entries with
the deprecated ones last. Without an allocation it writes nothing. -/
def Filled.WellFormed (entry : Nat) (counted : List (NiIfaddrs A)) (f : Filled A) : Prop :=
  if f.allocated ∨ f.replydatalen = 0 then
    (∀ w ∈ f.writes, entry * w.1 + entry ≤ f.replydatalen) ∧
    (f.writes.map Prod.fst).Perm (List.range f.addrs0) ∧
    ∀ w ∈ f.writes, (arranged NiIfaddrs.deprecated counted)[w.1]? = some w.2
  else f.writes = []

theorem Filled.wellFormed_iff_stores {entry : Nat} {counted : List (NiIfaddrs A)} {f : Filled A}
    (count : f.addrs0 = counted.length) (size : f.replydatalen = entry * counted.length)
    (room : f.allocated = true ∨ f.replydatalen = 0) :
    f.WellFormed entry counted ↔ Stores NiIfaddrs.deprecated f.writes counted := by
  rw [WellFormed, if_pos room, Stores, count]
  constructor
  · rintro ⟨-, slots, content⟩
    exact ⟨slots, content⟩
  · rintro ⟨slots, content⟩
    refine ⟨?_, slots, content⟩
    intro w hw
    have inside : w.1 < counted.length := by
      have mem := slots.mem_iff.mp (List.mem_map_of_mem hw)
      simpa using mem
    rw [size, ← Nat.mul_succ]
    exact Nat.mul_le_mul_left entry inside

/-! Two tests that differ in the interface only. -/

theorem interface_of_both {base : NiIfaddrs A → Bool} {all : Bool} {i j : Nat}
    {keep store : NiIfaddrs A → Bool}
    (hkeep : ∀ ifa, keep ifa = (base ifa && (all || ifa.ifaIfindex == i)))
    (hstore : ∀ ifa, store ifa = (base ifa && (all || ifa.ifaIfindex == j))) {ifa : NiIfaddrs A}
    (kept : keep ifa = true) (stored : store ifa = true) : all = true ∨ i = j := by
  by_contra different
  obtain ⟨notAll, apart⟩ := not_or.mp different
  simp only [hkeep, hstore, notAll, Bool.false_or, Bool.and_eq_true, beq_iff_eq] at kept stored
  exact apart (kept.2.symm.trans stored.2)

theorem tests_eq {base : NiIfaddrs A → Bool} {all : Bool} {i j : Nat}
    {keep store : NiIfaddrs A → Bool}
    (hkeep : ∀ ifa, keep ifa = (base ifa && (all || ifa.ifaIfindex == i)))
    (hstore : ∀ ifa, store ifa = (base ifa && (all || ifa.ifaIfindex == j)))
    (same : all = true ∨ i = j) : store = keep := by
  funext ifa
  rcases same with all | same
  · simp [hkeep, hstore, all]
  · simp [hkeep, hstore, same]

theorem take_filter_interface_iff {base : NiIfaddrs A → Bool} {all : Bool} {i j : Nat}
    {keep store : NiIfaddrs A → Bool} (limit : Nat) (several : 1 < limit)
    (hkeep : ∀ ifa, keep ifa = (base ifa && (all || ifa.ifaIfindex == i)))
    (hstore : ∀ ifa, store ifa = (base ifa && (all || ifa.ifaIfindex == j)))
    (l : List (NiIfaddrs A)) :
    (l.filter store).take (counted limit keep l).length = counted limit keep l ↔
      l.filter keep = [] ∨ all = true ∨ i = j := by
  constructor
  · intro same
    by_cases none : l.filter keep = []
    · exact .inl none
    -- pass 2 stores the first counted entry
    obtain ⟨ifa, rest, first⟩ := List.exists_cons_of_ne_nil none
    have one : ifa ∈ counted limit keep l := by
      obtain ⟨k, rfl⟩ : ∃ k, limit = k + 2 := ⟨limit - 2, by omega⟩
      simp [counted, first]
    have kept := keep_of_mem_counted one
    rw [← same] at one
    have stored := (List.mem_filter.mp (List.mem_of_mem_take one)).2
    exact .inr (interface_of_both hkeep hstore kept stored)
  · rintro (none | same)
    · simp [counted, none]
    · rw [tests_eq hkeep hstore same]
      simp [counted]

end Replies

/-- Whether the subject's address stands on no other interface than the receiving
one; without a subject both passes use the interface that was found before. -/
def ReceivedOnly {A : Type} [DecidableEq A] (loopback : A → Bool) (ifa0 : List (NiIfaddrs A))
    (received : Nat) : Call A → Prop
  | .checking a => loopback a = true ∨ ∀ ifa ∈ ifa0, strays received a ifa = false
  | .checked _ => True

theorem subjectInterface_eq_iff {A : Type} [DecidableEq A] (loopback : A → Bool)
    (ifa0 : List (NiIfaddrs A)) (pktinfo : Pktinfo) (c : Call A) (ifindex : Nat) :
    subjectInterface loopback ifa0 pktinfo.ipi6Ifindex c =
        pointedIfindex pktinfo (subjIfAfter c.subject ifindex c.subjIf) ↔
      ReceivedOnly loopback ifa0 pktinfo.ipi6Ifindex c := by
  cases c with
  | checking a =>
      have pointed : pointedIfindex pktinfo
          (subjIfAfter (Call.checking a).subject ifindex (Call.checking a).subjIf) =
            pktinfo.ipi6Ifindex := rfl
      rw [pointed, ReceivedOnly, subjectInterface]
      cases isLoopback : loopback a with
      | true => simp
      | false =>
          cases first : ifa0.find? (strays pktinfo.ipi6Ifindex a) with
          | none => simpa using List.find?_eq_none.mp first
          | some ifa =>
              have stray := List.find?_some first
              have index : ifa.ifaIfindex ≠ pktinfo.ipi6Ifindex := by
                simp only [strays, Bool.and_eq_true, bne_iff_ne] at stray
                exact stray.2
              simp only [Bool.false_eq_true, if_false, Option.map_some, Option.getD_some, index,
                false_or, false_iff, not_forall]
              exact ⟨ifa, List.mem_of_find?_eq_some first, by simp [stray]⟩
  | checked i =>
      by_cases zero : i = 0
      · simp [subjectInterface, pointedIfindex, subjIfAfter, Call.subject, Call.subjIf,
          ReceivedOnly, zero]
      · simp [subjectInterface, pointedIfindex, subjIfAfter, Call.subject, Call.subjIf,
          ReceivedOnly, zero]

/-- When pass 2 of `pr_nodeinfo_ipv6addr` stores what pass 1 counted. A reply that
is not truncated is about the receiving interface, asks for all interfaces or is
empty; before the last address of a truncated one stands no address that the
query leaves out for its interface or scope. -/
def Agrees6 (ifa0 : List (NiIfaddrs In6Addr)) (pktinfo : Pktinfo) (c : Call In6Addr)
    (flags : UInt32) : Prop :=
  let selected := selects6 flags
    (subjectInterface In6Addr.isLoopback ifa0 pktinfo.ipi6Ifindex c)
  if (ifa0.filter selected).length < LIMIT6 then
    ifa0.filter selected = [] ∨ (flags &&& NI_NODEADDR_FLAG_ALL != 0) = true ∨
      ReceivedOnly In6Addr.isLoopback ifa0 pktinfo.ipi6Ifindex c
  else
    ∀ pre ifa post, ifa0 = pre ++ ifa :: post →
      (pre.filter selected).length < LIMIT6 - 1 → storable6 ifa = true → selected ifa = true

/-- When pass 2 of `pr_nodeinfo_ipv4addr` stores what pass 1 counted. -/
def Agrees4 (ifa0 : List (NiIfaddrs UInt32)) (pktinfo : Pktinfo) (c : Call UInt32)
    (flags : UInt32) : Prop :=
  ifa0.filter (selects4 flags (pointedIfindex pktinfo c.subjIf)) = [] ∨
    (flags &&& NI_NODEADDR_FLAG_ALL != 0) = true ∨
    ReceivedOnly (fun a => a = INADDR_LOOPBACK) ifa0 pktinfo.ipi6Ifindex c

/-- What the two passes of an IPv6 reply come to when there is memory. -/
theorem fill6_eq (ifa0 : List (NiIfaddrs In6Addr)) (pktinfo : Pktinfo) (ifindex : Nat)
    (subjIf : Option Nat) (flags : UInt32) :
    let kept := counted LIMIT6 (selects6 flags ifindex) ifa0
    let truncated := LIMIT6 ≤ (ifa0.filter (selects6 flags ifindex)).length
    let f := fill6 ifa0 pktinfo ifindex subjIf flags true
    f.addrs0 = kept.length ∧ f.replydatalen = ENTRY6 * kept.length ∧
      (f.allocated = true ∨ f.replydatalen = 0) ∧
      f.writes = storePass kept.length (kept.filter fun ifa => !ifa.deprecated).length
        (if truncated then storable6 else selects6 flags (pointedIfindex pktinfo subjIf))
        NiIfaddrs.deprecated ifa0 0 0 0 := by
  have count := @countPass_start _ LIMIT6 (selects6 flags ifindex) NiIfaddrs.deprecated
    (by decide) ifa0
  simp only [fill6, selects6_clear, count]
  refine ⟨trivial, trivial, ?_, ?_⟩
  · by_cases none : ENTRY6 * (counted LIMIT6 (selects6 flags ifindex) ifa0).length = 0
    · exact .inr none
    · exact .inl (if_pos none)
  · have allocated (n : Nat) : failed n (if n ≠ 0 then true else false) = false := by
      by_cases zero : n = 0 <;> simp [failed, zero]
    rw [allocated]
    by_cases truncated : LIMIT6 ≤ (ifa0.filter (selects6 flags ifindex)).length
    · simp [truncated, selects6_complement]
    · simp [truncated, selects6_clear]

theorem fill4_eq (ifa0 : List (NiIfaddrs UInt32)) (pktinfo : Pktinfo) (ifindex : Nat)
    (subjIf : Option Nat) (flags : UInt32) :
    let kept := counted LIMIT4 (selects4 flags (pointedIfindex pktinfo subjIf)) ifa0
    let f := fill4 ifa0 pktinfo ifindex subjIf flags true
    f.addrs0 = kept.length ∧ f.replydatalen = ENTRY4 * kept.length ∧
      (f.allocated = true ∨ f.replydatalen = 0) ∧
      f.writes = storePass kept.length (kept.filter fun ifa => !ifa.deprecated).length
        (selects4 flags ifindex) NiIfaddrs.deprecated ifa0 0 0 0 := by
  have count := @countPass_start _ LIMIT4 (selects4 flags (pointedIfindex pktinfo subjIf))
    NiIfaddrs.deprecated (by decide) ifa0
  simp only [fill4, selects4_clear, count]
  refine ⟨trivial, trivial, ?_, ?_⟩
  · by_cases none :
        (counted LIMIT4 (selects4 flags (pointedIfindex pktinfo subjIf)) ifa0).length = 0
    · exact .inr (by rw [none, Nat.mul_zero])
    · exact .inl (if_pos none)
  · have allocated (n : Nat) : failed (ENTRY4 * n) (if n ≠ 0 then true else false) = false := by
      by_cases zero : n = 0 <;> simp [failed, zero]
    rw [allocated]
    congr 1
    split_ifs
    · rw [selects4_truncate, selects4_clear]
    · rw [selects4_clear]

theorem storePass_failed {A : Type} {n size : Nat} (front : Nat) (keep : NiIfaddrs A → Bool)
    (l : List (NiIfaddrs A)) (positive : 0 < size) :
    storePass (if failed (size * n) false then 0 else n) front keep NiIfaddrs.deprecated l 0 0 0 =
      [] := by
  by_cases zero : n = 0
  · simp [storePass_eq, place, zero]
  · have data : size * n ≠ 0 := Nat.mul_ne_zero positive.ne' zero
    simp [storePass_eq, place, failed, data]

theorem fill6_unallocated (ifa0 : List (NiIfaddrs In6Addr)) (pktinfo : Pktinfo) (ifindex : Nat)
    (subjIf : Option Nat) (flags : UInt32) :
    (fill6 ifa0 pktinfo ifindex subjIf flags false).writes = [] := by
  simp only [fill6, ite_self]
  exact storePass_failed _ _ _ (by decide)

theorem fill4_unallocated (ifa0 : List (NiIfaddrs UInt32)) (pktinfo : Pktinfo) (ifindex : Nat)
    (subjIf : Option Nat) (flags : UInt32) :
    (fill4 ifa0 pktinfo ifindex subjIf flags false).writes = [] := by
  simp only [fill4, ite_self]
  exact storePass_failed _ _ _ (by decide)

theorem Filled.wellFormed_of_no_writes {A : Type} {entry : Nat} {l : List (NiIfaddrs A)}
    {f : Filled A} (positive : 0 < entry) (size : f.replydatalen = entry * f.addrs0)
    (unallocated : f.allocated = false) (none : f.writes = []) : f.WellFormed entry l := by
  rw [Filled.WellFormed, none]
  split_ifs with room
  · have empty : f.replydatalen = 0 := room.resolve_left (by simp [unallocated])
    have zero : f.addrs0 = 0 := by
      rw [size] at empty
      exact (Nat.mul_eq_zero.mp empty).resolve_left positive.ne'
    simp [zero]
  · rfl

theorem fill6_wellFormed_iff (ifa0 : List (NiIfaddrs In6Addr)) (pktinfo : Pktinfo)
    (c : Call In6Addr) (flags : UInt32)
    (found : ifindex6 ifa0 pktinfo c.subject c.subjIf ≠ 0) :
    let ifindex := ifindex6 ifa0 pktinfo c.subject c.subjIf
    (fill6 ifa0 pktinfo ifindex (subjIfAfter c.subject ifindex c.subjIf) flags true).WellFormed
        ENTRY6 (counted LIMIT6 (selects6 flags ifindex) ifa0) ↔
      Agrees6 ifa0 pktinfo c flags := by
  intro ifindex
  obtain ⟨count, size, room, writes⟩ :=
    fill6_eq ifa0 pktinfo ifindex (subjIfAfter c.subject ifindex c.subjIf) flags
  rw [Filled.wellFormed_iff_stores count size room, writes, stores_iff, Agrees6,
    ← ifindex6_eq ifa0 pktinfo c found]
  by_cases few : (ifa0.filter (selects6 flags ifindex)).length < LIMIT6
  · rw [if_neg (by omega), if_pos few, ← subjectInterface_eq_iff _ _ pktinfo c ifindex,
      ← ifindex6_eq ifa0 pktinfo c found]
    exact take_filter_interface_iff LIMIT6 (by decide) (selects6_eq flags _) (selects6_eq flags _)
      ifa0
  · rw [if_pos (by omega), if_neg few]
    have enough : (counted LIMIT6 (selects6 flags ifindex) ifa0).length = LIMIT6 - 1 := by
      rw [counted, List.length_take]
      omega
    have many : LIMIT6 - 1 ≤ (ifa0.filter (selects6 flags ifindex)).length := by omega
    rw [enough]
    exact take_filter_eq_iff_of_imp (fun _ => storable6_of_selects6) ifa0 (LIMIT6 - 1) many

theorem pointedIfindex_after (pktinfo : Pktinfo) (c : Call UInt32) (ifindex : Nat) :
    pointedIfindex pktinfo (subjIfAfter c.subject ifindex c.subjIf) =
      pointedIfindex pktinfo c.subjIf := by
  cases c with
  | checking a => rfl
  | checked i => rfl

theorem fill4_wellFormed_iff (ifa0 : List (NiIfaddrs UInt32)) (pktinfo : Pktinfo)
    (c : Call UInt32) (flags : UInt32)
    (found : ifindex4 ifa0 pktinfo c.subject c.subjIf ≠ 0) :
    let ifindex := ifindex4 ifa0 pktinfo c.subject c.subjIf
    (fill4 ifa0 pktinfo ifindex (subjIfAfter c.subject ifindex c.subjIf) flags true).WellFormed
        ENTRY4 (counted LIMIT4 (selects4 flags (pointedIfindex pktinfo c.subjIf)) ifa0) ↔
      Agrees4 ifa0 pktinfo c flags := by
  intro ifindex
  have pointed := pointedIfindex_after pktinfo c ifindex
  obtain ⟨count, size, room, writes⟩ :=
    fill4_eq ifa0 pktinfo ifindex (subjIfAfter c.subject ifindex c.subjIf) flags
  rw [pointed] at count size writes
  rw [Filled.wellFormed_iff_stores count size room, writes, stores_iff, Agrees4,
    ← subjectInterface_eq_iff _ _ pktinfo c ifindex, ← ifindex4_eq ifa0 pktinfo c found, pointed]
  rw [take_filter_interface_iff LIMIT4 (by decide) (selects4_eq flags _) (selects4_eq flags _) ifa0]
  exact or_congr_right (or_congr_right eq_comm)

/-- An address reply is well formed exactly when the two passes agree on the
interface and, for a truncated IPv6 reply, on the scopes. -/
theorem address_reply_wellFormed_iff (pktinfo : Pktinfo) (flags : UInt32) (malloc : Bool) :
    (∀ (ifa0 : List (NiIfaddrs In6Addr)) (c : Call In6Addr) (f : Filled In6Addr),
      replyIpv6addr ifa0 pktinfo c.subject c.subjIf flags malloc = some f →
        (f.WellFormed ENTRY6 (counted LIMIT6 (selects6 flags
            (ifindex6 ifa0 pktinfo c.subject c.subjIf)) ifa0) ↔
          (malloc = true → Agrees6 ifa0 pktinfo c flags))) ∧
    (∀ (ifa0 : List (NiIfaddrs UInt32)) (c : Call UInt32) (f : Filled UInt32),
      replyIpv4addr ifa0 pktinfo c.subject c.subjIf flags malloc = some f →
        (f.WellFormed ENTRY4 (counted LIMIT4 (selects4 flags
            (pointedIfindex pktinfo c.subjIf)) ifa0) ↔
          (malloc = true → Agrees4 ifa0 pktinfo c flags))) := by
  constructor
  · intro ifa0 c f reply
    simp only [replyIpv6addr, ite_eq_iff, reduceCtorEq, and_false, Option.some.injEq,
      false_or] at reply
    obtain ⟨found, rfl⟩ := reply
    cases malloc with
    | false =>
        simp only [Bool.false_eq_true, false_imp_iff, iff_true]
        exact Filled.wellFormed_of_no_writes (by decide) rfl (by simp [fill6])
          (fill6_unallocated ifa0 pktinfo _ _ flags)
    | true => simpa using fill6_wellFormed_iff ifa0 pktinfo c flags found
  · intro ifa0 c f reply
    simp only [replyIpv4addr, ite_eq_iff, reduceCtorEq, and_false, Option.some.injEq,
      false_or] at reply
    obtain ⟨found, rfl⟩ := reply
    cases malloc with
    | false =>
        simp only [Bool.false_eq_true, false_imp_iff, iff_true]
        exact Filled.wellFormed_of_no_writes (by decide) rfl (by simp [fill4])
          (fill4_unallocated ifa0 pktinfo _ _ flags)
    | true => simpa using fill4_wellFormed_iff ifa0 pktinfo c flags found

/-- The subject's address stands on an interface other than the receiving one: one
address is counted, its slot is sent as the allocation left it. -/
theorem subject_elsewhere_leaves_slot :
    let a : In6Addr := ⟨0x20010db8, 0, 0, 1⟩
    let ifa0 : List (NiIfaddrs In6Addr) := [⟨2, 0, some a⟩]
    ∃ f, replyIpv6addr ifa0 ⟨a, 1⟩ (Call.checking a).subject (Call.checking a).subjIf
        NI_NODEADDR_FLAG_GLOBAL true = some f ∧
      f.addrs0 = 1 ∧ f.writes = [] ∧
      ¬ f.WellFormed ENTRY6 (counted LIMIT6 (selects6 NI_NODEADDR_FLAG_GLOBAL
        (ifindex6 ifa0 ⟨a, 1⟩ (Call.checking a).subject (Call.checking a).subjIf)) ifa0) := by
  refine ⟨_, rfl, by decide, by decide, ?_⟩
  rw [Filled.WellFormed, if_pos (by decide)]
  rintro ⟨-, slots, -⟩
  exact absurd slots.length_eq (by decide)

theorem address_reply_wellFormed_two :
    let six : List (NiIfaddrs In6Addr) :=
      [⟨1, 0x20, some ⟨0x20010db8, 0, 0, 2⟩⟩, ⟨1, 0, some ⟨0x20010db8, 0, 0, 1⟩⟩]
    let four : List (NiIfaddrs UInt32) := [⟨1, 0x20, some 0x0a000002⟩, ⟨1, 0, some 0x0a000001⟩]
    let pktinfo : Pktinfo := ⟨⟨0xfe800000, 0, 0, 1⟩, 1⟩
    let named : Call In6Addr := .checked 0
    let subject : Call UInt32 := .checking 0x0a000001
    (∃ f, replyIpv6addr six pktinfo named.subject named.subjIf NI_NODEADDR_FLAG_GLOBAL true =
        some f ∧ f.WellFormed ENTRY6 six) ∧
    (∃ f, replyIpv4addr four pktinfo subject.subject subject.subjIf 0 true = some f ∧
      f.WellFormed ENTRY4 four) := by
  intro six four pktinfo named subject
  constructor
  · have kept : counted LIMIT6 (selects6 NI_NODEADDR_FLAG_GLOBAL
        (ifindex6 six pktinfo named.subject named.subjIf)) six = six := by decide
    refine ⟨_, rfl, ?_⟩
    have iff :=
      (address_reply_wellFormed_iff pktinfo NI_NODEADDR_FLAG_GLOBAL true).1 six named _ rfl
    rw [kept] at iff
    refine iff.mpr ?_
    intro _
    rw [Agrees6, if_pos (by decide)]
    exact .inr (.inr trivial)
  · have kept : counted LIMIT4 (selects4 0 (pointedIfindex pktinfo subject.subjIf)) four =
        four := by decide
    refine ⟨_, rfl, ?_⟩
    have iff := (address_reply_wellFormed_iff pktinfo 0 true).2 four subject _ rfl
    rw [kept] at iff
    refine iff.mpr ?_
    intro _
    exact .inr (.inr (.inr (by decide)))

/-! The two functions whole, as subject check and as reply. -/

/-- Stores `bs` at offset `off` of a block. -/
def blit (block : List UInt8) (off : Nat) (bs : List UInt8) : List UInt8 :=
  block.take off ++ bs ++ block.drop (off + bs.length)

/-- What pass 2 leaves in a block: a zero ttl and the address in each slot. -/
def renderEntries {A : Type} (entry : Nat) (address : A → List UInt8) (block : List UInt8)
    (writes : List (Nat × NiIfaddrs A)) : List UInt8 :=
  writes.foldl (fun b w => blit b (entry * w.1) ([0, 0, 0, 0] ++ w.2.ifaAddr.elim [] address)) block

/-- A block that `ni_malloc` returns, `none` when there is no memory. -/
abbrev Heap := Option (Nat → UInt8)

def Heap.block (heap : Heap) (size : Nat) : Option (List UInt8) :=
  heap.map fun m => (List.range size).map m

def prNodeinfoIpv6addr (ifaddrs : Option (List (NiIfaddrs In6Addr))) (heap : Heap)
    (p : PacketContext) (subject : Option Memory) (subjlen : Nat) (flags : UInt32)
    (subjIf : Option Nat) (reply : Bool) : Checked :=
  if subject.isSome ∧ subjlen ≠ 16 then ⟨1, p, subjIf⟩
  else match ifaddrs with
    | none => ⟨-1, p, subjIf⟩
    | some ifa0 =>
        let address := subject.map fun m => in6At m 0
        let ifindex := ifindex6 ifa0 p.pktinfo address subjIf
        let subjIf' := subjIfAfter address ifindex subjIf
        if ifindex = 0 then ⟨1, p, subjIf⟩
        else if reply then
          let f := fill6 ifa0 p.pktinfo ifindex subjIf' flags heap.isSome
          let shown := f.flags &&& (NI_NODEADDR_FLAG_COMPAT ||| NI_NODEADDR_FLAG_LINKLOCAL |||
            NI_NODEADDR_FLAG_SITELOCAL ||| NI_NODEADDR_FLAG_GLOBAL)
          let shown := if failed f.replydatalen f.allocated then shown ||| NI_NODEADDR_FLAG_TRUNCATE
            else shown
          ⟨0, { p with
              reply := { p.reply with
                niType := ICMP6_NI_REPLY, niCode := ICMP6_NI_SUCCESS, niCksum := 0,
                niQtype := ntohs NI_QTYPE_NODEADDR, niFlags := shown.toUInt16 }
              replydatalen := f.replydatalen
              replydata := if f.allocated then
                  (heap.block f.replydatalen).map fun b =>
                    renderEntries ENTRY6 In6Addr.bytes b f.writes
                else none }, subjIf'⟩
        else ⟨0, p, subjIf'⟩

def prNodeinfoIpv4addr (ifaddrs : Option (List (NiIfaddrs UInt32))) (heap : Heap)
    (p : PacketContext) (subject : Option Memory) (subjlen : Nat) (flags : UInt32)
    (subjIf : Option Nat) (reply : Bool) : Checked :=
  if subject.isSome ∧ subjlen ≠ 4 then ⟨1, p, subjIf⟩
  else match ifaddrs with
    | none => ⟨-1, p, subjIf⟩
    | some ifa0 =>
        let address := subject.map fun m => be32 m 0
        let ifindex := ifindex4 ifa0 p.pktinfo address subjIf
        let subjIf' := subjIfAfter address ifindex subjIf
        if ifindex = 0 then ⟨1, p, subjIf⟩
        else if reply then
          let f := fill4 ifa0 p.pktinfo ifindex subjIf' flags heap.isSome
          let shown := f.flags &&& NI_IPV4ADDR_FLAG_ALL
          let shown := if failed f.replydatalen f.allocated then shown ||| NI_NODEADDR_FLAG_TRUNCATE
            else shown
          ⟨0, { p with
              reply := { p.reply with
                niType := ICMP6_NI_REPLY, niCode := ICMP6_NI_SUCCESS, niCksum := 0,
                niQtype := ntohs NI_QTYPE_IPV4ADDR, niFlags := shown.toUInt16 }
              replydatalen := f.replydatalen
              replydata := if f.allocated then
                  (heap.block f.replydatalen).map fun b =>
                    renderEntries ENTRY4 storedLong b f.writes
                else none }, subjIf'⟩
        else ⟨0, p, subjIf'⟩

end Baseliner.Ninfod
