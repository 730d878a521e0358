import Baseliner.NinfodAddrs

/-! The flags of the address replies of `ninfod`. Pass 1 notes on the working flags
that the addresses do not fit, but the mask with which the reply shows the flags has
no room for that bit, so that a reply says that it is truncated only when there was
no memory for it. -/

namespace Baseliner.Ninfod

open TwoPassStore

def ECHO6 : UInt32 :=
  NI_NODEADDR_FLAG_COMPAT ||| NI_NODEADDR_FLAG_LINKLOCAL ||| NI_NODEADDR_FLAG_SITELOCAL |||
    NI_NODEADDR_FLAG_GLOBAL

def ECHO4 : UInt32 := NI_IPV4ADDR_FLAG_ALL

section Shown

variable {A : Type}

def Filled.niFlags (echo : UInt32) (f : Filled A) : UInt32 :=
  let shown := f.flags &&& echo
  if failed f.replydatalen f.allocated then shown ||| NI_NODEADDR_FLAG_TRUNCATE else shown

def Filled.data (f : Filled A) : List (NiIfaddrs A) :=
  if f.allocated then contents f.addrs0 f.writes else []

/-- The reply says that it is truncated exactly when some of the matching entries are
not in its data, and repeats the other flags of the query. -/
structure Announced (echo flags shown : UInt32) (matching data : List (NiIfaddrs A)) : Prop where
  truncate : shown &&& NI_NODEADDR_FLAG_TRUNCATE ≠ 0 ↔ ¬ matching.Subperm data
  other : shown &&& ~~~NI_NODEADDR_FLAG_TRUNCATE = flags &&& echo

theorem Filled.niFlags_truncate {echo : UInt32} (apart : echo &&& NI_NODEADDR_FLAG_TRUNCATE = 0)
    (f : Filled A) :
    f.niFlags echo &&& NI_NODEADDR_FLAG_TRUNCATE ≠ 0 ↔
      failed f.replydatalen f.allocated = true := by
  have clear : f.flags &&& echo &&& NI_NODEADDR_FLAG_TRUNCATE = 0 := by
    rw [UInt32.and_assoc, apart, UInt32.and_zero]
  unfold Filled.niFlags
  dsimp only
  split
  · rename_i failure
    rw [or_and_distrib, clear, UInt32.zero_or, UInt32.and_self]
    exact iff_of_true (by decide) failure
  · rename_i success
    exact iff_of_false (fun set => set clear) success

theorem Filled.niFlags_other {echo : UInt32} (apart : echo &&& ~~~NI_NODEADDR_FLAG_TRUNCATE = echo)
    (f : Filled A) : f.niFlags echo &&& ~~~NI_NODEADDR_FLAG_TRUNCATE = f.flags &&& echo := by
  have kept : f.flags &&& echo &&& ~~~NI_NODEADDR_FLAG_TRUNCATE = f.flags &&& echo := by
    rw [UInt32.and_assoc, apart]
  unfold Filled.niFlags
  dsimp only
  split
  · have none : NI_NODEADDR_FLAG_TRUNCATE &&& ~~~NI_NODEADDR_FLAG_TRUNCATE = 0 := by decide
    rw [or_and_distrib, none, UInt32.or_zero, kept]
  · exact kept

theorem and_or_self (x y : UInt32) : x &&& y ||| y = y := by
  apply UInt32.toBitVec_inj.mp
  ext i
  simp only [UInt32.toBitVec_or, UInt32.toBitVec_and, BitVec.getElem_or, BitVec.getElem_and]
  cases x.toBitVec[i] with
  | false => rfl
  | true => exact Bool.or_self _

theorem announced_iff {echo : UInt32} (apart : echo &&& NI_NODEADDR_FLAG_TRUNCATE = 0)
    (within : echo &&& ~~~NI_NODEADDR_FLAG_TRUNCATE = echo) (flags : UInt32) (f : Filled A)
    (matching : List (NiIfaddrs A)) :
    Announced echo flags (f.niFlags echo) matching f.data ↔
      (failed f.replydatalen f.allocated = true ↔ ¬ matching.Subperm f.data) ∧
        f.flags &&& echo = flags &&& echo := by
  rw [← f.niFlags_truncate apart, ← f.niFlags_other within]
  exact ⟨fun h => ⟨h.truncate, h.other⟩, fun h => ⟨h.1, h.2⟩⟩

theorem Filled.data_eq {f : Filled A} (entry : Nat) (positive : 0 < entry)
    (size : f.replydatalen = entry * f.addrs0) (room : f.allocated = true ∨ f.replydatalen = 0) :
    f.data = contents f.addrs0 f.writes := by
  unfold Filled.data
  split
  · rfl
  · rename_i none
    have empty := room.resolve_left none
    rw [size] at empty
    rw [(Nat.mul_eq_zero.mp empty).resolve_left positive.ne']
    rfl

/-- Where the second pass has another interface than the first, it stores none of the
counted entries. -/
theorem subperm_interface_iff {base : NiIfaddrs A → Bool} {all : Bool} {i j : Nat}
    {keep store : NiIfaddrs A → Bool}
    (hkeep : ∀ ifa, keep ifa = (base ifa && (all || ifa.ifaIfindex == i)))
    (hstore : ∀ ifa, store ifa = (base ifa && (all || ifa.ifaIfindex == j)))
    (l : List (NiIfaddrs A)) :
    (l.filter keep).Subperm (contents (l.filter keep).length
        (storePass (l.filter keep).length ((l.filter keep).filter fun ifa => !ifa.deprecated).length
          store NiIfaddrs.deprecated l 0 0 0)) ↔
      l.filter keep = [] ∨ all = true ∨ i = j := by
  constructor
  · intro whole
    by_cases none : l.filter keep = []
    · exact .inl none
    obtain ⟨ifa, rest, first⟩ := List.exists_cons_of_ne_nil none
    have one : ifa ∈ l.filter keep := by
      rw [first]
      exact List.mem_cons_self
    have stored := mem_contents_storePass (whole.subset one)
    have kept := (List.mem_filter.mp one).2
    exact .inr (interface_of_both hkeep hstore kept stored)
  · rintro (none | same)
    · rw [none]
      exact List.nil_subperm
    · obtain rfl := tests_eq hkeep hstore same
      rw [storePass_complete_iff]
      have both := List.length_eq_length_filter_add NiIfaddrs.deprecated (l := l.filter store)
      refine ⟨Nat.le_refl _, .inr ⟨Nat.le_refl _, ?_⟩⟩
      omega

theorem failed_ite (n : Nat) (malloc : Bool) :
    failed n (if n ≠ 0 then malloc else false) = true ↔ n ≠ 0 ∧ malloc = false := by
  by_cases zero : n = 0
  · simp [failed, zero]
  · simp [failed, zero]

theorem counted_eq_nil_iff (limit : Nat) (several : 1 < limit) (keep : NiIfaddrs A → Bool)
    (l : List (NiIfaddrs A)) : counted limit keep l = [] ↔ l.filter keep = [] := by
  rw [counted, List.take_eq_nil_iff]
  exact or_iff_right (by omega)

end Shown

/-! ### IPv6 -/

/-- The tests of a query, on any entry that is not tentative. -/
def matches6 (flags : UInt32) (ifindex : Nat) (ifa : NiIfaddrs In6Addr) : Bool :=
  ifa.notTentative && (flags &&& NI_NODEADDR_FLAG_ALL != 0 || ifa.ifaIfindex == ifindex) &&
    ifa.ifaAddr.any fun a => !filterIpv6addr a flags

/-- The addresses that match the interface and the scopes of the query, temporary ones too. -/
def matching6 (ifa0 : List (NiIfaddrs In6Addr)) (pktinfo : Pktinfo) (c : Call In6Addr)
    (flags : UInt32) : List (NiIfaddrs In6Addr) :=
  ifa0.filter (matches6 flags (subjectInterface In6Addr.isLoopback ifa0 pktinfo.ipi6Ifindex c))

/-- When an IPv6 reply announces what it leaves out. With memory it announces nothing: none of the
matching addresses is a temporary one, they fit, and the two passes use the same interface. Without
memory some matching address is not temporary, if there is any, and where those do not fit, the
query has all the flags that the complement sets. -/
def Announces6 (ifa0 : List (NiIfaddrs In6Addr)) (pktinfo : Pktinfo) (c : Call In6Addr)
    (flags : UInt32) (malloc : Bool) : Prop :=
  let matching := matching6 ifa0 pktinfo c flags
  if malloc then
    (∀ ifa ∈ matching, ifa.usable = true) ∧ matching.length < LIMIT6 ∧
      (matching = [] ∨ (flags &&& NI_NODEADDR_FLAG_ALL != 0) = true ∨
        ReceivedOnly In6Addr.isLoopback ifa0 pktinfo.ipi6Ifindex c)
  else
    (matching ≠ [] → ∃ ifa ∈ matching, ifa.usable = true) ∧
      (LIMIT6 ≤ (matching.filter NiIfaddrs.usable).length → flags &&& ECHO6 = ECHO6)

theorem notTentative_of_usable {A : Type} {ifa : NiIfaddrs A} (usable : ifa.usable = true) :
    ifa.notTentative = true := by
  simp only [NiIfaddrs.usable, NiIfaddrs.notTentative, decide_eq_true_eq] at usable ⊢
  have part : (IFA_F_TENTATIVE ||| IFA_F_SECONDARY) &&& IFA_F_TENTATIVE = IFA_F_TENTATIVE := by
    decide
  refine ⟨usable.1, ?_⟩
  rw [← part, ← UInt16.and_assoc, usable.2, UInt16.zero_and]

theorem filter_usable_matches6 (flags : UInt32) (ifindex : Nat)
    (ifa0 : List (NiIfaddrs In6Addr)) :
    (ifa0.filter (matches6 flags ifindex)).filter NiIfaddrs.usable =
      ifa0.filter (selects6 flags ifindex) := by
  rw [List.filter_filter]
  congr 1
  funext ifa
  cases usable : ifa.usable with
  | false => rw [selects6, usable, Bool.false_and, Bool.false_and, Bool.false_and]
  | true => rw [matches6, selects6, usable, notTentative_of_usable usable, Bool.true_and]

section SixPasses

variable (ifa0 : List (NiIfaddrs In6Addr)) (pktinfo : Pktinfo) (ifindex : Nat)
  (subjIf : Option Nat) (flags : UInt32) (malloc : Bool)

theorem fill6_flags :
    (fill6 ifa0 pktinfo ifindex subjIf flags malloc).flags =
      if LIMIT6 ≤ (ifa0.filter (selects6 flags ifindex)).length then
        flags &&& ~~~NI_NODEADDR_FLAG_TRUNCATE ||| ~~~NI_NODEADDR_FLAG_TRUNCATE
      else flags &&& ~~~NI_NODEADDR_FLAG_TRUNCATE := by
  have count := @countPass_start _ LIMIT6 (selects6 flags ifindex) NiIfaddrs.deprecated
    (by decide) ifa0
  simp only [fill6, selects6_clear, count, decide_eq_true_eq]

theorem fill6_echo :
    (fill6 ifa0 pktinfo ifindex subjIf flags malloc).flags &&& ECHO6 = flags &&& ECHO6 ↔
      LIMIT6 ≤ (ifa0.filter (selects6 flags ifindex)).length → flags &&& ECHO6 = ECHO6 := by
  have kept := and_clear_truncate ECHO6 (by decide) flags
  have within : ~~~NI_NODEADDR_FLAG_TRUNCATE &&& ECHO6 = ECHO6 := by decide
  rw [fill6_flags]
  by_cases truncated : LIMIT6 ≤ (ifa0.filter (selects6 flags ifindex)).length
  · have all : (flags &&& ~~~NI_NODEADDR_FLAG_TRUNCATE ||| ~~~NI_NODEADDR_FLAG_TRUNCATE) &&& ECHO6 =
        ECHO6 := by
      rw [or_and_distrib, kept, within, and_or_self]
    rw [if_pos truncated, all]
    exact ⟨fun same _ => same.symm, fun same => (same truncated).symm⟩
  · rw [if_neg truncated, kept]
    exact iff_of_true rfl fun more => absurd more truncated

theorem fill6_failed :
    failed (fill6 ifa0 pktinfo ifindex subjIf flags malloc).replydatalen
        (fill6 ifa0 pktinfo ifindex subjIf flags malloc).allocated = true ↔
      ifa0.filter (selects6 flags ifindex) ≠ [] ∧ malloc = false := by
  have count := @countPass_start _ LIMIT6 (selects6 flags ifindex) NiIfaddrs.deprecated
    (by decide) ifa0
  simp only [fill6, selects6_clear, count]
  rw [failed_ite, ne_eq, ne_eq, ← counted_eq_nil_iff LIMIT6 (by decide), Nat.mul_eq_zero,
    List.length_eq_zero_iff]
  exact and_congr_left fun _ => not_congr (or_iff_right (by decide))

theorem fill6_data_unallocated : (fill6 ifa0 pktinfo ifindex subjIf flags false).data = [] := by
  have none : (fill6 ifa0 pktinfo ifindex subjIf flags false).allocated = false := by
    simp only [fill6, ite_self]
  rw [Filled.data, none]
  rfl

end SixPasses

section SixReply

variable (ifa0 : List (NiIfaddrs In6Addr)) (pktinfo : Pktinfo) (c : Call In6Addr) (flags : UInt32)

/-- A reply with memory holds all that the first pass selects when they fit and both passes mean
the same interface. -/
theorem fill6_selected_iff (found : ifindex6 ifa0 pktinfo c.subject c.subjIf ≠ 0) :
    let ifindex := ifindex6 ifa0 pktinfo c.subject c.subjIf
    (ifa0.filter (selects6 flags ifindex)).Subperm
        (fill6 ifa0 pktinfo ifindex (subjIfAfter c.subject ifindex c.subjIf) flags true).data ↔
      (ifa0.filter (selects6 flags ifindex)).length < LIMIT6 ∧
        (ifa0.filter (selects6 flags ifindex) = [] ∨ (flags &&& NI_NODEADDR_FLAG_ALL != 0) = true ∨
          ReceivedOnly In6Addr.isLoopback ifa0 pktinfo.ipi6Ifindex c) := by
  intro ifindex
  obtain ⟨count, size, room, writes⟩ :=
    fill6_eq ifa0 pktinfo ifindex (subjIfAfter c.subject ifindex c.subjIf) flags
  rw [Filled.data_eq ENTRY6 (by decide) (by rw [size, count]) room]
  by_cases few : (ifa0.filter (selects6 flags ifindex)).length < LIMIT6
  · rw [counted_eq_filter few] at count writes
    rw [if_neg (by omega)] at writes
    rw [count, writes, and_iff_right few, ← subjectInterface_eq_iff _ _ pktinfo c ifindex,
      ← ifindex6_eq ifa0 pktinfo c found]
    exact subperm_interface_iff (selects6_eq flags _) (selects6_eq flags _) ifa0
  · refine iff_of_false (fun all => ?_) (fun h => few h.1)
    have room := all.length_le.trans length_contents_le
    rw [count, counted, List.length_take] at room
    have several : 0 < LIMIT6 := by decide
    omega

/-- No pass of a reply stores a temporary address. -/
theorem usable_of_mem_data {ifindex : Nat} {subjIf : Option Nat} {ifa : NiIfaddrs In6Addr}
    (stored : ifa ∈ (fill6 ifa0 pktinfo ifindex subjIf flags true).data) : ifa.usable = true := by
  obtain ⟨count, size, room, writes⟩ := fill6_eq ifa0 pktinfo ifindex subjIf flags
  rw [Filled.data_eq ENTRY6 (by decide) (by rw [size, count]) room, count, writes] at stored
  have kept := mem_contents_storePass stored
  split at kept
  · simp only [storable6, Bool.and_eq_true] at kept
    exact kept.1
  · simp only [selects6, Bool.and_eq_true] at kept
    exact kept.1.1

theorem fill6_complete_iff (found : ifindex6 ifa0 pktinfo c.subject c.subjIf ≠ 0) :
    let ifindex := ifindex6 ifa0 pktinfo c.subject c.subjIf
    (matching6 ifa0 pktinfo c flags).Subperm
        (fill6 ifa0 pktinfo ifindex (subjIfAfter c.subject ifindex c.subjIf) flags true).data ↔
      Announces6 ifa0 pktinfo c flags true := by
  intro ifindex
  have whole := fill6_selected_iff ifa0 pktinfo c flags found
  have split := filter_usable_matches6 flags ifindex ifa0
  have same : matching6 ifa0 pktinfo c flags = ifa0.filter (matches6 flags ifindex) := by
    rw [matching6, ← ifindex6_eq ifa0 pktinfo c found]
  dsimp only at whole
  rw [Announces6, if_pos rfl, same]
  constructor
  · intro all
    have usable : ∀ ifa ∈ ifa0.filter (matches6 flags ifindex), ifa.usable = true :=
      fun ifa mem => usable_of_mem_data ifa0 pktinfo flags (all.subset mem)
    rw [List.filter_eq_self.mpr usable] at split
    rw [split] at all usable ⊢
    exact ⟨usable, whole.mp all⟩
  · rintro ⟨usable, fits⟩
    rw [List.filter_eq_self.mpr usable] at split
    rw [split] at fits ⊢
    exact whole.mpr fits

theorem announced6_iff (malloc : Bool) (found : ifindex6 ifa0 pktinfo c.subject c.subjIf ≠ 0) :
    let ifindex := ifindex6 ifa0 pktinfo c.subject c.subjIf
    let f := fill6 ifa0 pktinfo ifindex (subjIfAfter c.subject ifindex c.subjIf) flags malloc
    Announced ECHO6 flags (f.niFlags ECHO6) (matching6 ifa0 pktinfo c flags) f.data ↔
      Announces6 ifa0 pktinfo c flags malloc := by
  intro ifindex f
  have same : matching6 ifa0 pktinfo c flags = ifa0.filter (matches6 flags ifindex) := by
    rw [matching6, ← ifindex6_eq ifa0 pktinfo c found]
  rw [announced_iff (by decide) (by decide), fill6_failed, fill6_echo]
  cases malloc with
  | true =>
      have whole := fill6_complete_iff ifa0 pktinfo c flags found
      dsimp only at whole
      rw [whole]
      simp only [Bool.true_eq_false, and_false, false_iff, not_not]
      refine and_iff_left_of_imp fun announces truncated => ?_
      have fits := announces.2.1
      rw [same] at fits
      have part := List.length_filter_le NiIfaddrs.usable (ifa0.filter (matches6 flags ifindex))
      rw [filter_usable_matches6] at part
      omega
  | false =>
      rw [fill6_data_unallocated, List.subperm_nil, Announces6, if_neg (by decide), same,
        ← filter_usable_matches6, and_iff_left rfl]
      refine and_congr_left fun _ => ?_
      generalize ifa0.filter (matches6 flags ifindex) = matching
      have some_ : matching.filter NiIfaddrs.usable ≠ [] ↔ ∃ ifa ∈ matching, ifa.usable = true := by
        simp [List.filter_eq_nil_iff]
      rw [some_]
      refine ⟨fun both => both.mpr, fun one => ⟨fun found => ?_, one⟩⟩
      obtain ⟨ifa, mem, -⟩ := found
      exact List.ne_nil_of_mem mem

end SixReply

/-! ### IPv4 -/

def matching4 (ifa0 : List (NiIfaddrs UInt32)) (pktinfo : Pktinfo) (c : Call UInt32)
    (flags : UInt32) : List (NiIfaddrs UInt32) :=
  ifa0.filter (selects4 flags
    (subjectInterface (fun a => a = INADDR_LOOPBACK) ifa0 pktinfo.ipi6Ifindex c))

/-- The addresses that pass 1 counts: those of the receiving interface, or the one that
was found before, as far as they fit. -/
def counted4 (ifa0 : List (NiIfaddrs UInt32)) (pktinfo : Pktinfo) (c : Call UInt32)
    (flags : UInt32) : List (NiIfaddrs UInt32) :=
  counted LIMIT4 (selects4 flags (pointedIfindex pktinfo c.subjIf)) ifa0

/-- When an IPv4 reply announces what it leaves out: without memory, there is something
to leave out whenever something was counted; with memory, all matching addresses have
room in what was counted, the deprecated ones behind the preferred ones. -/
def Announces4 (ifa0 : List (NiIfaddrs UInt32)) (pktinfo : Pktinfo) (c : Call UInt32)
    (flags : UInt32) (malloc : Bool) : Prop :=
  let matching := matching4 ifa0 pktinfo c flags
  let counted := counted4 ifa0 pktinfo c flags
  if malloc then
    matching.length ≤ counted.length ∧
      (matching.filter NiIfaddrs.deprecated = [] ∨
        (matching.filter fun ifa => !ifa.deprecated).length ≤
            (counted.filter fun ifa => !ifa.deprecated).length ∧
          (counted.filter fun ifa => !ifa.deprecated).length +
            (matching.filter NiIfaddrs.deprecated).length ≤ counted.length)
  else counted = [] ↔ matching = []

section FourPasses

variable (ifa0 : List (NiIfaddrs UInt32)) (pktinfo : Pktinfo) (ifindex : Nat)
  (subjIf : Option Nat) (flags : UInt32) (malloc : Bool)

theorem fill4_echo :
    (fill4 ifa0 pktinfo ifindex subjIf flags malloc).flags &&& ECHO4 = flags &&& ECHO4 := by
  have kept := and_clear_truncate ECHO4 (by decide) flags
  unfold fill4
  dsimp only [NI_IPV4ADDR_FLAG_TRUNCATE]
  split
  · have apart : NI_NODEADDR_FLAG_TRUNCATE &&& ECHO4 = 0 := by decide
    rw [or_and_distrib, apart, UInt32.or_zero, kept]
  · exact kept

theorem fill4_failed :
    failed (fill4 ifa0 pktinfo ifindex subjIf flags malloc).replydatalen
        (fill4 ifa0 pktinfo ifindex subjIf flags malloc).allocated = true ↔
      counted LIMIT4 (selects4 flags (pointedIfindex pktinfo subjIf)) ifa0 ≠ [] ∧
        malloc = false := by
  have count := @countPass_start _ LIMIT4 (selects4 flags (pointedIfindex pktinfo subjIf))
    NiIfaddrs.deprecated (by decide) ifa0
  simp only [fill4, selects4_clear, count]
  generalize counted LIMIT4 (selects4 flags (pointedIfindex pktinfo subjIf)) ifa0 = kept
  cases kept with
  | nil => simp [failed]
  | cons ifa rest => simp [failed, ENTRY4]

theorem fill4_data_unallocated : (fill4 ifa0 pktinfo ifindex subjIf flags false).data = [] := by
  have none : (fill4 ifa0 pktinfo ifindex subjIf flags false).allocated = false := by
    simp only [fill4, ite_self]
  rw [Filled.data, none]
  rfl

end FourPasses

theorem announced4_iff (ifa0 : List (NiIfaddrs UInt32)) (pktinfo : Pktinfo)
    (c : Call UInt32) (flags : UInt32) (malloc : Bool)
    (found : ifindex4 ifa0 pktinfo c.subject c.subjIf ≠ 0) :
    let ifindex := ifindex4 ifa0 pktinfo c.subject c.subjIf
    let f := fill4 ifa0 pktinfo ifindex (subjIfAfter c.subject ifindex c.subjIf) flags malloc
    Announced ECHO4 flags (f.niFlags ECHO4) (matching4 ifa0 pktinfo c flags) f.data ↔
      Announces4 ifa0 pktinfo c flags malloc := by
  intro ifindex f
  have same : matching4 ifa0 pktinfo c flags = ifa0.filter (selects4 flags ifindex) := by
    rw [matching4, ← ifindex4_eq ifa0 pktinfo c found]
  have pointed := pointedIfindex_after pktinfo c ifindex
  rw [announced_iff (by decide) (by decide), fill4_failed, fill4_echo, pointed, Announces4,
    and_iff_left rfl, ← counted4]
  cases malloc with
  | false =>
      rw [fill4_data_unallocated, List.subperm_nil]
      simp [not_iff_not]
  | true =>
      obtain ⟨count, size, room, writes⟩ :=
        fill4_eq ifa0 pktinfo ifindex (subjIfAfter c.subject ifindex c.subjIf) flags
      rw [pointed, ← counted4] at count size writes
      rw [f.data_eq ENTRY4 (by decide) (by rw [size, count]) room, count, writes, same,
        storePass_complete_iff]
      simp only [Bool.true_eq_false, and_false, false_iff, not_not, if_true]

/-! ### Both families -/

theorem prNodeinfoIpv6addr_niFlags (ifa0 : List (NiIfaddrs In6Addr)) (heap : Heap)
    (p : PacketContext) (subject : Option Memory) (subjlen : Nat) (flags : UInt32)
    (subjIf : Option Nat) {f : Filled In6Addr} (size : subject.isSome → subjlen = 16)
    (replied : replyIpv6addr ifa0 p.pktinfo (subject.map fun m => in6At m 0) subjIf flags
      heap.isSome = some f) :
    let r := prNodeinfoIpv6addr (some ifa0) heap p subject subjlen flags subjIf true
    r.rc = 0 ∧ r.p.reply.niFlags = (f.niFlags ECHO6).toUInt16 := by
  have length : ¬ (subject.isSome = true ∧ subjlen ≠ 16) := fun h => h.2 (size h.1)
  unfold replyIpv6addr at replied
  unfold prNodeinfoIpv6addr
  dsimp only at replied ⊢
  rw [if_neg length]
  split at replied
  · cases replied
  · rename_i found
    cases replied
    rw [if_neg found, if_pos rfl]
    exact ⟨rfl, rfl⟩

theorem prNodeinfoIpv4addr_niFlags (ifa0 : List (NiIfaddrs UInt32)) (heap : Heap)
    (p : PacketContext) (subject : Option Memory) (subjlen : Nat) (flags : UInt32)
    (subjIf : Option Nat) {f : Filled UInt32} (size : subject.isSome → subjlen = 4)
    (replied : replyIpv4addr ifa0 p.pktinfo (subject.map fun m => be32 m 0) subjIf flags
      heap.isSome = some f) :
    let r := prNodeinfoIpv4addr (some ifa0) heap p subject subjlen flags subjIf true
    r.rc = 0 ∧ r.p.reply.niFlags = (f.niFlags ECHO4).toUInt16 := by
  have length : ¬ (subject.isSome = true ∧ subjlen ≠ 4) := fun h => h.2 (size h.1)
  unfold replyIpv4addr at replied
  unfold prNodeinfoIpv4addr
  dsimp only at replied ⊢
  rw [if_neg length]
  split at replied
  · cases replied
  · rename_i found
    cases replied
    rw [if_neg found, if_pos rfl]
    exact ⟨rfl, rfl⟩

/-- Which address replies announce exactly what they leave out. -/
theorem truncation_announced_iff (pktinfo : Pktinfo) (flags : UInt32) (malloc : Bool) :
    (∀ (ifa0 : List (NiIfaddrs In6Addr)) (c : Call In6Addr) (f : Filled In6Addr),
      replyIpv6addr ifa0 pktinfo c.subject c.subjIf flags malloc = some f →
        (Announced ECHO6 flags (f.niFlags ECHO6) (matching6 ifa0 pktinfo c flags) f.data ↔
          Announces6 ifa0 pktinfo c flags malloc)) ∧
    (∀ (ifa0 : List (NiIfaddrs UInt32)) (c : Call UInt32) (f : Filled UInt32),
      replyIpv4addr ifa0 pktinfo c.subject c.subjIf flags malloc = some f →
        (Announced ECHO4 flags (f.niFlags ECHO4) (matching4 ifa0 pktinfo c flags) f.data ↔
          Announces4 ifa0 pktinfo c flags malloc)) := by
  constructor
  · intro ifa0 c f reply
    simp only [replyIpv6addr, ite_eq_iff, reduceCtorEq, and_false, Option.some.injEq,
      false_or] at reply
    obtain ⟨found, rfl⟩ := reply
    exact announced6_iff ifa0 pktinfo c flags malloc found
  · intro ifa0 c f reply
    simp only [replyIpv4addr, ite_eq_iff, reduceCtorEq, and_false, Option.some.injEq,
      false_or] at reply
    obtain ⟨found, rfl⟩ := reply
    exact announced4_iff ifa0 pktinfo c flags malloc found

/-- The receiving interface has one address more than a reply has room for. -/
theorem truncation_not_announced :
    let ifa0 : List (NiIfaddrs In6Addr) :=
      (List.range 61).map fun k => ⟨1, 0, some ⟨0x20010db8, 0, 0, UInt32.ofNat (k + 2)⟩⟩
    let pktinfo : Pktinfo := ⟨⟨0x20010db8, 0, 0, 2⟩, 1⟩
    let c : Call In6Addr := .checked 0
    ∃ f, replyIpv6addr ifa0 pktinfo c.subject c.subjIf NI_NODEADDR_FLAG_GLOBAL true = some f ∧
      f.niFlags ECHO6 = ECHO6 ∧
      ¬ Announced ECHO6 NI_NODEADDR_FLAG_GLOBAL (f.niFlags ECHO6)
        (matching6 ifa0 pktinfo c NI_NODEADDR_FLAG_GLOBAL) f.data := by
  intro ifa0 pktinfo c
  refine ⟨_, rfl, by decide +kernel, fun right => ?_⟩
  have shown := right.truncate.mpr fun all => absurd all.length_le (by decide +kernel)
  exact shown (by decide +kernel)

theorem truncation_announced_two :
    let six : List (NiIfaddrs In6Addr) :=
      [⟨1, 0x20, some ⟨0x20010db8, 0, 0, 2⟩⟩, ⟨1, 0, some ⟨0x20010db8, 0, 0, 1⟩⟩]
    let four : List (NiIfaddrs UInt32) := [⟨1, 0x20, some 0x0a000002⟩, ⟨1, 0, some 0x0a000001⟩]
    let pktinfo : Pktinfo := ⟨⟨0xfe800000, 0, 0, 1⟩, 1⟩
    let named : Call In6Addr := .checked 0
    let subject : Call UInt32 := .checking 0x0a000001
    (∃ f, replyIpv6addr six pktinfo named.subject named.subjIf NI_NODEADDR_FLAG_GLOBAL true =
        some f ∧ Announced ECHO6 NI_NODEADDR_FLAG_GLOBAL (f.niFlags ECHO6)
          (matching6 six pktinfo named NI_NODEADDR_FLAG_GLOBAL) f.data) ∧
    (∃ f, replyIpv4addr four pktinfo subject.subject subject.subjIf 0 false = some f ∧
      Announced ECHO4 0 (f.niFlags ECHO4) (matching4 four pktinfo subject 0) f.data) := by
  intro six four pktinfo named subject
  constructor
  · refine ⟨_, rfl, ?_⟩
    have iff :=
      (truncation_announced_iff pktinfo NI_NODEADDR_FLAG_GLOBAL true).1 six named _ rfl
    refine iff.mpr ?_
    rw [Announces6, if_pos rfl]
    exact ⟨by decide, by decide, .inr (.inr trivial)⟩
  · refine ⟨_, rfl, ?_⟩
    have iff := (truncation_announced_iff pktinfo 0 false).2 four subject _ rfl
    refine iff.mpr ?_
    change counted4 four pktinfo subject 0 = [] ↔ matching4 four pktinfo subject 0 = []
    decide

end Baseliner.Ninfod
