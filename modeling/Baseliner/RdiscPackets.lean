import Baseliner.InternetChecksums
import Baseliner.RdiscTable

/-! The advertisements of `rdisc`, from the router that sends one to the table of the host that
hears it. The two hosts need not have the same order of bytes. -/

namespace Baseliner.RdiscPackets

open ByteOrder GuardedRuns InternetChecksums OnesComplement PingChecksum RdiscTable

def ICMP_ROUTER_ADVERTISEMENT : UInt8 := 9

def TIMER_INTERVAL : Int32 := 3

def MAXPACKET : ℕ := 4096

/-- An interface. An address is the number of its four bytes, the first of them the highest. -/
structure Interface where
  localaddr : UInt32
  remoteaddr : UInt32
  netmask : UInt32
  preference : Int32

def isDirectlyConnected (interfaces : List Interface) (addr : UInt32) : Bool :=
  interfaces.any fun ifp => addr &&& ifp.netmask = ifp.remoteaddr &&& ifp.netmask

/-! ### The router -/

def icmpRa (e : Endian) (cksum : UInt16) (lft : Int32) (ifp : Interface) : List UInt8 :=
  [ICMP_ROUTER_ADVERTISEMENT, 0] ++ stored e cksum ++ ([1, 2] ++
    stored .big lft.toUInt32.toUInt16 ++ storedLong ifp.localaddr ++
      storedLong ifp.preference.toUInt32)

def advertise (e : Endian) (lft : Int32) (ifp : Interface) : Option (List UInt8) :=
  (rdiscInCksum e (icmpRa e 0 lft ifp)).map fun cksum => icmpRa e cksum lft ifp

/-! ### The host -/

/-- A read outside the buffer has no result. -/
def shortAt (buf : List UInt8) (i : ℕ) : Option UInt16 := do
  let a ← buf[i]?
  let b ← buf[i + 1]?
  return load .big a b

def longAt (buf : List UInt8) (i : ℕ) : Option UInt32 := do
  let high ← shortAt buf i
  let low ← shortAt buf (i + 2)
  return long high low

def addresses (interfaces : List Interface) (icp : List UInt8) (wpa : ℕ) (ttl : Int32) :
    ℕ → ℕ → Option (List Call)
  | _, 0 => some []
  | i, n + 1 => do
      let router ← longAt icp (8 + i * wpa * 4)
      let preference ← longAt icp (8 + i * wpa * 4 + 4)
      let calls ← addresses interfaces icp wpa ttl (i + 1) n
      return if isDirectlyConnected interfaces router then
        .recordRouter router preference.toInt32 ttl :: calls else calls

def routerAdvertisement (e : Endian) (interfaces : List Interface) (icp : List UInt8) :
    Option (List Call) := do
  let sum ← rdiscInCksum e icp
  let code ← icp[1]?
  let numAddrs ← icp[4]?
  let wpa ← icp[5]?
  let lifetime ← shortAt icp 6
  if sum ≠ 0 ∨ code ≠ 0 ∨ numAddrs < 1 ∨ wpa < 2 ∨
      icp.length < 8 + numAddrs.toNat * wpa.toNat * 4 then return []
  else addresses interfaces icp wpa.toNat (Int32.ofNat lifetime.toNat) 0 numAddrs.toNat

/-- `pr_pack` of a host, for a datagram with its IP header. -/
def prPack (e : Endian) (interfaces : List Interface) (buf : List UInt8) : Option (List Call) := do
  let first ← buf[0]?
  let hlen := first.toNat % 16 * 4
  if buf.length < hlen + 8 then return []
  else do
    let icp := buf.drop hlen
    let type ← icp[0]?
    if type = ICMP_ROUTER_ADVERTISEMENT then routerAdvertisement e interfaces icp else return []

/-- An IP header: its first byte tells how many words it has. -/
structure Header where
  bytes : List UInt8
  first : UInt8
  starts : bytes[0]? = some first
  length : bytes.length = first.toNat % 16 * 4

def hear (e : Endian) (interfaces : List Interface) (best : Bool) (s : Rdisc) (buf : List UInt8) :
    Rdisc :=
  match prPack e interfaces buf with
  | some calls => run (step best) s calls
  | none => s

/-- An advertisement of some router, which may come late, again or not at all, and the timer. -/
inductive Event
  | advertisement (header : Header) (order : Endian) (lft : Int32) (ifp : Interface)
  | timer

/-- `timer` reads the interfaces again every now and then; here they stay what they are. -/
def hostStep (e : Endian) (interfaces : List Interface) (best : Bool) (s : Rdisc) : Event → Rdisc
  | .advertisement header order lft ifp =>
      match advertise order lft ifp with
      | some packet => hear e interfaces best s (header.bytes ++ packet)
      | none => s
  | .timer => ageTable best s TIMER_INTERVAL

/-! ### What is read -/

theorem shortAt_some {buf : List UInt8} {i : ℕ} (inside : i + 2 ≤ buf.length) :
    ∃ x, shortAt buf i = some x := by
  rw [shortAt, List.getElem?_eq_getElem (show i < buf.length by omega),
    List.getElem?_eq_getElem (show i + 1 < buf.length by omega)]
  exact ⟨_, rfl⟩

theorem longAt_some {buf : List UInt8} {i : ℕ} (inside : i + 4 ≤ buf.length) :
    ∃ x, longAt buf i = some x := by
  obtain ⟨high, first⟩ := shortAt_some (show i + 2 ≤ buf.length by omega)
  obtain ⟨low, second⟩ := shortAt_some (show i + 2 + 2 ≤ buf.length by omega)
  rw [longAt, first, second]
  exact ⟨_, rfl⟩

theorem addresses_some (interfaces : List Interface) {icp : List UInt8} {wpa : ℕ} (ttl : Int32)
    (words : 2 ≤ wpa) {n i : ℕ} (inside : 8 + (i + n) * wpa * 4 ≤ icp.length) :
    ∃ calls, addresses interfaces icp wpa ttl i n = some calls := by
  induction n generalizing i with
  | zero => exact ⟨[], rfl⟩
  | succ n ih =>
    have own : 8 + i * wpa * 4 + 8 ≤ icp.length := by
      have more : (i + 1) * wpa ≤ (i + (n + 1)) * wpa := Nat.mul_le_mul_right wpa (by omega)
      rw [Nat.add_mul, Nat.one_mul] at more
      omega
    obtain ⟨router, first⟩ := longAt_some (show 8 + i * wpa * 4 + 4 ≤ icp.length by omega)
    obtain ⟨preference, second⟩ := longAt_some (show 8 + i * wpa * 4 + 4 + 4 ≤ icp.length by omega)
    obtain ⟨calls, rest⟩ := ih (i := i + 1) (by rwa [Nat.add_assoc, Nat.add_comm 1 n])
    rw [addresses, first, second, rest]
    exact ⟨_, rfl⟩

theorem routerAdvertisement_some (e : Endian) (interfaces : List Interface) {icp : List UInt8}
    (long : 8 ≤ icp.length) (fits : icp.length ≤ 65535) :
    ∃ calls, routerAdvertisement e interfaces icp = some calls := by
  obtain ⟨lifetime, read⟩ := shortAt_some (show 6 + 2 ≤ icp.length by omega)
  rw [routerAdvertisement, rdiscInCksum_eq e fits,
    List.getElem?_eq_getElem (show 1 < icp.length by omega),
    List.getElem?_eq_getElem (show 4 < icp.length by omega),
    List.getElem?_eq_getElem (show 5 < icp.length by omega), read]
  simp only [Option.bind_eq_bind, Option.bind_some]
  split_ifs with refused
  · exact ⟨[], rfl⟩
  · simp only [not_or] at refused
    obtain ⟨-, -, -, words, room⟩ := refused
    have two : 2 ≤ icp[5].toNat := UInt8.le_iff_toNat_le.mp (UInt8.not_lt.mp words)
    exact addresses_some interfaces _ two (by rw [Nat.zero_add]; omega)

/-- Whatever a datagram holds, `pr_pack` stays inside of what was received. -/
theorem prPack_stays_inside (e : Endian) (interfaces : List Interface) {buf : List UInt8}
    (some_ : 0 < buf.length) (fits : buf.length ≤ MAXPACKET) :
    ∃ calls, prPack e interfaces buf = some calls := by
  rw [prPack, List.getElem?_eq_getElem some_]
  simp only [Option.bind_eq_bind, Option.bind_some]
  split_ifs with short
  · exact ⟨[], rfl⟩
  · have rest : (buf.drop (buf[0].toNat % 16 * 4)).length =
        buf.length - buf[0].toNat % 16 * 4 := List.length_drop
    rw [List.getElem?_eq_getElem (show 0 < (buf.drop (buf[0].toNat % 16 * 4)).length by omega)]
    simp only [Option.bind_some]
    split_ifs
    · exact routerAdvertisement_some e interfaces (by omega) (by rw [MAXPACKET] at fits; omega)
    · exact ⟨[], rfl⟩

/-- A datagram that ends in its IP header, and an advertisement of two routers. -/
theorem prPack_stays_inside_two :
    let interfaces : List Interface := [⟨0x0a000009, 0x0a000000, 0xff000000, 0⟩]
    let advertisement : List UInt8 := 0x45 :: List.replicate 19 0 ++
      [9, 0, 0xd9, 0xe6, 2, 2, 7, 8, 10, 0, 0, 1, 0, 0, 0, 5, 10, 0, 0, 2, 0, 0, 0, 7]
    (∃ calls, prPack .little interfaces [0x46, 0, 0, 9] = some calls) ∧
      ∃ calls, prPack .little interfaces advertisement = some calls ∧
        calls = [.recordRouter 0x0a000001 5 1800, .recordRouter 0x0a000002 7 1800] := by
  intro interfaces advertisement
  refine ⟨prPack_stays_inside .little interfaces (by decide) (by decide), ?_⟩
  obtain ⟨calls, inside⟩ :=
    @prPack_stays_inside .little interfaces advertisement (by decide) (by decide)
  have heard : prPack .little interfaces advertisement =
      some [.recordRouter 0x0a000001 5 1800, .recordRouter 0x0a000002 7 1800] := by
    rfl
  exact ⟨calls, inside, Option.some.inj (inside.symm.trans heard)⟩

/-! ### An advertisement that is heard -/

section packet

variable {e : Endian} {lft : Int32} {ifp : Interface}

theorem icmpRa_length (e : Endian) (cksum : UInt16) (lft : Int32) (ifp : Interface) :
    (icmpRa e cksum lft ifp).length = 16 := by
  simp [icmpRa, stored_length, storedLong_length]

theorem wordSum_icmpRa (cksum : UInt16) : wordSum e (icmpRa e cksum lft ifp) =
    cksum.toNat + wordSum e (icmpRa e 0 lft ifp) := by
  have split (x : UInt16) : wordSum e (icmpRa e x lft ifp) =
      wordSum e [ICMP_ROUTER_ADVERTISEMENT, 0] + x.toNat + wordSum e ([1, 2] ++
        stored .big lft.toUInt32.toUInt16 ++ storedLong ifp.localaddr ++
          storedLong ifp.preference.toUInt32) := by
    rw [icmpRa, wordSum_append _ _ _ (by simp [stored_length]), wordSum_append _ _ _ (by simp),
      wordSum_stored]
  have zero : (0 : UInt16).toNat = 0 := rfl
  rw [split, split 0, zero]
  omega

theorem advertise_sum (e : Endian) (lft : Int32) (ifp : Interface) :
    ∃ cksum, advertise e lft ifp = some (icmpRa e cksum lft ifp) ∧
      ∀ e', rdiscInCksum e' (icmpRa e cksum lft ifp) = some 0 := by
  have length (cksum : UInt16) : (icmpRa e cksum lft ifp).length ≤ 65535 := by
    rw [icmpRa_length]
    decide
  have fits := wordSum_fits e (length 0)
  refine ⟨_, by rw [advertise, rdiscInCksum_eq e (length 0), Option.map_some], fun e' => ?_⟩
  rw [← (addWords_fold e (length 0)).2]
  generalize cksum_eq : ~~~ UInt16.ofNat (fold (wordSum e (icmpRa e 0 lft ifp))) = cksum
  have value : cksum.toNat = 65535 - fold (wordSum e (icmpRa e 0 lft ifp)) := by
    rw [← cksum_eq, toNat_complement (by omega)]
  have own : fold (wordSum e (icmpRa e cksum lft ifp)) = 65535 := by
    rw [wordSum_icmpRa, value, Nat.add_comm]
    exact fold_complement (by omega)
  have fits' := wordSum_fits e' (length cksum)
  have some_ : wordSum e' (icmpRa e cksum lft ifp) ≠ 0 := by
    rw [icmpRa, List.append_assoc, wordSum_append _ _ _ (by simp)]
    cases e' <;> simp [wordSum, word, ICMP_ROUTER_ADVERTISEMENT]
  have divides := ((fold_full (by have := wordSum_fits e (length cksum); omega)).mp own).2
  have all := (fold_full (by omega)).mpr ⟨some_, divisible_swap e' divides⟩
  rw [rdiscInCksum_eq e' (length cksum), ← (addWords_fold e' (length cksum)).2, all]
  rfl

theorem longAt_eq {buf : List UInt8} {i : ℕ} {x : UInt32}
    (high : shortAt buf i = some (UInt16.ofNat (x.toNat / 65536)))
    (low : shortAt buf (i + 2) = some (UInt16.ofNat (x.toNat % 65536))) :
    longAt buf i = some x := by
  rw [longAt, high, low]
  exact congrArg some (long_split x)

def heardLifetime (lft : Int32) : Int32 := Int32.ofNat lft.toUInt32.toUInt16.toNat

def calls (interfaces : List Interface) (lft : Int32) (ifp : Interface) : List Call :=
  if isDirectlyConnected interfaces ifp.localaddr then
    [.recordRouter ifp.localaddr ifp.preference (heardLifetime lft)]
  else []

theorem routerAdvertisement_heard (e' : Endian) (interfaces : List Interface) {cksum : UInt16}
    (right : rdiscInCksum e' (icmpRa e cksum lft ifp) = some 0) :
    routerAdvertisement e' interfaces (icmpRa e cksum lft ifp) =
      some (calls interfaces lft ifp) := by
  obtain ⟨x, y, two⟩ : ∃ x y, stored e cksum = [x, y] := by
    cases e
    · exact ⟨_, _, rfl⟩
    · exact ⟨_, _, rfl⟩
  have packet : icmpRa e cksum lft ifp = ICMP_ROUTER_ADVERTISEMENT :: 0 :: x :: y :: 1 :: 2 ::
      (stored .big lft.toUInt32.toUInt16 ++ storedLong ifp.localaddr ++
        storedLong ifp.preference.toUInt32) := by
    rw [icmpRa, two]
    rfl
  have length := icmpRa_length e cksum lft ifp
  have code : (icmpRa e cksum lft ifp)[1]? = some 0 := by rw [packet]; rfl
  have numAddrs : (icmpRa e cksum lft ifp)[4]? = some 1 := by rw [packet]; rfl
  have wpa : (icmpRa e cksum lft ifp)[5]? = some 2 := by rw [packet]; rfl
  have lifetime : shortAt (icmpRa e cksum lft ifp) 6 = some lft.toUInt32.toUInt16 := by
    rw [packet]
    exact congrArg some (load_high _)
  have router : longAt (icmpRa e cksum lft ifp) 8 = some ifp.localaddr := by
    rw [packet]
    exact longAt_eq (congrArg some (load_high _)) (congrArg some (load_high _))
  have preference : longAt (icmpRa e cksum lft ifp) 12 = some ifp.preference.toUInt32 := by
    rw [packet]
    exact longAt_eq (congrArg some (load_high _)) (congrArg some (load_high _))
  have one : addresses interfaces (icmpRa e cksum lft ifp) 2 (heardLifetime lft) 0 1 =
      some (calls interfaces lft ifp) := by
    simp only [addresses, Nat.zero_mul, Nat.add_zero, router, preference, Option.bind_eq_bind,
      Option.bind_some, calls]
    rfl
  rw [routerAdvertisement, right, code, numAddrs, wpa, lifetime]
  simp only [Option.bind_eq_bind, Option.bind_some]
  rw [if_neg (by rw [length]; decide)]
  exact one

theorem prPack_heard (e' : Endian) (interfaces : List Interface) (header : Header)
    {cksum : UInt16} (right : rdiscInCksum e' (icmpRa e cksum lft ifp) = some 0) :
    prPack e' interfaces (header.bytes ++ icmpRa e cksum lft ifp) =
      some (calls interfaces lft ifp) := by
  have start : (header.bytes ++ icmpRa e cksum lft ifp)[0]? = some header.first := by
    rw [List.getElem?_append_left, header.starts]
    exact (List.getElem?_eq_some_iff.mp header.starts).1
  have type : (icmpRa e cksum lft ifp)[0]? = some ICMP_ROUTER_ADVERTISEMENT := rfl
  rw [prPack, start]
  simp only [Option.bind_eq_bind, Option.bind_some]
  rw [if_neg (by rw [List.length_append, icmpRa_length, header.length]; omega), ← header.length,
    List.drop_left, type]
  exact routerAdvertisement_heard e' interfaces right

end packet

/-! ### The routes of a host -/

section host

variable {e : Endian} {interfaces : List Interface} {best : Bool} {s : Rdisc}

theorem hostStep_advertisement (header : Header) (order : Endian) (lft : Int32)
    (ifp : Interface) : hostStep e interfaces best s (.advertisement header order lft ifp) =
      run (step best) s (calls interfaces lft ifp) := by
  obtain ⟨cksum, sent, right⟩ := advertise_sum order lft ifp
  simp only [hostStep, sent, hear, prPack_heard e interfaces header (right e)]

/-- The preference that is entered: none for a router that is going down. -/
def enteredPreference (lft : Int32) (ifp : Interface) : Int32 :=
  if heardLifetime lft < 4 then INELIGIBLE_PREF else ifp.preference

theorem recordRouter_entries (h : Agrees s) (best : Bool) (router : UInt32)
    (preference ttl : Int32) :
    let entered := if ttl < 4 then INELIGIBLE_PREF else preference
    let t := recordRouter best s router preference ttl
    (∃ tp ∈ t.table, tp.router = router) ∧
      ∀ tp ∈ t.table, (tp.router = router ∧ tp.preference = entered) ∨ (tp.router ≠ router ∧
        ∃ old ∈ s.table, old.router = tp.router ∧ old.preference = tp.preference) := by
  unfold recordRouter
  dsimp only
  generalize (if ttl < 4 then INELIGIBLE_PREF else preference) = preference
  obtain ⟨tp, rfl, rfl, agrees, enlisted⟩ := h.enlisted router preference ttl
  generalize enlist s.table tp.router tp.preference ttl = result at agrees enlisted ⊢
  obtain ⟨table, up, down⟩ := result
  have marked := agrees.marked_passes best enlisted.mem up down
  constructor
  · rw [marked.table]
    exact ⟨_, List.mem_map_of_mem enlisted.mem, rfl⟩
  · intro e mem
    rw [marked.table] at mem
    obtain ⟨d, inside, rfl⟩ := List.mem_map.mp mem
    by_cases same : d.router = tp.router
    · have own : d = tp := agrees.eq_of_router inside enlisted.mem same
      exact .inl ⟨same, by rw [set_preference, own]⟩
    · exact .inr ⟨same, d, (enlisted.others d same).mp inside, rfl, rfl⟩

theorem ageTable_entries (h : Agrees s) (best : Bool) (time : Int32) :
    ∀ tp ∈ (ageTable best s time).table,
      ∃ old ∈ s.table, old.router = tp.router ∧ old.preference = tp.preference := by
  have left := (expire_eq best time (maxPreference s.table) s.table s.routes).1
  have agrees := h.expire best time (maxPreference s.table)
  have kept : ∀ tp ∈ (expire best time (maxPreference s.table) s.table s.routes).1.table,
      ∃ old ∈ s.table, old.router = tp.router ∧ old.preference = tp.preference := by
    intro tp mem
    rw [left] at mem
    obtain ⟨old, inside, rfl⟩ := List.mem_map.mp (List.mem_filter.mp mem).1
    exact ⟨old, inside, rfl, rfl⟩
  intro tp mem
  rw [ageTable] at mem
  dsimp only at mem
  split_ifs at mem
  · rw [agrees.marked_addMax.table] at mem
    obtain ⟨d, inside, rfl⟩ := List.mem_map.mp mem
    exact kept d inside
  · exact kept tp mem

/-- Every entry is that of a neighbour, with the preference of one of its advertisements. -/
def Advertised (interfaces : List Interface) (es : List Event) (s : Rdisc) : Prop :=
  ∀ tp ∈ s.table, ∃ header order lft ifp, .advertisement header order lft ifp ∈ es ∧
    ifp.localaddr = tp.router ∧ isDirectlyConnected interfaces tp.router ∧
    tp.preference = enteredPreference lft ifp

structure Sound (interfaces : List Interface) (best : Bool) (es : List Event) (s : Rdisc) :
    Prop where
  agrees : Agrees s
  preferred : Preferred best s.table
  advertised : Advertised interfaces es s

theorem sound_step {es : List Event} (h : Sound interfaces best es s) {event : Event}
    (mem : event ∈ es) : Sound interfaces best es (hostStep e interfaces best s event) := by
  cases event with
  | timer =>
    obtain ⟨agrees, preferred⟩ := h.agrees.ageTable h.preferred TIMER_INTERVAL
    refine ⟨agrees, preferred, fun tp inside => ?_⟩
    obtain ⟨old, before, router, preference⟩ :=
      ageTable_entries h.agrees best TIMER_INTERVAL tp inside
    rw [← router, ← preference]
    exact h.advertised old before
  | advertisement header order lft ifp =>
    rw [hostStep_advertisement, calls]
    by_cases neighbour : isDirectlyConnected interfaces ifp.localaddr = true
    · rw [if_pos neighbour]
      obtain ⟨agrees, preferred⟩ := h.agrees.recordRouter h.preferred ifp.localaddr
        ifp.preference (heardLifetime lft)
      refine ⟨agrees, preferred, fun tp inside => ?_⟩
      obtain ⟨router, preference⟩ | ⟨-, old, before, router, preference⟩ :=
        (recordRouter_entries h.agrees best ifp.localaddr ifp.preference (heardLifetime lft)).2
          tp inside
      · rw [router]
        exact ⟨header, order, lft, ifp, mem, rfl, neighbour, preference⟩
      · rw [← router, ← preference]
        exact h.advertised old before
    · rw [if_neg neighbour]
      exact h

theorem sound_run (e : Endian) (interfaces : List Interface) (best : Bool) (es : List Event) :
    Sound interfaces best es (run (hostStep e interfaces best) ⟨[], ∅⟩ es) := by
  have start : Sound interfaces best es ⟨[], ∅⟩ :=
    ⟨⟨List.nodup_nil, fun addr => by simp⟩, fun tp mem => absurd mem List.not_mem_nil,
      fun tp mem => absurd mem List.not_mem_nil⟩
  exact run_of_along (I := Sound interfaces best es) (C := fun _ event => event ∈ es)
    (fun _ _ h mem => sound_step h mem) start (along_of_forall (fun _ mem _ => mem) _)

theorem eligible_iff (lft : Int32) (ifp : Interface) : enteredPreference lft ifp ≠ INELIGIBLE_PREF ↔
    ¬ heardLifetime lft < 4 ∧ ifp.preference ≠ INELIGIBLE_PREF := by
  rw [enteredPreference]
  split_ifs with down
  · simp [down]
  · simp [down]

theorem mem_routes_iff (h : Agrees s) {tp : Entry} (mem : tp ∈ s.table) :
    tp.router ∈ s.routes ↔ tp.inKernel = true := by
  rw [h.routes]
  constructor
  · rintro ⟨other, inside, same, mark⟩
    rwa [← h.eq_of_router inside mem same]
  · exact fun mark => ⟨tp, mem, rfl, mark⟩

/-- The routes of a host are those to neighbours that have advertised themselves and are not going
down. Hearing a neighbour settles its own route at once. -/
theorem advertised_routes (e : Endian) (interfaces : List Interface) (best : Bool)
    (es : List Event) :
    let s := run (hostStep e interfaces best) ⟨[], ∅⟩ es
    (∀ addr ∈ s.routes, ∃ header order lft ifp, .advertisement header order lft ifp ∈ es ∧
      ifp.localaddr = addr ∧ isDirectlyConnected interfaces addr ∧ ¬ heardLifetime lft < 4 ∧
      ifp.preference ≠ INELIGIBLE_PREF) ∧
    ∀ header order lft ifp, isDirectlyConnected interfaces ifp.localaddr →
      let t := hostStep e interfaces best s (.advertisement header order lft ifp)
      ifp.localaddr ∈ t.routes ↔ ¬ heardLifetime lft < 4 ∧ ifp.preference ≠ INELIGIBLE_PREF ∧
        (best = true → ∀ other ∈ t.table, other.preference ≤ ifp.preference) := by
  intro s
  have sound := sound_run e interfaces best es
  constructor
  · intro addr mem
    obtain ⟨tp, inside, rfl, mark⟩ := (sound.agrees.routes addr).mp mem
    obtain ⟨header, order, lft, ifp, heard, router, neighbour, preference⟩ :=
      sound.advertised tp inside
    have eligible := ((sound.preferred tp inside).mp mark).1
    rw [preference, eligible_iff] at eligible
    exact ⟨header, order, lft, ifp, heard, router, neighbour, eligible⟩
  · intro header order lft ifp neighbour t
    have recorded : t = recordRouter best s ifp.localaddr ifp.preference (heardLifetime lft) := by
      refine (hostStep_advertisement header order lft ifp).trans ?_
      rw [calls, if_pos neighbour]
      rfl
    obtain ⟨agrees, preferred⟩ := sound.agrees.recordRouter sound.preferred ifp.localaddr
      ifp.preference (heardLifetime lft)
    obtain ⟨⟨tp, inside, router⟩, entries⟩ := recordRouter_entries sound.agrees best ifp.localaddr
      ifp.preference (heardLifetime lft)
    have preference : tp.preference = enteredPreference lft ifp :=
      ((entries tp inside).resolve_right fun other => other.1 router).2
    rw [← recorded] at agrees preferred inside
    rw [← router, mem_routes_iff agrees inside, preferred tp inside, preference, eligible_iff,
      and_assoc]
    refine and_congr_right fun alive => and_congr_right fun _ => imp_congr_right fun _ => ?_
    rw [← preference, eq_maxPreference inside, preference, enteredPreference, if_neg alive]

/-- A header without options, and a router that goes down behind another one. -/
example :
    let header : Header := ⟨0x45 :: List.replicate 19 0, 0x45, rfl, rfl⟩
    let interfaces : List Interface := [⟨0x0a000009, 0x0a000000, 0xff000000, 0⟩]
    let first : Interface := ⟨0x0a000001, 0x0a000000, 0xff000000, 5⟩
    let second : Interface := ⟨0x0a000002, 0x0a000000, 0xff000000, 7⟩
    let up : List Event := [.advertisement header .big 1800 first,
      .advertisement header .little 1800 second, .timer]
    (run (hostStep .little interfaces true) ⟨[], ∅⟩ up).routes = {second.localaddr} ∧
      (run (hostStep .little interfaces true) ⟨[], ∅⟩
        (up ++ [.advertisement header .little 0 second])).routes = {first.localaddr} := by
  decide +kernel

end host

end Baseliner.RdiscPackets
