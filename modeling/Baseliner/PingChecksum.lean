import Baseliner.ByteOrder
import Baseliner.OnesComplement

/-! The checksum of an echo request. `in_cksum` adds the packet as 16-bit words of the
machine's own order into an `int`; `ping4_send_probe` takes it over the packet with zeros for
the time stamp and then adds the stamp alone, seeded with the first result, unless `F_LATENCY`
is set. An addition that does not fit the accumulator gives no result. -/

namespace Baseliner.PingChecksum

open ByteOrder OnesComplement

def ODDBYTE (e : Endian) (v : UInt8) : ℕ :=
  match e with
  | .little => v.toNat
  | .big => 256 * v.toNat

/-- An addition of `int`s that are not negative. -/
def addInt (x y : ℕ) : Option ℕ := if x + y < 2 ^ 31 then some (x + y) else none

/-- The loop over the words, with the odd byte at its end. -/
def addWords (e : Endian) (sum : ℕ) : List UInt8 → Option ℕ
  | [] => some sum
  | [v] => addInt sum (ODDBYTE e v)
  | a :: b :: rest =>
      match addInt sum (word e a b) with
      | none => none
      | some sum => addWords e sum rest

def inCksum (e : Endian) (addr : List UInt8) (csum : UInt16) : Option UInt16 :=
  match addWords e csum.toNat addr with
  | none => none
  | some sum =>
      let sum := sum / 65536 + sum % 65536
      let sum := sum + sum / 65536
      some (~~~ UInt16.ofNat sum)

def ICMP_ECHO : UInt8 := 8

/-- `struct icmphdr`. The identifier is stored as it is, the sequence number with its high byte
first. -/
def icmphdr (e : Endian) (checksum ident sequence : UInt16) : List UInt8 :=
  [ICMP_ECHO, 0] ++ stored e checksum ++ stored e ident ++ stored .big sequence

def SIZEOF_TIMESPEC : ℕ := 16

/-- The memory of a clock reading. -/
structure Stamp where
  bytes : List UInt8
  length : bytes.length = SIZEOF_TIMESPEC

/-- The part of `outpack` behind the header, of a length that `ping4_run` lets through. -/
structure Payload where
  bytes : List UInt8
  datalen : bytes.length ≤ 0xFFFF - 8 - 20

/-- As `ping4_run` sets it. -/
def Payload.timing (data : Payload) : Bool := SIZEOF_TIMESPEC ≤ data.bytes.length

def Payload.stamped (data : Payload) (stamp : List UInt8) : List UInt8 :=
  if data.timing then stamp ++ data.bytes.drop SIZEOF_TIMESPEC else data.bytes

/-- The packet that `ping4_send_probe` hands to `sendto`. -/
def ping4SendProbe (e : Endian) (latency : Bool) (ident : UInt16) (ntransmitted : ℕ)
    (data : Payload) (stamp : Stamp) : Option (List UInt8) :=
  let sequence := UInt16.ofNat (ntransmitted + 1)
  let payload :=
    data.stamped (if latency then stamp.bytes else List.replicate SIZEOF_TIMESPEC 0)
  match inCksum e (icmphdr e 0 ident sequence ++ payload) 0 with
  | none => none
  | some checksum =>
      if data.timing && !latency then
        match inCksum e stamp.bytes (~~~ checksum) with
        | none => none
        | some checksum => some (icmphdr e checksum ident sequence ++ data.stamped stamp.bytes)
      else some (icmphdr e checksum ident sequence ++ payload)

/-! ### The sum -/

def wordSum (e : Endian) : List UInt8 → ℕ
  | [] => 0
  | [v] => ODDBYTE e v
  | a :: b :: rest => word e a b + wordSum e rest

theorem ODDBYTE_le (e : Endian) (v : UInt8) : ODDBYTE e v ≤ 65280 := by
  have hv := v.toNat_lt
  cases e <;> simp only [ODDBYTE] <;> omega

theorem addWords_eq (e : Endian) (addr : List UInt8) (sum : ℕ)
    (fits : sum + wordSum e addr < 2 ^ 31) : addWords e sum addr = some (sum + wordSum e addr) := by
  fun_induction addWords e sum addr with
  | case1 sum => rfl
  | case2 sum v => exact if_pos fits
  | case3 sum a b rest full =>
      rw [wordSum] at fits
      rw [addInt, if_pos (by omega)] at full
      cases full
  | case4 sum a b rest next added ih =>
      rw [wordSum] at fits ⊢
      rw [addInt, if_pos (by omega)] at added
      obtain rfl := Option.some.inj added
      rw [ih (by omega), Nat.add_assoc]

theorem wordSum_le (e : Endian) (addr : List UInt8) :
    wordSum e addr ≤ 65535 * (addr.length / 2) + 65280 * (addr.length % 2) := by
  fun_induction wordSum e addr with
  | case1 => simp
  | case2 v => simpa using ODDBYTE_le e v
  | case3 a b rest ih =>
      have first := word_le e a b
      rw [List.length_cons, List.length_cons]
      omega

theorem wordSum_append (e : Endian) (first rest : List UInt8) (even : first.length % 2 = 0) :
    wordSum e (first ++ rest) = wordSum e first + wordSum e rest := by
  fun_induction wordSum e first with
  | case1 => simp
  | case2 v => simp at even
  | case3 a b tail ih =>
      rw [List.length_cons, List.length_cons] at even
      rw [List.cons_append, List.cons_append, wordSum, ih (by omega), Nat.add_assoc]

theorem wordSum_zeros (e : Endian) : wordSum e (List.replicate SIZEOF_TIMESPEC 0) = 0 := by
  cases e <;> decide

theorem wordSum_stored (e : Endian) (x : UInt16) : wordSum e (stored e x) = x.toNat := by
  have small := x.toNat_lt
  cases e <;> simp [stored, wordSum, word] <;> omega

theorem wordSum_swap : ∀ buf : List UInt8,
    wordSum .big buf % 65535 = 256 * wordSum .little buf % 65535
  | [] => rfl
  | [v] => rfl
  | a :: b :: rest => by
    have later := wordSum_swap rest
    simp only [wordSum, word]
    omega

theorem divisible_swap {e : Endian} (e' : Endian) {buf : List UInt8}
    (zero : wordSum e buf % 65535 = 0) : wordSum e' buf % 65535 = 0 := by
  have swap := wordSum_swap buf
  cases e <;> cases e' <;> omega

theorem inCksum_eq (e : Endian) (addr : List UInt8) (csum : UInt16)
    (fits : csum.toNat + wordSum e addr < 2 ^ 31) :
    inCksum e addr csum = some (~~~ UInt16.ofNat (fold (csum.toNat + wordSum e addr))) := by
  rw [inCksum, addWords_eq e addr csum.toNat fits]
  simp only [fold]
  exact congrArg (fun answer => some (~~~ answer)) UInt16.ofNat_mod_size.symm

theorem toNat_ofNat_fold {x : ℕ} (small : x < 2 ^ 32) : (UInt16.ofNat (fold x)).toNat = fold x := by
  have le := fold_le small
  rw [UInt16.toNat_ofNat']
  omega

theorem toNat_complement {x : ℕ} (small : x < 2 ^ 32) :
    (~~~ UInt16.ofNat (fold x)).toNat = 65535 - fold x := by
  rw [UInt16.toNat_not, toNat_ofNat_fold small]
  rfl

/-! ### The packet -/

section Packet

variable {e : Endian} {ident sequence : UInt16} {data : Payload}

theorem icmphdr_length (e : Endian) (checksum ident sequence : UInt16) :
    (icmphdr e checksum ident sequence).length = 8 := by
  simp [icmphdr, stored_length]

theorem wordSum_icmphdr (e : Endian) (checksum ident sequence : UInt16) :
    wordSum e (icmphdr e checksum ident sequence) =
      checksum.toNat + wordSum e (icmphdr e 0 ident sequence) := by
  have split (x : UInt16) : wordSum e (icmphdr e x ident sequence) =
      wordSum e [ICMP_ECHO, 0] + x.toNat + wordSum e (stored e ident) +
        wordSum e (stored .big sequence) := by
    rw [icmphdr, wordSum_append _ _ _ (by simp [stored_length]),
      wordSum_append _ _ _ (by simp [stored_length]), wordSum_append _ _ _ (by simp),
      wordSum_stored e x]
  have zero : (0 : UInt16).toNat = 0 := rfl
  rw [split, split, zero]
  omega

theorem wordSum_packet (checksum : UInt16) (payload : List UInt8) :
    wordSum e (icmphdr e checksum ident sequence ++ payload) =
      checksum.toNat + wordSum e (icmphdr e 0 ident sequence ++ payload) := by
  have even (x : UInt16) : (icmphdr e x ident sequence).length % 2 = 0 := by
    rw [icmphdr_length]
  rw [wordSum_append _ _ _ (even checksum), wordSum_append _ _ _ (even 0), wordSum_icmphdr,
    Nat.add_assoc]

theorem Payload.stamped_length {stamp : List UInt8} (length : stamp.length = SIZEOF_TIMESPEC) :
    (data.stamped stamp).length = data.bytes.length := by
  rw [Payload.stamped]
  split_ifs with timing
  · have room : SIZEOF_TIMESPEC ≤ data.bytes.length := by simpa [Payload.timing] using timing
    rw [List.length_append, List.length_drop, length]
    omega
  · rfl

theorem wordSum_lt (e : Endian) (checksum ident sequence : UInt16) {payload : List UInt8}
    (length : payload.length = data.bytes.length) :
    wordSum e (icmphdr e checksum ident sequence ++ payload) < 2 ^ 31 := by
  have bound := wordSum_le e (icmphdr e checksum ident sequence ++ payload)
  have datalen := data.datalen
  rw [List.length_append, icmphdr_length, length] at bound
  omega

theorem inCksum_packet (e : Endian) (ident sequence : UInt16) {payload : List UInt8}
    (length : payload.length = data.bytes.length) :
    inCksum e (icmphdr e 0 ident sequence ++ payload) 0 =
      some (~~~ UInt16.ofNat (fold (wordSum e (icmphdr e 0 ident sequence ++ payload)))) := by
  have small : wordSum e (icmphdr e 0 ident sequence ++ payload) < 2 ^ 31 :=
    wordSum_lt e 0 ident sequence length
  have zero : (0 : UInt16).toNat = 0 := rfl
  have result := inCksum_eq e (icmphdr e 0 ident sequence ++ payload) 0 (by rw [zero]; omega)
  rw [zero, Nat.zero_add] at result
  exact result

/-- A packet with its checksum in place sums up to the other zero. -/
theorem inCksum_received {payload : List UInt8} {checksum : UInt16}
    (length : payload.length = data.bytes.length)
    (own : inCksum e (icmphdr e 0 ident sequence ++ payload) 0 = some checksum) :
    inCksum e (icmphdr e checksum ident sequence ++ payload) 0 = some 0 := by
  have small : wordSum e (icmphdr e 0 ident sequence ++ payload) < 2 ^ 31 :=
    wordSum_lt e 0 ident sequence length
  have fits := wordSum_lt e checksum ident sequence length
  rw [inCksum_packet e ident sequence length] at own
  obtain rfl := Option.some.inj own
  have zero : (0 : UInt16).toNat = 0 := rfl
  rw [inCksum_eq _ _ _ (by rw [zero, Nat.zero_add]; exact fits), zero, Nat.zero_add,
    wordSum_packet, toNat_complement (by omega), Nat.add_comm, fold_complement (by omega)]
  rfl

theorem inCksum_stamp (stamp : Stamp) (timing : data.timing = true) :
    inCksum e stamp.bytes (UInt16.ofNat (fold (wordSum e (icmphdr e 0 ident sequence ++
        data.stamped (List.replicate SIZEOF_TIMESPEC 0))))) =
      some (~~~ UInt16.ofNat
        (fold (wordSum e (icmphdr e 0 ident sequence ++ data.stamped stamp.bytes)))) := by
  have parts (area : List UInt8) (length : area.length = SIZEOF_TIMESPEC) :
      wordSum e (icmphdr e 0 ident sequence ++ data.stamped area) =
        wordSum e (icmphdr e 0 ident sequence) + wordSum e (data.bytes.drop SIZEOF_TIMESPEC) +
          wordSum e area := by
    rw [Payload.stamped, if_pos timing, wordSum_append _ _ _ (by rw [icmphdr_length]),
      wordSum_append _ _ _ (by rw [length]; rfl)]
    omega
  have small : wordSum e (icmphdr e 0 ident sequence ++ data.stamped stamp.bytes) < 2 ^ 31 :=
    wordSum_lt e 0 ident sequence (Payload.stamped_length stamp.length)
  rw [parts _ stamp.length] at small ⊢
  rw [parts _ (List.length_replicate ..), wordSum_zeros, Nat.add_zero]
  have le := fold_le (show wordSum e (icmphdr e 0 ident sequence) +
    wordSum e (data.bytes.drop SIZEOF_TIMESPEC) < 2 ^ 32 by omega)
  have area := wordSum_le e stamp.bytes
  rw [stamp.length] at area
  have seed := toNat_ofNat_fold (show wordSum e (icmphdr e 0 ident sequence) +
    wordSum e (data.bytes.drop SIZEOF_TIMESPEC) < 2 ^ 32 by omega)
  rw [inCksum_eq _ _ _ (by rw [seed]; simp only [SIZEOF_TIMESPEC] at area; omega), seed,
    fold_fold_add small]

end Packet

theorem ping4SendProbe_eq (e : Endian) (latency : Bool) (ident : UInt16) (ntransmitted : ℕ)
    (data : Payload) (stamp : Stamp) :
    ∃ checksum,
      inCksum e (icmphdr e 0 ident (UInt16.ofNat (ntransmitted + 1)) ++
          data.stamped stamp.bytes) 0 = some checksum ∧
        ping4SendProbe e latency ident ntransmitted data stamp =
          some (icmphdr e checksum ident (UInt16.ofNat (ntransmitted + 1)) ++
            data.stamped stamp.bytes) := by
  have length : (data.stamped stamp.bytes).length = data.bytes.length :=
    Payload.stamped_length stamp.length
  have onePass := inCksum_packet e ident (UInt16.ofNat (ntransmitted + 1)) length
  refine ⟨_, onePass, ?_⟩
  by_cases twoStep : data.timing = true ∧ latency = false
  · have cleared : (data.stamped (List.replicate SIZEOF_TIMESPEC 0)).length =
        data.bytes.length := Payload.stamped_length (List.length_replicate ..)
    have zeros := inCksum_packet e ident (UInt16.ofNat (ntransmitted + 1)) cleared
    simp only [ping4SendProbe, twoStep.1, twoStep.2, Bool.false_eq_true, if_false, zeros,
      Bool.not_false, Bool.and_true, if_true, UInt16.not_not, inCksum_stamp stamp twoStep.1]
  · have plain : data.stamped (if latency then stamp.bytes
        else List.replicate SIZEOF_TIMESPEC 0) = data.stamped stamp.bytes := by
      cases latency with
      | true => rfl
      | false =>
          have untimed : data.timing = false := by simpa using twoStep
          rw [Payload.stamped, Payload.stamped, untimed]
          rfl
    have step : (data.timing && !latency) = false := by
      simpa using twoStep
    simp only [ping4SendProbe, plain, onePass, step, Bool.false_eq_true, if_false]

/-- Every packet that is sent carries the checksum of one pass over it, the receiver's sum over
it is 0, and no addition overflows. -/
theorem probe_checksum (e : Endian) (latency : Bool) (ident : UInt16) (ntransmitted : ℕ)
    (data : Payload) (stamp : Stamp) :
    ∃ checksum,
      ping4SendProbe e latency ident ntransmitted data stamp =
          some (icmphdr e checksum ident (UInt16.ofNat (ntransmitted + 1)) ++
            data.stamped stamp.bytes) ∧
        inCksum e (icmphdr e 0 ident (UInt16.ofNat (ntransmitted + 1)) ++
          data.stamped stamp.bytes) 0 = some checksum ∧
        inCksum e (icmphdr e checksum ident (UInt16.ofNat (ntransmitted + 1)) ++
          data.stamped stamp.bytes) 0 = some 0 := by
  obtain ⟨checksum, onePass, sent⟩ := ping4SendProbe_eq e latency ident ntransmitted data stamp
  exact ⟨checksum, sent, onePass, inCksum_received (Payload.stamped_length stamp.length) onePass⟩

end Baseliner.PingChecksum
