import Mathlib.Data.List.GetD
import Baseliner.PingChecksum
import Baseliner.PingRoundTrip
import Baseliner.PingTruncated

/-! The probe as bytes, between the sender that computes its checksum and the sessions: what is
received is summed up alike, and the stamp that comes back is the one that was sent. -/

namespace Baseliner.PingWire

open ByteOrder OnesComplement PingReceive PingReceivedOnly PingRoundTrip PingStatistics
open PingChecksum (Payload Stamp SIZEOF_TIMESPEC icmphdr icmphdr_length wordSum wordSum_append)

/-! ### The checksum of a received packet -/

theorem wordSum_bytes (buf : ℕ → UInt8) : ∀ n i, wordSum .little (bytes buf i n) =
    ((List.range (n / 2)).map fun k =>
      (buf (i + 2 * k)).toNat + 256 * (buf (i + 2 * k + 1)).toNat).sum +
        if n % 2 = 1 then (buf (i + n - 1)).toNat else 0
  | 0, _ => rfl
  | 1, i => by simp [bytes, wordSum, PingChecksum.ODDBYTE]
  | n + 2, i => by
      have pair : wordSum .little (bytes buf i 2) = (buf i).toNat + 256 * (buf (i + 1)).toNat := rfl
      have half : (n + 2) / 2 = n / 2 + 1 := by omega
      have shift (k : ℕ) : i + 2 * (k + 1) = i + 2 + 2 * k := by omega
      have last : i + (n + 2) - 1 = i + 2 + n - 1 := by omega
      rw [Nat.add_comm n 2, bytes_add, wordSum_append _ _ _ (by rw [bytes_length]), pair,
        wordSum_bytes buf n (i + 2), Nat.add_comm 2 n, half, List.range_succ_eq_map, List.map_cons,
        List.sum_cons, List.map_map, Nat.add_mod_right, last]
      simp only [Function.comp_def, Nat.succ_eq_add_one, shift, Nat.mul_zero, Nat.add_zero]
      omega

theorem inCksum_bytes (buf : ℕ → UInt8) {len : ℕ} (fits : len ≤ 65535) :
    PingChecksum.inCksum .little (bytes buf 0 len) 0 = some (inCksum buf len 0) := by
  have small := PingChecksum.wordSum_le .little (bytes buf 0 len)
  have sum := wordSum_bytes buf len 0
  have zero : (0 : UInt16).toNat = 0 := rfl
  simp only [Nat.zero_add] at sum
  rw [bytes_length] at small
  rw [PingChecksum.inCksum_eq _ _ _ (by rw [zero]; omega), sum, inCksum]
  simp only [fold, zero, Nat.zero_add]
  exact congrArg (fun answer => some (~~~ answer)) UInt16.ofNat_mod_size

/-! ### The stamp -/

/-- The bytes of a `timespec` in a probe. -/
def memory (t : Timespec) : Stamp where
  bytes := lowBytes 8 (t.tvSec % 2 ^ 64).toNat ++ lowBytes 8 (t.tvNsec % 2 ^ 64).toNat
  length := by rw [List.length_append, lowBytes_length, lowBytes_length, SIZEOF_TIMESPEC]

/-- As `gather_statistics` reads it. -/
def stampAt (buf : ℕ → UInt8) (i : ℕ) : Timespec := ⟨le64 buf i, le64 buf (i + 8)⟩

def memoryOf (l : List UInt8) (i : ℕ) : UInt8 := l.getD i 0

theorem stamp_replyAt (st : State) (d : Datagram) (seq : UInt16) (hops : ℤ) (csfailed : Bool) :
    (replyAt st d seq hops csfailed).stamp = stampAt d.buf 8 := rfl

theorem bytes_memoryOf {l front middle back : List UInt8} {i n : ℕ}
    (parts : l = front ++ (middle ++ back)) (start : front.length = i) (size : middle.length = n) :
    bytes (memoryOf l) i n = middle := by
  subst parts start size
  refine List.ext_getElem (bytes_length _ _ _) fun k _ inside => ?_
  simp only [bytes, List.getElem_map, List.getElem_range, memoryOf]
  rw [List.getD_append_right _ _ _ _ (Nat.le_add_right _ _), Nat.add_sub_cancel_left,
    List.getD_append _ _ _ _ inside, List.getD_eq_getElem _ _ inside]

theorem le64_of_bytes {buf : ℕ → UInt8} {i : ℕ} {v : ℤ} (low : -2 ^ 63 ≤ v) (high : v < 2 ^ 63)
    (stored : bytes buf i 8 = lowBytes 8 (v % 2 ^ 64).toNat) : le64 buf i = v := by
  have nonneg := Int.emod_nonneg v (show (2 : ℤ) ^ 64 ≠ 0 by decide)
  have below := Int.emod_lt_of_pos v (show (0 : ℤ) < 2 ^ 64 by decide)
  rw [le64, stored, lowValue_lowBytes 8 (by omega), Int.toNat_of_nonneg nonneg, wrap]
  exact (Int.emod_bmod v (2 ^ 64)).trans (wrap_eq_self (w := 64) (by omega) (by omega))

theorem stampAt_memory {t : Timespec} {l front back : List UInt8} {i : ℕ}
    (sec : -2 ^ 63 ≤ t.tvSec ∧ t.tvSec < 2 ^ 63) (nsec : -2 ^ 63 ≤ t.tvNsec ∧ t.tvNsec < 2 ^ 63)
    (parts : l = front ++ ((memory t).bytes ++ back)) (start : front.length = i) :
    stampAt (memoryOf l) i = t := by
  have first : bytes (memoryOf l) i 8 = lowBytes 8 (t.tvSec % 2 ^ 64).toNat := by
    have split : l = front ++ (lowBytes 8 (t.tvSec % 2 ^ 64).toNat ++
        (lowBytes 8 (t.tvNsec % 2 ^ 64).toNat ++ back)) := by
      rw [parts, memory, List.append_assoc]
    exact bytes_memoryOf split start (lowBytes_length 8 _)
  have second : bytes (memoryOf l) (i + 8) 8 = lowBytes 8 (t.tvNsec % 2 ^ 64).toNat := by
    have split : l = (front ++ lowBytes 8 (t.tvSec % 2 ^ 64).toNat) ++
        (lowBytes 8 (t.tvNsec % 2 ^ 64).toNat ++ back) := by
      rw [parts, memory, List.append_assoc, List.append_assoc]
    refine bytes_memoryOf split ?_ (lowBytes_length 8 _)
    rw [List.length_append, lowBytes_length, start]
  rw [stampAt, le64_of_bytes sec.1 sec.2 first, le64_of_bytes nsec.1 nsec.2 second]

theorem stampAt_append {front rest : List UInt8} {i : ℕ} (start : front.length = i) :
    stampAt (memoryOf (front ++ rest)) i = stampAt (memoryOf rest) 0 := by
  have same (j : ℕ) : bytes (memoryOf (front ++ rest)) (i + j) 8 =
      bytes (memoryOf rest) (0 + j) 8 := by
    refine List.map_congr_left fun k _ => ?_
    rw [memoryOf, memoryOf, List.getD_append_right _ _ _ _ (by omega)]
    congr 1
    omega
  have sec := same 0
  have nsec := same 8
  rw [stampAt, stampAt, le64, le64, le64, le64, ← Nat.add_zero i, sec, Nat.add_zero, nsec]

/-- The packet of a probe holds the stamp that is read from it when it comes back. -/
theorem ping4SendProbe_stamp (latency : Bool) (ident : UInt16) (ntransmitted : ℕ) (data : Payload)
    (clock : Instant) :
    ∃ packet,
      PingChecksum.ping4SendProbe .little latency ident ntransmitted data
          (memory (clockGettime clock)) = some packet ∧
        ∀ (st : State) (d : Datagram) (seq : UInt16) (hops : ℤ) (csfailed : Bool),
          d.buf = memoryOf packet → (replyAt st d seq hops csfailed).stamp =
            PingRoundTrip.ping4SendProbe data.timing latency (stampAt (memoryOf data.bytes) 0)
              clock := by
  obtain ⟨checksum, -, sent⟩ := PingChecksum.ping4SendProbe_eq .little latency ident ntransmitted
    data (memory (clockGettime clock))
  refine ⟨_, sent, fun st d seq hops csfailed arrived => ?_⟩
  rw [stamp_replyAt, arrived]
  have header := icmphdr_length .little checksum ident (UInt16.ofNat (ntransmitted + 1))
  by_cases timed : data.timing = true
  · have stamp : PingRoundTrip.ping4SendProbe true latency (stampAt (memoryOf data.bytes) 0) clock =
        clockGettime clock := by
      cases latency with
      | true => rfl
      | false => rfl
    have bound := clock.representable
    have below : clock.ns % 1000000000 < 1000000000 := Nat.mod_lt _ (by decide)
    rw [timed, stamp, Payload.stamped, if_pos timed]
    refine stampAt_memory ?_ ?_ rfl header
    · simp only [clockGettime]
      omega
    · simp only [clockGettime, subsecond]
      omega
  · have outpack : PingRoundTrip.ping4SendProbe false latency (stampAt (memoryOf data.bytes) 0)
        clock = stampAt (memoryOf data.bytes) 0 := by
      cases latency with
      | true => rfl
      | false => rfl
    rw [Bool.eq_false_iff.mpr timed, outpack, Payload.stamped, if_neg timed]
    exact stampAt_append header

end Baseliner.PingWire
