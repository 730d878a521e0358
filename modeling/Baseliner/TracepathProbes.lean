import Mathlib.Logic.Function.Basic
import Baseliner.GuardedRuns

/-! The probes of `tracepath`. A probe carries its place in a ring of 64 records in its
destination port; `recverr` goes back from the port that an ICMP error quotes to the record. -/

namespace Baseliner.Tracepath

open GuardedRuns

structure Timeval where
  sec : Int
  usec : Int
deriving DecidableEq

structure Hhistory where
  hops : Int
  sendtime : Timeval
deriving DecidableEq

structure Ring where
  his : Nat → Hhistory
  hisptr : Nat

/-- An error as `recvmsg` delivers it: the destination port of the probe, and as much of
`rcvbuf` as came back of its payload. -/
structure Quoted where
  port : UInt16
  res : Nat
  ttl : UInt32
  tv : Timeval

/-- What `recverr` knows of the probe of an error. -/
structure Matched where
  sndhops : Int
  rettv : Option Timeval
  brokenRouter : Bool
  his : Nat → Hhistory

def SIZEOF_PROBEHDR : Nat := 24

def dstPort (basePort : UInt16) (slot : Nat) : UInt16 := basePort + UInt16.ofNat slot

def ringMatch (basePort : UInt16) (his : Nat → Hhistory) (port : UInt16) : Matched :=
  let slot : Int := -basePort.toNat + port.toNat
  if 0 ≤ slot ∧ slot < 63 ∧ (his slot.toNat).hops ≠ 0 then
    let record := his slot.toNat
    ⟨record.hops, some record.sendtime, false,
      Function.update his slot.toNat { record with hops := 0 }⟩
  else ⟨-1, none, false, his⟩

/-- `recverr` up to the control messages. -/
def recverr (basePort : UInt16) (his : Nat → Hhistory) (q : Quoted) : Matched :=
  let found := ringMatch basePort his q.port
  if q.res = SIZEOF_PROBEHDR then
    if q.ttl = 0 ∨ q.tv.sec = 0 then { found with brokenRouter := true }
    else { found with sndhops := q.ttl.toInt32.toInt, rettv := some q.tv }
  else found

def Ring.record (r : Ring) (ttl : Int) (tv : Timeval) : Ring :=
  { r with his := Function.update r.his r.hisptr ⟨ttl, tv⟩ }

def Ring.forget (r : Ring) : Ring :=
  { r with his := Function.update r.his r.hisptr { r.his r.hisptr with hops := 0 } }

def Ring.advance (r : Ring) : Ring := { r with hisptr := (r.hisptr + 1) &&& 63 }

/-- Where the program is: outside of `probe_ttl`, in turn `i` of its loop, in `recverr` after
a failed `sendto`, or in `recverr` behind the loop. -/
inductive Phase
  | idle
  | sending (i : Nat) (ttl : Int)
  | failed (i : Nat) (ttl : Int)
  | receiving
deriving DecidableEq

/-- A call of `probe_ttl`: how many records had been used up before it, what it sent, and
whether an error has quoted its port since. -/
structure Probe where
  number : Nat
  hops : Int
  sendtime : Timeval
  sent : Bool
  answered : Bool
deriving DecidableEq

def Probe.slot (p : Probe) : Nat := p.number % 64

/-- The program and the calls that it has made, the latest in front. -/
structure World where
  ring : Ring
  phase : Phase
  used : Nat
  probes : List Probe

/-- What happens next: `main` calls `probe_ttl`, a turn of the loop sends a probe or fails to,
an error is taken from the queue, `recverr` returns. -/
inductive Event
  | call (ttl : Int)
  | attempt (tv : Timeval) (ok : Bool)
  | error (q : Quoted)
  | back (res : Int)

def start : World := ⟨⟨fun _ => ⟨0, ⟨0, 0⟩⟩, 0⟩, .idle, 0, []⟩

def markSent (tv : Timeval) : List Probe → List Probe
  | [] => []
  | p :: rest => { p with sendtime := tv, sent := true, answered := false } :: rest

def Probe.mark (basePort port : UInt16) (p : Probe) : Probe :=
  { p with answered := p.answered || dstPort basePort p.slot == port }

def step (basePort : UInt16) (w : World) : Event → World
  | .call ttl =>
      match w.phase with
      | .idle => { w with
          phase := .sending 0 ttl
          probes := ⟨w.used, ttl, ⟨0, 0⟩, false, false⟩ :: w.probes }
      | _ => w
  | .attempt tv ok =>
      match w.phase with
      | .sending i ttl =>
          if ok then
            { ring := (w.ring.record ttl tv).advance
              phase := .receiving
              used := w.used + 1
              probes := markSent tv w.probes }
          else { w with ring := w.ring.record ttl tv, phase := .failed i ttl }
      | _ => w
  | .error q =>
      match w.phase with
      | .idle | .sending _ _ => w
      | _ => { w with
          ring := { w.ring with his := (recverr basePort w.ring.his q).his }
          probes := w.probes.map (Probe.mark basePort q.port) }
  | .back res =>
      match w.phase with
      | .failed i ttl =>
          if res = 0 then { w with ring := w.ring.forget, phase := .idle }
          else if 0 < res then { w with ring := w.ring.forget, phase := .sending 0 ttl }
          else if i + 1 < 10 then { w with ring := w.ring.forget, phase := .sending (i + 1) ttl }
          else { w with ring := w.ring.forget.advance, phase := .idle, used := w.used + 1 }
      | .receiving => { w with phase := .idle }
      | _ => w

/-- `main` counts the hops from 1. -/
def Valid : World → Event → Prop
  | _, .call ttl => 1 ≤ ttl
  | _, _ => True

def Finds (basePort : UInt16) (w : World) (q : Quoted) (p : Probe) : Prop :=
  ((recverr basePort w.ring.his q).his p.slot).hops = 0 ∧
    (recverr basePort w.ring.his q).sndhops = p.hops ∧
    (recverr basePort w.ring.his q).rettv = some p.sendtime

section Invariant

def Phase.inCall : Phase → Option Int
  | sending _ ttl => some ttl
  | failed _ ttl => some ttl
  | _ => none

structure Kept (w : World) : Prop where
  ptr : w.ring.hisptr = w.used % 64
  ages : ∀ k p, w.probes[k]? = some p → p.number ≤ w.used ∧
    w.used ≤ p.number + k + (if w.phase.inCall = none then 1 else 0) ∧
    (p.sent = true → p.number < w.used) ∧ 1 ≤ p.hops
  calling : ∀ ttl, w.phase.inCall = some ttl → ∃ p rest, w.probes = p :: rest ∧
    p.number = w.used ∧ p.hops = ttl
  kept : ∀ k p, w.probes[k]? = some p → k < 64 → p.sent = true → p.answered = false →
    w.ring.his p.slot = ⟨p.hops, p.sendtime⟩

variable {basePort : UInt16} {w : World} {ttl : Int}

/-- The record that a call works on belongs to none of the 63 calls before it. -/
theorem Kept.slot_ne (h : Kept w) (calling : w.phase.inCall = some ttl) {k : Nat} {p : Probe}
    (place : w.probes[k]? = some p) (recent : k < 64) (sent : p.sent = true) :
    p.slot ≠ w.ring.hisptr := by
  obtain ⟨-, young, used, -⟩ := h.ages k p place
  have before := used sent
  rw [calling, if_neg (Option.some_ne_none ttl)] at young
  rw [h.ptr, Probe.slot]
  omega

theorem Kept.update (h : Kept w) (calling : w.phase.inCall = some ttl) (record : Hhistory)
    {phase : Phase} (same : phase.inCall = some ttl) :
    Kept { w with
      ring := { w.ring with his := Function.update w.ring.his w.ring.hisptr record }
      phase := phase } where
  ptr := h.ptr
  ages := fun k p place => by
    have age := h.ages k p place
    rw [calling] at age
    rw [same]
    exact age
  calling := fun ttl' now => h.calling ttl' (by rw [calling, ← same, now])
  kept := fun k p place recent sent answered => by
    have apart := h.slot_ne calling place recent sent
    simp only [Function.update_of_ne apart]
    exact h.kept k p place recent sent answered

theorem Kept.leave (h : Kept w) {phase : Phase} (out : phase.inCall = none) :
    Kept { w with phase := phase } where
  ptr := h.ptr
  ages := fun k p place => by
    obtain ⟨old, young, rest⟩ := h.ages k p place
    refine ⟨old, ?_, rest⟩
    simp only [out, if_true]
    split_ifs at young <;> omega
  calling := fun ttl now => by
    rw [out] at now
    cases now
  kept := h.kept

theorem and_63 (n : Nat) : n &&& 63 = n % 64 := Nat.and_two_pow_sub_one_eq_mod n 6

theorem Kept.advance (h : Kept w) (calling : w.phase.inCall = some ttl) {phase : Phase}
    (out : phase.inCall = none) :
    Kept { w with ring := w.ring.advance, phase := phase, used := w.used + 1 } where
  ptr := by
    have ptr := h.ptr
    simp only [Ring.advance, and_63]
    omega
  ages := fun k p place => by
    obtain ⟨old, young, used, hops⟩ := h.ages k p place
    rw [calling, if_neg (Option.some_ne_none ttl)] at young
    simp only [out, if_true]
    exact ⟨by omega, by omega, fun sent => Nat.lt_succ_of_lt (used sent), hops⟩
  calling := fun ttl now => by
    rw [out] at now
    cases now
  kept := h.kept

theorem Kept.call (h : Kept w) (idle : w.phase = .idle) (positive : 1 ≤ ttl) :
    Kept { w with
      phase := .sending 0 ttl
      probes := ⟨w.used, ttl, ⟨0, 0⟩, false, false⟩ :: w.probes } where
  ptr := h.ptr
  ages := fun k p place => by
    cases k with
    | zero =>
        obtain rfl := Option.some.inj place
        exact ⟨Nat.le_refl _, Nat.le_add_right _ _, fun no => absurd no Bool.false_ne_true,
          positive⟩
    | succ k =>
        obtain ⟨old, young, rest⟩ := h.ages k p place
        rw [idle, if_pos (show Phase.idle.inCall = none from rfl)] at young
        exact ⟨old, Nat.le_trans young (Nat.le_add_right _ _), rest⟩
  calling := fun ttl' now => ⟨_, _, rfl, rfl, Option.some.inj now⟩
  kept := fun k p place recent sent answered => by
    cases k with
    | zero =>
        obtain rfl := Option.some.inj place
        cases sent
    | succ k => exact h.kept k p place (by omega) sent answered

theorem Kept.sent (h : Kept w) (calling : w.phase.inCall = some ttl) (tv : Timeval) :
    Kept { ring := (w.ring.record ttl tv).advance, phase := .receiving, used := w.used + 1,
           probes := markSent tv w.probes } := by
  obtain ⟨first, rest, probes, number, hops⟩ := h.calling ttl calling
  have slot : first.slot = w.ring.hisptr := by rw [h.ptr, ← number, Probe.slot]
  have ages := h.ages
  have kept := h.kept
  have apart := @slot_ne w ttl h calling
  rw [probes] at ages kept apart
  rw [calling] at ages
  rw [probes]
  refine ⟨?_, fun k p place => ?_, fun ttl now => (by cases now),
    fun k p place recent sent answered => ?_⟩
  · have ptr := h.ptr
    simp only [Ring.advance, Ring.record, and_63]
    omega
  · simp only [Phase.inCall, if_true]
    cases k with
    | zero =>
        obtain rfl := Option.some.inj place
        have age := ages 0 first rfl
        exact ⟨by simp only; omega, by simp only; omega, fun _ => by simp only; omega, age.2.2.2⟩
    | succ k =>
        obtain ⟨old, young, used, positive⟩ := ages (k + 1) p place
        rw [if_neg (Option.some_ne_none ttl)] at young
        exact ⟨by omega, by omega, fun sent => Nat.lt_succ_of_lt (used sent), positive⟩
  · simp only [Ring.advance, Ring.record]
    cases k with
    | zero =>
        obtain rfl := Option.some.inj place
        rw [show ({ first with sendtime := tv, sent := true, answered := false } : Probe).slot =
          w.ring.hisptr from slot, Function.update_self, hops]
    | succ k =>
        rw [Function.update_of_ne (apart place recent sent)]
        exact kept (k + 1) p place recent sent answered

theorem recverr_his (his : Nat → Hhistory) (q : Quoted) {slot : Nat}
    (other : dstPort basePort slot ≠ q.port) : (recverr basePort his q).his slot = his slot := by
  have same : (recverr basePort his q).his = (ringMatch basePort his q.port).his := by
    rw [recverr]
    split_ifs <;> rfl
  rw [same, ringMatch]
  simp only
  split_ifs with found
  · refine Function.update_of_ne (fun here => other ?_) _ _
    rw [dstPort, here, ← UInt16.toNat_inj, UInt16.toNat_add, UInt16.toNat_ofNat']
    have bound := q.port.toNat_lt
    have base := basePort.toNat_lt
    omega
  · rfl

theorem Kept.error (h : Kept w) (q : Quoted) :
    Kept { w with
      ring := { w.ring with his := (recverr basePort w.ring.his q).his }
      probes := w.probes.map (Probe.mark basePort q.port) } := by
  have was {k : Nat} {p : Probe}
      (place : (w.probes.map (Probe.mark basePort q.port))[k]? = some p) :
      ∃ p', w.probes[k]? = some p' ∧ p = p'.mark basePort q.port := by
    rw [List.getElem?_map, Option.map_eq_some_iff] at place
    obtain ⟨p', place, rfl⟩ := place
    exact ⟨p', place, rfl⟩
  refine ⟨h.ptr, fun k p place => ?_, fun ttl now => ?_,
    fun k p place recent sent answered => ?_⟩
  · obtain ⟨p', place', rfl⟩ := was place
    exact h.ages k p' place'
  · obtain ⟨p, rest, probes, number, hops⟩ := h.calling ttl now
    exact ⟨p.mark basePort q.port, rest.map (Probe.mark basePort q.port),
      by simp only [probes, List.map_cons], number, hops⟩
  · obtain ⟨p', place', rfl⟩ := was place
    obtain ⟨open_, other⟩ := Bool.or_eq_false_iff.mp answered
    exact (recverr_his w.ring.his q (beq_eq_false_iff_ne.mp other)).trans
      (h.kept k p' place' recent sent open_)

theorem Kept.step (h : Kept w) {e : Event} (valid : Valid w e) : Kept (step basePort w e) := by
  cases e with
  | call ttl =>
      rw [Tracepath.step]
      split
      · next idle => exact h.call idle valid
      · exact h
  | attempt tv ok =>
      rw [Tracepath.step]
      split
      · next i ttl phase =>
          have calling : w.phase.inCall = some ttl := by rw [phase]; rfl
          cases ok with
          | true => exact h.sent calling tv
          | false => exact h.update calling ⟨ttl, tv⟩ rfl
      · exact h
  | error q =>
      rw [Tracepath.step]
      split
      · exact h
      · exact h
      · exact h.error q
  | back res =>
      rw [Tracepath.step]
      split
      · next i ttl phase =>
          have calling : w.phase.inCall = some ttl := by rw [phase]; rfl
          have forgotten := h.update calling { w.ring.his w.ring.hisptr with hops := 0 } calling
          split_ifs
          · exact forgotten.leave rfl
          · exact h.update calling _ rfl
          · exact h.update calling _ rfl
          · exact forgotten.advance calling rfl
      · exact h.leave rfl
      · exact h

theorem kept_start : Kept start :=
  ⟨rfl, fun k p place => (by cases place), fun ttl now => (by cases now),
    fun k p place => (by cases place)⟩

end Invariant

section Matching

variable {basePort : UInt16}

theorem slot_of_port (slot : Nat) (inside : slot < 64) :
    (-basePort.toNat + (dstPort basePort slot).toNat : Int) =
      if basePort.toNat + slot < 65536 then (slot : Int) else slot - 65536 := by
  have base := basePort.toNat_lt
  rw [dstPort, UInt16.toNat_add, UInt16.toNat_ofNat']
  split_ifs <;> omega

theorem ringMatch_found {his : Nat → Hhistory} {slot : Nat} (low : slot < 63)
    (fits : basePort.toNat + slot < 65536) (there : (his slot).hops ≠ 0) :
    ringMatch basePort his (dstPort basePort slot) =
      ⟨(his slot).hops, some (his slot).sendtime, false,
        Function.update his slot { his slot with hops := 0 }⟩ := by
  rw [ringMatch, slot_of_port slot (by omega), if_pos fits]
  simp only [Int.toNat_natCast]
  rw [if_pos ⟨by omega, by omega, there⟩]

theorem ringMatch_missed {his : Nat → Hhistory} {slot : Nat} (inside : slot < 64)
    (missed : ¬ (slot ≠ 63 ∧ basePort.toNat + slot < 65536)) :
    ringMatch basePort his (dstPort basePort slot) = ⟨-1, none, false, his⟩ := by
  rw [ringMatch, slot_of_port slot inside]
  split_ifs with fits found
  · exact absurd found.2.1 (by omega)
  · rfl
  · next found => exact absurd found.1 (by omega)
  · rfl

/-- `recverr` finds the record of an unanswered probe of the last 64 calls, for any way that
the program has gone, exactly when the slot is not the last of the ring, the port has not
wrapped, and no payload comes back that is whole and other than it was sent. -/
theorem recverr_finds_iff (basePort : UInt16) {es : List Event}
    (valid : Along (step basePort) Valid start es) {p : Probe}
    (recent : p ∈ (run (step basePort) start es).probes.take 64) (sent : p.sent = true)
    (unanswered : p.answered = false) {q : Quoted} (quotes : q.port = dstPort basePort p.slot) :
    Finds basePort (run (step basePort) start es) q p ↔
      p.slot ≠ 63 ∧ basePort.toNat + p.slot < 65536 ∧
        (q.res = SIZEOF_PROBEHDR → q.ttl ≠ 0 → q.tv.sec ≠ 0 →
          q.ttl.toInt32.toInt = p.hops ∧ q.tv = p.sendtime) := by
  have inv : Kept (run (step basePort) start es) :=
    run_of_along (fun _ _ kept valid => kept.step valid) kept_start valid
  generalize run (step basePort) start es = w at recent inv
  obtain ⟨k, place⟩ := List.mem_iff_getElem?.mp recent
  have few : k < 64 := by
    by_contra far
    rw [List.getElem?_take_eq_none (by omega)] at place
    cases place
  rw [List.getElem?_take_of_lt few] at place
  have record := inv.kept k p place few sent unanswered
  have positive : p.hops ≠ 0 := by have age := (inv.ages k p place).2.2.2; omega
  have inside : p.slot < 64 := Nat.mod_lt _ (by decide)
  rw [Finds]
  by_cases right : p.slot ≠ 63 ∧ basePort.toNat + p.slot < 65536
  · have found := @ringMatch_found basePort w.ring.his p.slot (by omega) right.2
      (by rw [record]; exact positive)
    rw [record] at found
    rw [recverr, quotes, found]
    by_cases whole : q.res = SIZEOF_PROBEHDR
    · by_cases broken : q.ttl = 0 ∨ q.tv.sec = 0
      · simp only [if_pos whole, if_pos broken, Function.update_self]
        refine iff_of_true ⟨trivial, trivial, trivial⟩ ⟨right.1, right.2, fun _ ttl sec => ?_⟩
        exact absurd broken (not_or.mpr ⟨ttl, sec⟩)
      · simp only [if_pos whole, if_neg broken, Function.update_self]
        obtain ⟨ttl, sec⟩ := not_or.mp broken
        constructor
        · rintro ⟨-, hops, time⟩
          exact ⟨right.1, right.2, fun _ _ _ => ⟨hops, Option.some.inj time⟩⟩
        · rintro ⟨-, -, same⟩
          obtain ⟨hops, time⟩ := same whole ttl sec
          exact ⟨trivial, hops, by rw [time]⟩
    · simp only [if_neg whole, Function.update_self]
      exact iff_of_true ⟨trivial, trivial, trivial⟩ ⟨right.1, right.2, fun h => absurd h whole⟩
  · have his : (recverr basePort w.ring.his q).his p.slot = w.ring.his p.slot := by
      rw [recverr, quotes, ringMatch_missed inside right]
      split_ifs <;> rfl
    rw [his, record]
    exact iff_of_false (fun h => positive h.1) fun h => right ⟨h.1, h.2.1⟩

def silent (ttl : Int) : Nat → List Event
  | 0 => []
  | n + 1 => .call ttl :: .attempt ⟨100, 0⟩ true :: .back (-1) :: silent ttl n

theorem valid_silent (w : World) (n : Nat) : Along (step 44444) Valid w (silent 1 n) := by
  induction n generalizing w with
  | zero => trivial
  | succ n ih => exact ⟨Int.le_refl 1, trivial, trivial, ih _⟩

theorem run_silent {w : World} (idle : w.phase = .idle) (n : Nat) :
    ∃ rest, (run (step 44444) w (silent 1 (n + 1))).probes =
      ⟨w.used + n, 1, ⟨100, 0⟩, true, false⟩ :: rest := by
  induction n generalizing w with
  | zero =>
      obtain ⟨ring, phase, used, probes⟩ := w
      obtain rfl : phase = .idle := idle
      exact ⟨probes, rfl⟩
  | succ n ih =>
      obtain ⟨ring, phase, used, probes⟩ := w
      obtain rfl : phase = .idle := idle
      obtain ⟨rest, last⟩ := @ih ⟨((ring.record 1 ⟨100, 0⟩).advance), .idle, used + 1,
        ⟨used, 1, ⟨100, 0⟩, true, false⟩ :: probes⟩ rfl
      refine ⟨rest, Eq.trans last ?_⟩
      simp only
      rw [Nat.add_right_comm, Nat.add_assoc]

/-- The 65th probe is in slot 0 again. -/
theorem recverr_finds_wrapped : Finds 44444 (run (step 44444) start (silent 1 65))
    ⟨44444, SIZEOF_PROBEHDR, 1, ⟨100, 0⟩⟩ ⟨64, 1, ⟨100, 0⟩, true, false⟩ := by
  have recent : ⟨64, 1, ⟨100, 0⟩, true, false⟩ ∈
      (run (step 44444) start (silent 1 65)).probes.take 64 := by
    obtain ⟨rest, last⟩ := @run_silent start rfl 64
    rw [last]
    exact List.mem_cons_self ..
  exact (@recverr_finds_iff 44444 (silent 1 65) (valid_silent start 65)
    ⟨64, 1, ⟨100, 0⟩, true, false⟩ recent rfl rfl ⟨44444, SIZEOF_PROBEHDR, 1, ⟨100, 0⟩⟩ rfl).mpr
    ⟨by decide, by decide, fun _ _ _ => ⟨rfl, rfl⟩⟩

theorem recverr_misses_last : Along (step 44444) Valid start (silent 1 64) ∧
    ⟨63, 1, ⟨100, 0⟩, true, false⟩ ∈ (run (step 44444) start (silent 1 64)).probes.take 64 ∧
    dstPort 44444 63 = 44507 ∧
    ¬ Finds 44444 (run (step 44444) start (silent 1 64)) ⟨44507, 0, 0, ⟨0, 0⟩⟩
      ⟨63, 1, ⟨100, 0⟩, true, false⟩ := by
  refine ⟨valid_silent start 64, ?_, by decide, ?_⟩
  · obtain ⟨rest, last⟩ := @run_silent start rfl 63
    rw [last]
    exact List.mem_cons_self ..
  · rintro ⟨-, hops, -⟩
    have missed := @ringMatch_missed 44444 (run (step 44444) start (silent 1 64)).ring.his 63
      (by decide) (by decide)
    rw [recverr, if_neg (by decide), show (44507 : UInt16) = dstPort 44444 63 from by decide,
      missed] at hops
    exact absurd hops (by decide)

end Matching

end Baseliner.Tracepath
