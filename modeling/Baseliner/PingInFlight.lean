import Baseliner.GuardedRuns
import Baseliner.PingSession

/-! The in-flight count over runs of `advance_ntransmitted` and `acknowledge`.
Beside the accounting state the run keeps the number of the newest probe
acknowledged so far. The 16-bit counter follows it, except that a silence of
32768 sends replaces it by a marker when the low half of that number is below
32768, and that the marker itself is overtaken by the next send. -/

namespace Baseliner.PingInFlight

open GuardedRuns PingStatistics PingSession

structure Tracked where
  st : State
  newest : Nat

inductive Call
  | advance
  | ack (probe : Nat)
  deriving DecidableEq

def step (t : Tracked) : Call → Tracked
  | .advance => { t with st := advanceNtransmitted t.st }
  | .ack probe =>
      { st := acknowledge t.st (UInt16.ofNat probe), newest := max t.newest probe }

/-- The probe acknowledged was transmitted fewer than 32768 sends ago. -/
def Valid (t : Tracked) : Call → Prop
  | .advance => True
  | .ack probe =>
      1 ≤ probe ∧ probe ≤ t.st.ntransmitted ∧ t.st.ntransmitted - probe < 32768

def Tracked.behind (t : Tracked) : Nat := t.st.ntransmitted - t.newest

def Tracked.unanswered (t : Tracked) (nreceived nerrors : Nat) : Int :=
  (t.st.ntransmitted : Int) - nreceived - nerrors

/-- The value `in_flight` is meant to have, for all counts of replies and errors
whose rest fits the `int` it returns. -/
def InFlightIs (t : Tracked) : Prop :=
  ∀ nreceived nerrors : Nat,
    -(2 ^ 31) ≤ t.unanswered nreceived nerrors → t.unanswered nreceived nerrors < 2 ^ 31 →
      inFlight { t.st with nreceived := nreceived } nerrors =
          (if t.behind ≤ 0x7FFF then (t.behind : Int) else t.unanswered nreceived nerrors) ∧
        (inFlight { t.st with nreceived := nreceived } nerrors = 0 →
          t.newest = t.st.ntransmitted ∨ t.unanswered nreceived nerrors = 0)

/-- No step of a run after a silence that the marker cannot stand for. -/
def Sound (t : Tracked) : Call → Prop
  | .advance => t.behind < 32768 ∨ 32768 ≤ t.newest % 65536 ∧ t.behind < 65535
  | .ack probe =>
      t.behind < 32768 ∨ 32768 ≤ t.newest % 65536 ∧ probe - t.newest < 32768 ∨
        t.newest % 65536 = 32767

/-! ### The 16-bit comparisons -/

theorem toNat_ofNat_sub (n : Nat) (a : UInt16) :
    (UInt16.ofNat n - a).toNat = (n % 65536 + 65536 - a.toNat) % 65536 := by
  have bound := a.toNat_lt
  rw [UInt16.toNat_sub, UInt16.toNat_ofNat']
  omega

theorem toInt16_pos (x : UInt16) : 0 < x.toInt16 ↔ 0 < x.toNat ∧ x.toNat < 32768 := by
  have bound := x.toNat_lt
  have value : x.toInt16.toInt =
      if 2 * x.toNat < 2 ^ 16 then (x.toNat : Int) else x.toNat - 2 ^ 16 :=
    BitVec.toInt_eq_toNat_cond x.toBitVec
  rw [Int16.lt_iff_toInt_lt, value, Int16.toInt_zero]
  split
  · omega
  · omega

theorem inFlight_eq (st : State) (nerrors : Nat) :
    inFlight st nerrors =
      if (st.ntransmitted % 65536 + 65536 - st.acked.toNat) % 65536 ≤ 32767 then
        (((st.ntransmitted % 65536 + 65536 - st.acked.toNat) % 65536 : Nat) : Int)
      else wrap 32 ((st.ntransmitted : Int) - st.nreceived - nerrors) := by
  simp only [inFlight, UInt16.le_iff_toNat_le, toNat_ofNat_sub]
  rfl

theorem advanceNtransmitted_acked (st : State) :
    (advanceNtransmitted st).acked.toNat =
      if (st.ntransmitted + 1) % 65536 > st.acked.toNat + 32767 then (st.ntransmitted + 2) % 65536
      else st.acked.toNat := by
  have low : (UInt16.ofNat (st.ntransmitted + 1)).toNat = (st.ntransmitted + 1) % 65536 :=
    UInt16.toNat_ofNat'
  simp only [advanceNtransmitted, low]
  by_cases far : (st.ntransmitted + 1) % 65536 > st.acked.toNat + 32767
  · rw [if_pos far, if_pos (by omega), UInt16.toNat_add, low, UInt16.toNat_one]
    omega
  · rw [if_neg far, if_neg (by omega)]

theorem acknowledge_acked {st : State} {probe : Nat} (sent : probe ≤ st.ntransmitted)
    (near : st.ntransmitted - probe < 32768) :
    (acknowledge st (UInt16.ofNat probe)).acked.toNat =
      if 0 < (probe % 65536 + 65536 - st.acked.toNat) % 65536 ∧
          (probe % 65536 + 65536 - st.acked.toNat) % 65536 < 32768 ∨
          st.ntransmitted % 65536 > st.acked.toNat + 32767 then probe % 65536
      else st.acked.toNat := by
  have low (n : Nat) : (UInt16.ofNat n).toNat = n % 65536 := UInt16.toNat_ofNat'
  have reach : UInt16.ofNat st.ntransmitted - UInt16.ofNat probe ≤ 0x7FFF := by
    rw [UInt16.le_iff_toNat_le, toNat_ofNat_sub, low]
    change _ ≤ 32767
    omega
  simp only [acknowledge, reach, if_true, toInt16_pos, toNat_ofNat_sub, low]
  split
  · rw [if_pos (by omega), low]
  · rw [if_neg (by omega)]

@[simp] theorem acknowledge_ntransmitted (st : State) (seq : UInt16) :
    (acknowledge st seq).ntransmitted = st.ntransmitted := by
  unfold acknowledge
  dsimp only
  split
  · rfl
  · rfl

@[simp] theorem advanceNtransmitted_ntransmitted (st : State) :
    (advanceNtransmitted st).ntransmitted = st.ntransmitted + 1 := rfl

/-! ### The invariant -/

/-- `acked` follows the newest probe, or is the marker set one send ago. -/
structure Follows (t : Tracked) : Prop where
  sent : t.newest ≤ t.st.ntransmitted
  acked :
    t.behind ≤ 32767 ∧ t.st.acked.toNat = t.newest % 65536 ∨
      32768 ≤ t.behind ∧ t.behind ≤ 65535 ∧ 32768 ≤ t.newest % 65536 ∧
        t.st.acked.toNat = t.newest % 65536 ∨
      t.behind = 32768 ∧ t.newest % 65536 < 32768 ∧
        t.st.acked.toNat = (t.st.ntransmitted + 1) % 65536

theorem Follows.inFlightIs {t : Tracked} (h : Follows t) : InFlightIs t := by
  intro nreceived nerrors low high
  have sent := h.sent
  have fits : wrap 32 ((t.st.ntransmitted : Int) - nreceived - nerrors) =
      t.unanswered nreceived nerrors := by
    rw [wrap_eq_self (by unfold Tracked.unanswered at low; omega)
      (by unfold Tracked.unanswered at high; omega)]
    rfl
  have value : inFlight { t.st with nreceived := nreceived } nerrors =
      if t.behind ≤ 0x7FFF then (t.behind : Int) else t.unanswered nreceived nerrors := by
    rw [inFlight_eq]
    dsimp only
    rw [fits]
    have acked := h.acked
    unfold Tracked.behind at acked ⊢
    split
    · rw [if_pos (by omega)]
      omega
    · rw [if_neg (by omega)]
  refine ⟨value, fun zero => ?_⟩
  rw [value] at zero
  split at zero
  · left
    unfold Tracked.behind at zero
    omega
  · right
    exact zero

theorem follows_advance {t : Tracked} (h : Follows t) (sound : Sound t .advance) :
    Follows (step t .advance) := by
  obtain ⟨sent, acked⟩ := h
  have next := advanceNtransmitted_acked t.st
  simp only [Sound, Tracked.behind] at sound acked
  refine ⟨by simp only [step, advanceNtransmitted_ntransmitted]; omega, ?_⟩
  simp only [step, Tracked.behind, advanceNtransmitted_ntransmitted, next]
  rcases acked with ⟨near, value⟩ | ⟨far, most, high, value⟩ | ⟨marker, low, value⟩
  · rw [value]
    by_cases reach : t.st.ntransmitted + 1 - t.newest ≤ 32767
    · left
      rw [if_neg (by omega)]
      exact ⟨reach, rfl⟩
    · right
      -- the probe is 32768 sends old now: its number is kept if the next ones wrap around
      by_cases high : 32768 ≤ t.newest % 65536
      · left
        rw [if_neg (by omega)]
        exact ⟨by omega, by omega, high, rfl⟩
      · right
        rw [if_pos (by omega)]
        exact ⟨by omega, by omega, rfl⟩
  · right
    left
    rw [value, if_neg (by omega)]
    exact ⟨by omega, by omega, high, rfl⟩
  · -- no step is sound behind the marker
    omega

theorem follows_ack_near {t : Tracked} {probe : Nat} (sent : t.newest ≤ t.st.ntransmitted)
    (valid : Valid t (.ack probe)) (behind : t.st.ntransmitted - t.newest < 65536)
    (reach : probe - t.newest < 32768)
    (low : 32768 ≤ t.st.ntransmitted - t.newest → 32768 ≤ t.newest % 65536)
    (acked : t.st.acked.toNat = t.newest % 65536) : Follows (step t (.ack probe)) := by
  obtain ⟨positive, old, near⟩ := valid
  have next := acknowledge_acked old near
  rw [acked] at next
  rcases Nat.lt_or_ge t.newest probe with newer | older
  · have gap : (probe % 65536 + 65536 - t.newest % 65536) % 65536 = probe - t.newest := by omega
    rw [gap, if_pos (Or.inl ⟨by omega, reach⟩)] at next
    refine ⟨?_, Or.inl ⟨?_, ?_⟩⟩
    · simp only [step, acknowledge_ntransmitted]
      omega
    · simp only [step, Tracked.behind, acknowledge_ntransmitted]
      omega
    · simp only [step, next, Nat.max_eq_right (Nat.le_of_lt newer)]
  · have few : t.st.ntransmitted - t.newest ≤ 32767 := by omega
    have gap : ¬ (0 < (probe % 65536 + 65536 - t.newest % 65536) % 65536 ∧
        (probe % 65536 + 65536 - t.newest % 65536) % 65536 < 32768) := by
      omega
    rw [if_neg (by omega)] at next
    refine ⟨?_, Or.inl ⟨?_, ?_⟩⟩
    · simp only [step, acknowledge_ntransmitted]
      omega
    · simp only [step, Tracked.behind, acknowledge_ntransmitted]
      omega
    · simp only [step, next, Nat.max_eq_left older]

/-- The marker gives way to a probe only when it is 0. -/
theorem follows_ack_marker {t : Tracked} {probe : Nat} (sent : t.newest ≤ t.st.ntransmitted)
    (valid : Valid t (.ack probe)) (behind : t.st.ntransmitted - t.newest = 32768)
    (low : t.newest % 65536 = 32767)
    (acked : t.st.acked.toNat = (t.st.ntransmitted + 1) % 65536) :
    Follows (step t (.ack probe)) := by
  obtain ⟨positive, old, near⟩ := valid
  have next := acknowledge_acked old near
  have zero : (t.st.ntransmitted + 1) % 65536 = 0 := by omega
  rw [acked, zero, if_pos (by omega)] at next
  refine ⟨?_, Or.inl ⟨?_, ?_⟩⟩
  · simp only [step, acknowledge_ntransmitted]
    omega
  · simp only [step, Tracked.behind, acknowledge_ntransmitted]
    omega
  · simp only [step, next, Nat.max_eq_right (show t.newest ≤ probe by omega)]

theorem follows_ack {t : Tracked} {probe : Nat} (h : Follows t) (valid : Valid t (.ack probe))
    (sound : Sound t (.ack probe)) : Follows (step t (.ack probe)) := by
  obtain ⟨sent, acked⟩ := h
  have old : probe ≤ t.st.ntransmitted := valid.2.1
  simp only [Sound, Tracked.behind] at sound acked
  rcases acked with ⟨few, acked⟩ | ⟨many, few, low, acked⟩ | ⟨many, low, acked⟩
  · exact follows_ack_near sent valid (by omega) (by omega) (by omega) acked
  · exact follows_ack_near sent valid (by omega) (by omega) (fun _ => low) acked
  · exact follows_ack_marker sent valid many (by omega) acked

theorem follows_step (t : Tracked) (call : Call) (h : Follows t) (valid : Valid t call)
    (sound : Sound t call) : Follows (step t call) := by
  cases call with
  | advance => exact follows_advance h sound
  | ack probe => exact follows_ack h valid sound

/-! ### What an unsound step breaks -/

theorem not_inFlightIs {t : Tracked} (rest : Nat) (few : rest ≤ t.st.ntransmitted)
    (fits : rest < 2 ^ 31)
    (wrong : ∀ nerrors, nerrors = 0 →
      inFlight { t.st with nreceived := t.st.ntransmitted - rest } nerrors ≠
        if t.behind ≤ 0x7FFF then (t.behind : Int) else rest) : ¬ InFlightIs t := by
  intro is
  have unanswered : t.unanswered (t.st.ntransmitted - rest) 0 = rest := by
    unfold Tracked.unanswered
    omega
  have value := (is (t.st.ntransmitted - rest) 0 (by omega) (by omega)).1
  rw [unanswered] at value
  exact wrong 0 rfl value

theorem sound_of_advance {t : Tracked} (h : Follows t) (is : InFlightIs (step t .advance)) :
    Sound t .advance := by
  by_contra unsound
  obtain ⟨sent, acked⟩ := h
  simp only [Sound, Tracked.behind] at unsound acked
  have next := advanceNtransmitted_acked t.st
  -- the counter is the low half of `ntransmitted` after the send: nothing seems to be in flight
  have met : (advanceNtransmitted t.st).acked.toNat = (t.st.ntransmitted + 1) % 65536 := by
    split at next
    · omega
    · omega
  refine not_inFlightIs 1 (by simp [step]) (by decide) (fun nerrors _ => ?_) is
  have far : ¬ (step t .advance).behind ≤ 0x7FFF := by
    simp only [step, Tracked.behind, advanceNtransmitted_ntransmitted]
    omega
  rw [if_neg far, inFlight_eq,
    if_pos (by simp only [step, advanceNtransmitted_ntransmitted, met]; omega)]
  simp only [step, advanceNtransmitted_ntransmitted, met]
  omega

theorem sound_of_ack {t : Tracked} {probe : Nat} (h : Follows t) (valid : Valid t (.ack probe))
    (is : InFlightIs (step t (.ack probe))) : Sound t (.ack probe) := by
  by_contra unsound
  obtain ⟨sent, acked⟩ := h
  obtain ⟨positive, old, near⟩ := valid
  simp only [Sound, Tracked.behind] at unsound acked
  have next := acknowledge_acked old near
  -- the newer probe is not taken, and the counter stays too far behind
  have kept : (acknowledge t.st (UInt16.ofNat probe)).acked.toNat = t.st.acked.toNat := by
    rw [next, if_neg]
    omega
  have newer : t.newest ≤ probe := by omega
  refine not_inFlightIs 32768 (by simp only [step, acknowledge_ntransmitted]; omega)
    (by decide) (fun nerrors zero => ?_) is
  rw [inFlight_eq, if_neg (by simp only [step, acknowledge_ntransmitted, kept]; omega), zero]
  simp only [step, Tracked.behind, acknowledge_ntransmitted, Nat.max_eq_right newer]
  rw [if_pos (by omega), wrap_eq_self (by omega) (by omega)]
  omega

theorem sound_of_step (t : Tracked) (call : Call) (h : Follows t) (valid : Valid t call)
    (is : InFlightIs (step t call)) : Sound t call := by
  cases call with
  | advance => exact sound_of_advance h is
  | ack probe => exact sound_of_ack h valid is

def Fresh (st : State) : Prop := st.ntransmitted = 0 ∧ st.acked = 0

theorem Fresh.follows {st : State} (h : Fresh st) : Follows ⟨st, 0⟩ := by
  refine ⟨Nat.zero_le _, Or.inl ⟨?_, ?_⟩⟩
  · simp [Tracked.behind, h.1]
  · simp [h.2]

/-- The count is right all along a run exactly when every step of it is sound. -/
theorem in_flight_iff_sound {st : State} (fresh : Fresh st) (calls : List Call)
    (valid : Along step Valid ⟨st, 0⟩ calls) :
    (∀ pre, pre <+: calls → InFlightIs (run step ⟨st, 0⟩ pre)) ↔
      Along step Sound ⟨st, 0⟩ calls :=
  reached_iff_along (fun _ h => h.inFlightIs) follows_step sound_of_step fresh.follows valid

theorem in_flight_iff_sound_initial :
    (∀ pre, pre <+: [.advance, .ack 1, .advance] →
        InFlightIs (run step ⟨initialState, 0⟩ pre)) ↔
      Along step Sound ⟨initialState, 0⟩ [.advance, .ack 1, .advance] :=
  in_flight_iff_sound ⟨rfl, rfl⟩ _ ⟨trivial, ⟨by decide, by decide, by decide⟩, trivial, trivial⟩

theorem run_advances {n : Nat} (few : n ≤ 32767) :
    run step ⟨initialState, 0⟩ (List.replicate n .advance) =
      ⟨{ initialState with ntransmitted := n }, 0⟩ := by
  induction n with
  | zero => rfl
  | succ n ih =>
      have low : (UInt16.ofNat (n + 1)).toNat = (n + 1) % 65536 := UInt16.toNat_ofNat'
      rw [List.replicate_succ', run_append, ih (by omega), run_cons, run_nil]
      simp only [step, advanceNtransmitted, low]
      rw [if_neg (by simp only [initialState, UInt16.toNat_zero]; omega)]

theorem along_advances (n : Nat) (t : Tracked) :
    Along step Valid t (List.replicate n .advance) := by
  induction n generalizing t with
  | zero => trivial
  | succ n ih => exact ⟨trivial, ih _⟩

/-- After 32769 probes without an answer nothing seems to be in flight. -/
theorem in_flight_zero_unanswered :
    Along step Valid ⟨initialState, 0⟩ (List.replicate 32769 .advance) ∧
      (run step ⟨initialState, 0⟩ (List.replicate 32769 .advance)).st.ntransmitted = 32769 ∧
      inFlight (run step ⟨initialState, 0⟩ (List.replicate 32769 .advance)).st 0 = 0 ∧
      ¬ InFlightIs (run step ⟨initialState, 0⟩ (List.replicate 32769 .advance)) := by
  have last : run step ⟨initialState, 0⟩ (List.replicate 32769 .advance) =
      ⟨{ initialState with ntransmitted := 32769, acked := 32769 }, 0⟩ := by
    rw [show List.replicate 32769 Call.advance = List.replicate 32767 .advance ++
      [.advance, .advance] from (List.replicate_append_replicate (n := 32767) (m := 2)).symm,
      run_append, run_advances (le_refl _)]
    rfl
  have zero : inFlight { initialState with ntransmitted := 32769, acked := 32769 } 0 = 0 := by
    decide
  rw [last]
  refine ⟨along_advances _ _, rfl, zero, fun is => ?_⟩
  have value := (is 0 0 (by decide) (by decide)).1
  rw [show inFlight { initialState with ntransmitted := 32769, acked := 32769, nreceived := 0 } 0 =
    0 from zero] at value
  revert value
  decide

end Baseliner.PingInFlight
