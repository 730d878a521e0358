import Baseliner.CounterPhase
import Baseliner.ProbedClient

/-! The transmit timer of the main loop. Each tick sends for the sessions whose interval
divides `sends`, clears the timeouts when a hundred divides it, and counts it up; `sends` is an
`int` that starts at zero. -/

namespace Baseliner.ProbedCadence

open CounterPhase GuardedRuns ListSearch ProbedTime ProbedClient

def SEND_INTERVAL : Int := 1000
def TIMEOUT_INTERVAL : Int := 100000

/-- The loop's own variables, with the calls of `client_res_clear_timeouts` so far. -/
structure Loop where
  client : Client
  sends : Int := 0
  clears : ℕ := 0

inductive LoopEvent
  /-- The transmit timer, with the configuration read when a reload was requested. -/
  | tick (send : Nat → Send) (reload : Option (Option Document × (Nat → Int))) (now : Ts)
  | udp (a : Addr) (d : Data) (ts : Ts) (dscp : UInt8) (now : Ts)
  | pipe (a : Addr) (d : Data) (now : Ts)
  | childExit (pid : Int)

def Loop.clearsNow (l : Loop) : Prop := l.sends.tmod (TIMEOUT_INTERVAL.tdiv SEND_INTERVAL) = 0

instance (l : Loop) : Decidable l.clearsNow := inferInstanceAs (Decidable (_ = _))

def afterTransmit (env : Env) (l : Loop) (reload : Option (Option Document × (Nat → Int)))
    (now : Ts) (c : Client) : Client :=
  let c := match reload with
    | none => c
    | some (cfgdoc, fork) => clientMsessForkall fork (clientMsessReconf env cfgdoc c).1
  let c := if l.clearsNow then clientResClearTimeouts env now c else c
  if l.sends.tmod 10000 = 0 ∧ c.op = .daemon then
    { c with countClientSent := 0, countClientDone := 0 }
  else c

def loopStep (env : Env) (l : Loop) : LoopEvent → Loop
  | .tick send reload now =>
      if l.client.exited then l
      else
        { client := afterTransmit env l reload now (clientMsessTransmit l.sends send l.client)
          sends := (l.sends + 1).bmod (2 ^ 32)
          clears := l.clears + if l.clearsNow then 1 else 0 }
  | .udp a d ts dscp now => { l with client := step env l.client (.udp a d ts dscp now) }
  | .pipe a d now => { l with client := step env l.client (.pipe a d now) }
  | .childExit pid => { l with client := step env l.client (.childExit pid) }

structure Tick where
  loop : Loop
  send : Nat → Send
  reload : Option (Option Document × (Nat → Int))
  now : Ts

def tickOf (l : Loop) : LoopEvent → Option Tick
  | .tick send reload now => if l.client.exited then none else some ⟨l, send, reload, now⟩
  | _ => none

def ticks (env : Env) : Loop → List LoopEvent → List Tick
  | _, [] => []
  | l, e :: es => (tickOf l e).toList ++ ticks env (loopStep env l e) es

def Tick.pings (i : ℕ) (t : Tick) : Prop :=
  (clientMsessTransmit t.loop.sends t.send t.loop.client).msessHead[i]?.map (·.lastSeq) ≠
    t.loop.client.msessHead[i]?.map (·.lastSeq)

def Tick.clears (env : Env) (t : Tick) : Prop :=
  (loopStep env t.loop (.tick t.send t.reload t.now)).clears ≠ t.loop.clears

/-- `P` holds in exactly one of any `m` consecutive ticks. -/
def Cadence (m : ℕ) (P : Tick → Prop) (ts : List Tick) : Prop :=
  OncePerWindow m ts.length fun k => ∃ t, ts[k]? = some t ∧ P t

/-! ### One tick -/

/-- What decides whether a session sends, with the number it has reached. -/
structure Timer where
  hello : Bool
  interval : Int
  seq : NumT

def timerOf (s : Msess) : Timer := ⟨s.gotHello, s.msecInterval, s.lastSeq⟩

def timerAt (i : ℕ) (c : Client) : Option Timer := c.msessHead[i]?.map timerOf

def Timer.advance (sends : Int) (t : Timer) : Timer :=
  if t.hello = true ∧ 1 ≤ t.interval ∧ sends.tmod t.interval = 0 then { t with seq := t.seq + 1 }
  else t

theorem timerAt_congr {c d : Client} (same : d.msessHead.map timerOf = c.msessHead.map timerOf)
    (i : ℕ) : timerAt i d = timerAt i c := by
  rw [timerAt, timerAt, ← List.getElem?_map, same, List.getElem?_map]

theorem timerAt_insert (a : Addr) (d : Data) (ts now : Ts) (c : Client) (i : ℕ) :
    timerAt i (clientResInsert a d ts now c) = timerAt i c := by
  refine timerAt_congr ?_ i
  unfold clientResInsert
  split
  · rfl
  · next pre s post split =>
      rw [(splitLast_spec split).1]
      simp [timerOf]

theorem timerAt_setSession {c : Client} {i : ℕ} {s : Msess} (at_ : c.msessHead[i]? = some s)
    (t : Msess) (n : Int) (j : ℕ) :
    timerAt j { c.setSession i t with countClientSent := n } =
      if i = j then some (timerOf t) else timerAt j c := by
  change ((c.msessHead.set i t)[j]?).map timerOf = _
  rw [List.getElem?_set]
  split_ifs with same inside
  · rfl
  · exact absurd (List.getElem?_eq_some_iff.mp at_).1 (same ▸ inside)
  · rfl

theorem timerAt_transmitSession (sends : Int) (send : Nat → Send) (c : Client) (i j : ℕ) :
    timerAt j (transmitSession sends send c i) =
      if i = j then (timerAt j c).map (Timer.advance sends) else timerAt j c := by
  unfold transmitSession
  split
  · next none_ =>
      split_ifs with same
      · rw [timerAt, ← same, none_]
        rfl
      · rfl
  · next s at_ =>
      have own : i = j → timerAt j c = some (timerOf s) := by
        rintro rfl
        rw [timerAt, at_]
        rfl
      have stays (idle : Timer.advance sends (timerOf s) = timerOf s) :
          timerAt j c = if i = j then (timerAt j c).map (Timer.advance sends) else timerAt j c := by
        split_ifs with same
        · rw [own same, Option.map_some, idle]
        · rfl
      by_cases silent : s.gotHello = false
      · rw [if_pos silent]
        exact stays (if_neg (by simp [timerOf, silent]))
      by_cases invalid : s.msecInterval < 1
      · rw [if_neg silent, if_pos invalid]
        exact stays (if_neg fun go => absurd go.2.1 (by simpa [timerOf] using invalid))
      by_cases due : sends.tmod s.msecInterval = 0
      · have moved : Timer.advance sends (timerOf s) =
            timerOf { s with lastSeq := s.lastSeq + 1 } :=
          if_pos ⟨by simpa [timerOf] using silent, by simpa [timerOf] using invalid, due⟩
        have sent : timerAt j { c.setSession i { s with lastSeq := s.lastSeq + 1 } with
              countClientSent := c.countClientSent + 1 } =
            if i = j then (timerAt j c).map (Timer.advance sends) else timerAt j c := by
          rw [timerAt_setSession at_]
          split_ifs with same
          · rw [own same, Option.map_some, moved]
          · rfl
        rw [if_neg silent, if_neg invalid, if_pos due]
        dsimp only
        split
        · exact sent
        · rw [timerAt_insert]
          exact sent
      · rw [if_neg silent, if_neg invalid, if_neg due]
        exact stays (if_neg fun go => due go.2.2)

theorem timerAt_transmitSessions (sends : Int) (send : Nat → Send) (c : Client) (n j : ℕ) :
    timerAt j ((List.range n).foldl (transmitSession sends send) c) =
      if j < n then (timerAt j c).map (Timer.advance sends) else timerAt j c := by
  induction n with
  | zero => rfl
  | succ n ih =>
      rw [List.range_succ, List.foldl_append, List.foldl_cons, List.foldl_nil,
        timerAt_transmitSession, ih]
      split_ifs <;> first | rfl | omega

theorem timerAt_transmit (sends : Int) (send : Nat → Send) (c : Client) (i : ℕ) :
    timerAt i (clientMsessTransmit sends send c) = (timerAt i c).map (Timer.advance sends) := by
  rw [clientMsessTransmit, timerAt_transmitSessions]
  split_ifs with inside
  · rfl
  · rw [timerAt, List.getElem?_eq_none (by omega)]
    rfl

def Held (m : ℕ) (i : ℕ) (c : Client) : Prop :=
  ∃ t, timerAt i c = some t ∧ t.hello = true ∧ t.interval = m

theorem pings_iff {m i : ℕ} {t : Tick} (pos : 0 < m) (held : Held m i t.loop.client) :
    t.pings i ↔ (m : Int) ∣ t.loop.sends := by
  obtain ⟨timer, at_, hello, interval⟩ := held
  have seq (c : Client) : c.msessHead[i]?.map (·.lastSeq) = (timerAt i c).map (·.seq) := by
    rw [timerAt, Option.map_map]
    rfl
  rw [Tick.pings, seq, seq, timerAt_transmit, at_, Option.map_some, Option.map_some,
    Option.map_some, Int.dvd_iff_tmod_eq_zero, Timer.advance, hello, interval]
  by_cases due : t.loop.sends.tmod m = 0
  · rw [if_pos ⟨rfl, by omega, due⟩]
    refine iff_of_true ?_ due
    simp
  · rw [if_neg fun go => due go.2.2]
    exact iff_of_false (fun moved => moved rfl) due

theorem clears_iff {env : Env} {t : Tick} (alive : t.loop.client.exited = false) :
    t.clears env ↔ ((100 : ℕ) : Int) ∣ t.loop.sends := by
  rw [Tick.clears, loopStep, alive, Int.dvd_iff_tmod_eq_zero]
  change t.loop.clears + (if t.loop.clearsNow then 1 else 0) ≠ t.loop.clears ↔ t.loop.clearsNow
  split_ifs with due
  · simp [due]
  · simp [due]

/-! ### Whole runs -/

theorem loopStep_sends {env : Env} {l : Loop} {n : ℕ} (count : l.sends = counter (2 ^ 31) n)
    (e : LoopEvent) :
    (loopStep env l e).sends = counter (2 ^ 31) (n + (tickOf l e).toList.length) := by
  cases e with
  | tick send reload now =>
      rw [loopStep, tickOf]
      by_cases ended : l.client.exited = true
      · rw [if_pos ended, if_pos ended]
        exact count
      · rw [if_neg ended, if_neg ended, Option.toList_some, List.length_singleton,
          ← counter_succ, ← count]
        rfl
  | udp a d ts dscp now => exact count
  | pipe a d now => exact count
  | childExit pid => exact count

theorem ticks_spec {env : Env} {l : Loop} {n : ℕ} (count : l.sends = counter (2 ^ 31) n)
    (es : List LoopEvent) {k : ℕ} {t : Tick} (at_ : (ticks env l es)[k]? = some t) :
    t.loop.sends = counter (2 ^ 31) (n + k) ∧ t.loop.client.exited = false := by
  induction es generalizing l n k with
  | nil => simp [ticks] at at_
  | cons e es ih =>
      have next : (loopStep env l e).sends =
          counter (2 ^ 31) (n + (tickOf l e).toList.length) := loopStep_sends count e
      rw [ticks] at at_
      cases taken : tickOf l e with
      | none =>
          rw [taken] at at_ next
          exact ih next at_
      | some t' =>
          rw [taken] at at_ next
          cases k with
          | zero =>
              obtain rfl : t' = t := by simpa using at_
              cases e with
              | tick send reload now =>
                  rw [tickOf] at taken
                  split_ifs at taken with ended
                  obtain rfl := Option.some.inj taken
                  exact ⟨count, by simpa using ended⟩
              | udp a d ts dscp now => cases taken
              | pipe a d now => cases taken
              | childExit pid => cases taken
          | succ k =>
              have rest := ih next (show (ticks env (loopStep env l e) es)[k]? = some t by
                simpa using at_)
              rw [Option.toList_some, List.length_singleton, Nat.add_assoc, Nat.add_comm 1] at rest
              exact rest

theorem cadence_of_dvd {env : Env} {l : Loop} {es : List LoopEvent} {m : ℕ} {P : Tick → Prop}
    (start : l.sends = 0) (pos : 0 < m) (fits : m < 2 ^ 31)
    (fires : ∀ t ∈ ticks env l es, t.loop.client.exited = false →
      (P t ↔ (m : Int) ∣ t.loop.sends)) :
    Cadence m P (ticks env l es) ↔ m ∣ 2 ^ 32 ∨ (ticks env l es).length ≤ steady (2 ^ 31) m := by
  have count : l.sends = counter (2 ^ 31) 0 := start
  rw [← show 2 * 2 ^ 31 = 2 ^ 32 from rfl, ← oncePerWindow_iff pos fits.le, Cadence]
  refine oncePerWindow_congr fun k inside => ?_
  obtain ⟨t, at_⟩ : ∃ t, (ticks env l es)[k]? = some t := ⟨_, List.getElem?_eq_getElem inside⟩
  have spec := ticks_spec count es at_
  have own := fires t (List.mem_of_getElem? at_) spec.2
  rw [spec.1, Nat.zero_add] at own
  rw [at_, ← own]
  simp

/-- A session sends in one of any `m` ticks, and timeouts are cleared in one of any hundred,
exactly as long as the counter has not come round, or for ever where `m` divides its range. -/
theorem cadence_iff (env : Env) (l : Loop) (es : List LoopEvent) (i m : ℕ)
    (start : l.sends = 0) (pos : 0 < m) (fits : m < 2 ^ 31)
    (held : ∀ t ∈ ticks env l es, Held m i t.loop.client) :
    (Cadence m (Tick.pings i) (ticks env l es) ∧
        Cadence 100 (Tick.clears env) (ticks env l es)) ↔
      (m ∣ 2 ^ 32 ∨ (ticks env l es).length ≤ steady (2 ^ 31) m) ∧
        (ticks env l es).length ≤ 2 ^ 31 + 48 := by
  have steady100 : steady (2 ^ 31) 100 = 2 ^ 31 + 48 := by decide
  rw [cadence_of_dvd start pos fits fun t mem _ => pings_iff pos (held t mem),
    cadence_of_dvd start (by decide) (by decide) fun t _ alive => clears_iff alive,
    or_iff_right (show ¬ 100 ∣ 2 ^ 32 by decide), steady100]

/-! ### Ticks and nothing else -/

def Going (m i : ℕ) (c : Client) : Prop := Held m i c ∧ c.exited = false

theorem transmitSession_exited (sends : Int) (send : Nat → Send) (c : Client) (i : ℕ) :
    (transmitSession sends send c i).exited = c.exited := by
  unfold transmitSession
  split
  · rfl
  · split_ifs
    · rfl
    · rfl
    · dsimp only
      split
      · rfl
      · unfold clientResInsert
        split <;> rfl
    · rfl

theorem clearRes_exited (env : Env) (now : Ts) (rs : List Res) (c : Client) :
    (clearRes env now rs c).2.exited = c.exited := by
  induction rs generalizing c with
  | nil => rfl
  | cons r rs ih =>
      unfold clearRes
      split_ifs
      · rfl
      · exact ih (expireRes env r c)

theorem clearSessions_timers (env : Env) (now : Ts) (ss : List Msess) (c : Client) :
    (clearSessions env now ss c).1.map timerOf = ss.map timerOf ∧
      (clearSessions env now ss c).2.exited = c.exited := by
  induction ss generalizing c with
  | nil => exact ⟨rfl, rfl⟩
  | cons s ss ih =>
      have rest := ih (clearRes env now s.res.reverse c).2
      rw [clearRes_exited] at rest
      refine ⟨?_, rest.2⟩
      simp only [clearSessions, List.map_cons]
      rw [rest.1]
      rfl

theorem Going.transmit {m i : ℕ} {c : Client} (h : Going m i c) (sends : Int)
    (send : Nat → Send) : Going m i (clientMsessTransmit sends send c) := by
  obtain ⟨⟨t, at_, hello, interval⟩, alive⟩ := h
  refine ⟨⟨t.advance sends, ?_, ?_, ?_⟩, ?_⟩
  · rw [timerAt_transmit, at_, Option.map_some]
  · rw [Timer.advance]
    split_ifs <;> exact hello
  · rw [Timer.advance]
    split_ifs <;> exact interval
  · refine run_invariant (I := fun c : Client => c.exited = false) (fun c j alive => ?_) alive _
    rw [transmitSession_exited]
    exact alive

theorem Going.clear {m i : ℕ} {c : Client} (h : Going m i c) (env : Env) (now : Ts) :
    Going m i (clientResClearTimeouts env now c) := by
  have cleared := clearSessions_timers env now c.msessHead c
  obtain ⟨⟨t, at_, rest⟩, alive⟩ := h
  refine ⟨⟨t, ?_, rest⟩, cleared.2.trans alive⟩
  rw [← at_]
  exact timerAt_congr cleared.1 i

theorem Going.tick {m i : ℕ} {l : Loop} (h : Going m i l.client) (env : Env) (send : Nat → Send)
    (now : Ts) : Going m i (loopStep env l (.tick send none now)).client := by
  rw [loopStep, if_neg (by simp [h.2])]
  change Going m i (afterTransmit env l none now (clientMsessTransmit l.sends send l.client))
  have sent := h.transmit l.sends send
  unfold afterTransmit
  dsimp only
  split_ifs
  · exact sent.clear env now
  · exact sent.clear env now
  · exact sent
  · exact sent

theorem ticks_replicate {m i : ℕ} {l : Loop} (h : Going m i l.client) (env : Env)
    (send : Nat → Send) (now : Ts) (n : ℕ) :
    (ticks env l (List.replicate n (.tick send none now))).length = n ∧
      ∀ t ∈ ticks env l (List.replicate n (.tick send none now)), Held m i t.loop.client := by
  induction n generalizing l with
  | zero => exact ⟨rfl, fun _ none_ => nomatch none_⟩
  | succ n ih =>
      have rest := ih (h.tick env send now)
      have taken : tickOf l (.tick send none now) = some ⟨l, send, none, now⟩ :=
        if_neg (by simp [h.2])
      rw [List.replicate_succ, ticks, taken, Option.toList_some, List.singleton_append,
        List.length_cons, List.forall_mem_cons, rest.1]
      exact ⟨rfl, h.1, rest.2⟩

/-- One session with an interval of a second whose server said hello. -/
def secondlySession : Msess := { Msess.zero with gotHello := true, msecInterval := 1000 }

def secondly : Loop := { client := { op := .client, msessHead := [secondlySession] } }

theorem secondly_going : Going 1000 0 secondly.client := ⟨⟨⟨true, 1000, 0⟩, rfl, rfl, rfl⟩, rfl⟩

def quietTick : LoopEvent := .tick (fun _ => ⟨none, .zero⟩) none .zero

def noPackets : Env := ⟨0, 0, fun _ => true, fun _ => none⟩

theorem cadence_two_thousand :
    (Cadence 1000 (Tick.pings 0) (ticks noPackets secondly (List.replicate 2000 quietTick)) ∧
      Cadence 100 (Tick.clears noPackets)
        (ticks noPackets secondly (List.replicate 2000 quietTick))) ∧
    (ticks noPackets secondly (List.replicate 2000 quietTick)).length = 2000 := by
  have all := ticks_replicate secondly_going noPackets (fun _ => ⟨none, .zero⟩) .zero 2000
  refine ⟨(cadence_iff noPackets secondly (List.replicate 2000 quietTick) 0 1000 rfl (by decide)
    (by decide) all.2).mpr ?_, all.1⟩
  rw [show (ticks noPackets secondly (List.replicate 2000 quietTick)).length = 2000 from all.1]
  decide

/-- After 25 days the counter comes round: a session with an interval of a second does not
send in a whole window of a thousand ticks, and timeouts are cleared twice in a hundred. -/
theorem counter_comes_round :
    (∀ t ∈ ticks noPackets secondly (List.replicate (2 ^ 31 + 353) quietTick),
        Held 1000 0 t.loop.client) ∧
      ¬ Cadence 1000 (Tick.pings 0)
        (ticks noPackets secondly (List.replicate (2 ^ 31 + 353) quietTick)) ∧
      ¬ Cadence 100 (Tick.clears noPackets)
        (ticks noPackets secondly (List.replicate (2 ^ 31 + 353) quietTick)) := by
  have all := ticks_replicate secondly_going noPackets (fun _ => ⟨none, .zero⟩) .zero
    (2 ^ 31 + 353)
  have length : (ticks noPackets secondly (List.replicate (2 ^ 31 + 353) quietTick)).length =
      2 ^ 31 + 353 := all.1
  refine ⟨all.2, ?_, ?_⟩
  · intro cadence
    have early := (cadence_of_dvd rfl (by decide) (by decide) fun t mem _ =>
      pings_iff (by decide) (all.2 t mem)).mp cadence
    rw [all.1] at early
    exact absurd early (by decide)
  · intro cadence
    have early := (cadence_of_dvd rfl (by decide) (by decide) fun t _ alive =>
      clears_iff alive).mp cadence
    rw [length] at early
    exact absurd early (by decide)

end Baseliner.ProbedCadence
