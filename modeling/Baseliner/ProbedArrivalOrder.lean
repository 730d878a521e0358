import Baseliner.ProbedClient

/-! Order of arrival of a probe's records. PONGs come over UDP and the TIME
record over TCP, a forked child and a pipe, so the TIME record may arrive
before, between or after the PONGs. A PONG that finds its probe pending
overwrites T4, and only one that finds it gone is reported as a DUP. -/

namespace Baseliner.ProbedArrivalOrder
open GuardedRuns ListSearch ProbedTime ProbedClient

structure Pong where
  data : Data
  t4 : Ts
  dscp : UInt8
  now : Ts

def Pong.event (a : Addr) (p : Pong) : Event := .udp a p.data p.t4 p.dscp p.now

def deliveries (a : Addr) (t : Data) (tnow : Ts) (before after : List Pong) : List Event :=
  before.map (Pong.event a) ++ .pipe a t tnow :: after.map (Pong.event a)

def Delivered (env : Env) (c : Client) (es : List Event) : Prop :=
  Along (step env) (fun d _ => d.exited = false) c es

/-- The entry after its TIME record `t` and the PONG `p`, and nothing else. -/
def answered (s : Msess) (r : Res) (t : Data) (p : Pong) : Res :=
  { r with
    state := MASK_DONE ||| (if s.dscp ≠ p.dscp then MASK_DSCP else 0)
    t2 := t.t2, t3 := t.t3, t4 := p.t4 }

/-- A pending probe with no record yet, its TIME record, and its PONGs before
and after the TIME record, all of them delivered. -/
structure Exchange (env : Env) (c : Client) where
  pre : List Msess
  s : Msess
  post : List Msess
  newer : List Res
  r : Res
  older : List Res
  a : Addr
  t : Data
  tnow : Ts
  before : List Pong
  after : List Pong
  sessions : c.msessHead = pre ++ s :: post
  entries : s.res = newer ++ r :: older
  session : s.id = r.id
  distinct : (c.pending.map (·.node)).Nodup
  fresh : r.state = MASK_PING
  time : IsFor a r t ∧ t.type = TYPE_TIME
  pongs : ∀ p ∈ before ++ after, IsFor a r p.data ∧ p.data.type = TYPE_PONG
  nonempty : before ++ after ≠ []
  delivered : Delivered env c (deliveries a t tnow before after)

namespace Exchange

variable {env : Env} {c : Client} (x : Exchange env c)

def events : List Event := deliveries x.a x.t x.tnow x.before x.after

/-- The result is the one of the first PONG, and every other PONG is a DUP. -/
def FirstPongDecides : Prop :=
  ∃ news, (run (step env) c x.events).reports = c.reports ++ news ∧
    (∃ p, (x.before ++ x.after).head? = some p ∧
      news.filter (·.record.state ≠ .dup) =
        [⟨some x.r.node, resultRecord (answered x.s x.r x.t p)⟩]) ∧
    news.countP (·.record.state = .dup) + 1 = (x.before ++ x.after).length

/-- The search for the probe's key ends at the probe: its session is the first
with its id, and no newer entry has its key. -/
def Found : Prop := (∀ y ∈ x.pre, y.id ≠ x.r.id) ∧ ∀ q ∈ x.newer, ¬ SameKey q x.r

/-- A PONG of this probe that finds it gone is reported: no other pending
entry has its key, and its session's counter has not wrapped below it. -/
def LateIsDup : Prop :=
  (∀ q ∈ x.older, ¬ SameKey q x.r) ∧
    ∃ y ∈ c.msessHead, y.dst.sin6Addr = x.r.addr ∧ y.id = x.r.id ∧ x.r.seq ≤ y.lastSeq

end Exchange

/-! ### One record -/

theorem resultState_ne_dup (r : Res) : resultState r ≠ .dup := by
  rcases resultState_cases r with h | h | h <;> simp [h]

theorem ofInt_dscp (v : UInt8) : UInt8.ofInt (v.toNat : Int) = v := by
  have small : v.toNat < 256 := v.toNat_lt
  have value : ((v.toNat : Int) % 2 ^ 8).toNat = v.toNat := by omega
  rw [UInt8.ofInt, value, UInt8.ofNat_toNat]

theorem updateRes_pong {s : Msess} {m : Data} (h : m.type = TYPE_PONG) (t4 : Ts) (dscp : UInt8)
    (r : Res) :
    updateRes s m (some t4) dscp.toNat r =
      { r with
        state := (r.state ||| MASK_PONG) ||| (if s.dscp ≠ dscp then MASK_DSCP else 0)
        t4 := t4 } := by
  simp [updateRes, h, ofInt_dscp]

theorem updateRes_time {s : Msess} {m : Data} (h : m.type = TYPE_TIME) (r : Res) :
    updateRes s m none (-1) r =
      { r with state := r.state ||| MASK_TIME, t2 := m.t2, t3 := m.t3 } := by
  simp [updateRes, h, TYPE_TIME, TYPE_PONG]

def Brings (env : Env) (a : Addr) (k : Res) (e : Event) : Prop :=
  ∃ m ts dscp now, IsFor a k m ∧
    ∀ d : Client, d.exited = false → step env d e = clientResUpdate env a m ts dscp now d

section Records

variable {env : Env}

theorem step_pong {d : Client} (alive : d.exited = false) (a : Addr) {p : Pong}
    (h : p.data.type = TYPE_PONG) :
    step env d (p.event a) =
      clientResUpdate env a p.data (some p.t4) p.dscp.toNat p.now d := by
  simp [step, alive, Pong.event, handle, h]

theorem step_time {d : Client} (alive : d.exited = false) (a : Addr) {t : Data}
    (h : t.type = TYPE_TIME) (now : Ts) :
    step env d (.pipe a t now) = clientResUpdate env a t none (-1) now d := by
  simp [step, alive, handle, h, TYPE_TIME, TYPE_HELO]

theorem pong_brings {a : Addr} {k : Res} {p : Pong}
    (h : IsFor a k p.data ∧ p.data.type = TYPE_PONG) : Brings env a k (p.event a) :=
  ⟨p.data, _, _, _, h.1, fun _ alive => step_pong alive a h.2⟩

theorem pongs_bring {a : Addr} {k : Res} {ps : List Pong}
    (h : ∀ p ∈ ps, IsFor a k p.data ∧ p.data.type = TYPE_PONG) :
    ∀ e ∈ ps.map (Pong.event a), Brings env a k e := by
  intro e he
  obtain ⟨p, hp, rfl⟩ := List.mem_map.mp he
  exact pong_brings (h p hp)

theorem Exchange.events_bring {c : Client} (x : Exchange env c) :
    ∀ e ∈ x.events, Brings env x.a x.r e := by
  intro e he
  rcases List.mem_append.mp he with he | he
  · exact pongs_bring (fun p hp => x.pongs p (by simp [hp])) e he
  · rcases List.mem_cons.mp he with rfl | he
    · exact ⟨x.t, _, _, _, x.time.1, fun _ alive => step_time alive x.a x.time.2 x.tnow⟩
    · exact pongs_bring (fun p hp => x.pongs p (by simp [hp])) e he

theorem clientResUpdate_reports (env : Env) (a : Addr) (m : Data) (ts : Option Ts) (dscp : Int)
    (now : Ts) (d : Client) :
    ∃ news, (clientResUpdate env a m ts dscp now d).reports = d.reports ++ news ∧
      news.length ≤ 1 := by
  rcases clientResUpdate_cases env a m ts dscp now d with same | ⟨pre, s, post, -, outcome⟩
  · exact ⟨[], by rw [same, List.append_nil], by simp⟩
  rcases outcome with ⟨_, _, _, _, done⟩ | ⟨_, _, _, _, opened⟩ | dup | missed
  · exact ⟨[_], by rw [done]; rfl, le_rfl⟩
  · exact ⟨[], by rw [opened, List.append_nil]; rfl, by simp⟩
  · exact ⟨[_], by rw [dup]; rfl, le_rfl⟩
  · exact ⟨[], by rw [missed, List.append_nil], by simp⟩

theorem run_reports {a : Addr} {k : Res} {es : List Event} (hes : ∀ e ∈ es, Brings env a k e)
    {d : Client} (delivered : Delivered env d es) :
    ∃ news, (run (step env) d es).reports = d.reports ++ news ∧ news.length ≤ es.length := by
  induction es generalizing d with
  | nil => exact ⟨[], by simp, le_rfl⟩
  | cons e es ih =>
      obtain ⟨alive, later⟩ := delivered
      obtain ⟨m, ts, dscp, now, -, hstep⟩ := hes e (by simp)
      obtain ⟨first, hfirst, len⟩ := clientResUpdate_reports env a m ts dscp now d
      obtain ⟨rest, hrest, lens⟩ := ih (fun f hf => hes f (by simp [hf])) later
      refine ⟨first ++ rest, ?_, ?_⟩
      · rw [run_cons, hrest, hstep d alive, hfirst, List.append_assoc]
      · simp only [List.length_append, List.length_cons]
        omega

end Records

/-! ### While the probe waits -/

/-- The client while the probe waits, in terms of the client it started from. -/
structure Waiting {env : Env} {c : Client} (x : Exchange env c) (d : Client) (r : Res) :
    Prop where
  sessions : d.msessHead = x.pre ++ { x.s with res := x.newer ++ r :: x.older } :: x.post
  reports : d.reports = c.reports
  key : SameKey r x.r

/-- The client once the probe is completed, `news` being the reports since. -/
structure Settled {env : Env} {c : Client} (x : Exchange env c) (d : Client)
    (news : List Report) : Prop where
  sessions : d.msessHead = x.pre ++ { x.s with res := x.newer ++ x.older } :: x.post
  reports : d.reports = c.reports ++ news

section Steps

variable {env : Env} {c : Client} {x : Exchange env c} {d : Client} {r : Res}

theorem Exchange.waiting (x : Exchange env c) : Waiting x c x.r :=
  ⟨by rw [x.sessions, ← x.entries], rfl, rfl, rfl, rfl⟩

theorem Exchange.Found.session (found : x.Found) (res : List Res) {m : Data}
    (h : IsFor x.a x.r m) :
    splitFirst (fun s : Msess => s.id == m.id) (x.pre ++ { x.s with res := res } :: x.post) =
      some (x.pre, { x.s with res := res }, x.post) := by
  refine splitFirst_append (by simp [x.session, h.1]) ?_
  intro y hy
  simpa [h.1] using found.1 y hy

theorem Exchange.Found.entry (found : x.Found) (key : SameKey r x.r) {m : Data}
    (hm : IsFor x.a x.r m) :
    splitFirst (matchesRes x.a m) (x.newer ++ r :: x.older) = some (x.newer, r, x.older) := by
  rw [matchesRes_eq hm]
  exact splitFirst_append (decide_eq_true key) fun q hq => decide_eq_false (found.2 q hq)

theorem Waiting.update (h : Waiting x d r) (found : x.Found) {m : Data} (hm : IsFor x.a x.r m)
    (ts : Option Ts) (dscp : Int) (now : Ts)
    (undone : (updateRes x.s m ts dscp r).state &&& MASK_DONE ≠ MASK_DONE) :
    Waiting x (clientResUpdate env x.a m ts dscp now d) (updateRes x.s m ts dscp r) := by
  have session := found.session (x.newer ++ r :: x.older) hm
  rw [← h.sessions] at session
  rw [clientResUpdate_open session (found.entry h.key hm) undone]
  exact ⟨rfl, h.reports, (updateRes_key x.s m ts dscp r).trans h.key⟩

theorem Waiting.complete (h : Waiting x d r) (found : x.Found) {m : Data} (hm : IsFor x.a x.r m)
    (ts : Option Ts) (dscp : Int) (now : Ts)
    (done : (updateRes x.s m ts dscp r).state &&& MASK_DONE = MASK_DONE) :
    Settled x (clientResUpdate env x.a m ts dscp now d)
      [⟨some (updateRes x.s m ts dscp r).node, resultRecord (updateRes x.s m ts dscp r)⟩] := by
  have session := found.session (x.newer ++ r :: x.older) hm
  rw [← h.sessions] at session
  rw [clientResUpdate_done session (found.entry h.key hm) done]
  refine ⟨rfl, ?_⟩
  rw [← h.reports]
  rfl

theorem Waiting.pong (h : Waiting x d r) (found : x.Found)
    (state : r.state = 1 ∨ r.state = 3 ∨ r.state = 11) (alive : d.exited = false) {p : Pong}
    (hp : IsFor x.a x.r p.data ∧ p.data.type = TYPE_PONG) :
    ∃ q, Waiting x (step env d (p.event x.a)) q ∧ (q.state = 3 ∨ q.state = 11) := by
  have state : (updateRes x.s p.data (some p.t4) p.dscp.toNat r).state = 3 ∨
      (updateRes x.s p.data (some p.t4) p.dscp.toNat r).state = 11 := by
    rw [updateRes_pong hp.2]
    rcases state with hs | hs | hs <;> split_ifs <;> simp [hs, MASK_PONG, MASK_DSCP]
  rw [step_pong alive x.a hp.2]
  refine ⟨_, h.update found hp.1 (some p.t4) p.dscp.toNat p.now ?_, state⟩
  rcases state with hs | hs <;> simp [hs, MASK_DONE]

theorem Waiting.pongs (h : Waiting x d r) (found : x.Found) (state : r.state = 3 ∨ r.state = 11)
    (ps : List Pong) (hps : ∀ p ∈ ps, IsFor x.a x.r p.data ∧ p.data.type = TYPE_PONG)
    (delivered : Delivered env d (ps.map (Pong.event x.a))) :
    ∃ q, Waiting x (run (step env) d (ps.map (Pong.event x.a))) q ∧
      (q.state = 3 ∨ q.state = 11) := by
  induction ps generalizing d r with
  | nil => exact ⟨r, h, state⟩
  | cons p ps ih =>
      obtain ⟨q, hq, state⟩ := h.pong found (Or.inr state) delivered.1 (hps p (by simp))
      exact ih hq state (fun p hp => hps p (by simp [hp])) delivered.2

theorem Waiting.time (h : Waiting x d r) (found : x.Found) (state : r.state = 3 ∨ r.state = 11)
    (alive : d.exited = false) :
    ∃ rep : Report, rep.record.state ≠ .dup ∧
      Settled x (step env d (.pipe x.a x.t x.tnow)) [rep] := by
  rw [step_time alive x.a x.time.2]
  refine ⟨_, ?_, h.complete found x.time.1 none (-1) x.tnow ?_⟩
  · exact resultState_ne_dup _
  · rw [updateRes_time x.time.2]
    rcases state with hs | hs <;> simp [hs, MASK_TIME, MASK_DONE]

theorem answered_done (s : Msess) (r : Res) (t : Data) (p : Pong) :
    (answered s r t p).state &&& MASK_DONE = MASK_DONE := by
  simp only [answered, MASK_DONE, MASK_DSCP]
  split_ifs <;> decide

theorem Exchange.settles_time_pong (x : Exchange env c) (found : x.Found) {p : Pong}
    (hp : IsFor x.a x.r p.data ∧ p.data.type = TYPE_PONG) (alive : c.exited = false)
    (alive' : (step env c (.pipe x.a x.t x.tnow)).exited = false) :
    Settled x (step env (step env c (.pipe x.a x.t x.tnow)) (p.event x.a))
      [⟨some x.r.node, resultRecord (answered x.s x.r x.t p)⟩] := by
  have ping : x.r.state = 1 := x.fresh
  have opened : Waiting x (step env c (.pipe x.a x.t x.tnow))
      (updateRes x.s x.t none (-1) x.r) := by
    rw [step_time alive x.a x.time.2]
    refine x.waiting.update found x.time.1 none (-1) x.tnow ?_
    simp [updateRes_time x.time.2, ping, MASK_TIME, MASK_DONE]
  have entry : updateRes x.s p.data (some p.t4) p.dscp.toNat
      (updateRes x.s x.t none (-1) x.r) = answered x.s x.r x.t p := by
    rw [updateRes_pong hp.2, updateRes_time x.time.2]
    simp [answered, ping, MASK_TIME, MASK_PONG, MASK_DONE]
  have settled := opened.complete found hp.1 (some p.t4) p.dscp.toNat p.now
    (entry ▸ answered_done x.s x.r x.t p)
  rw [entry] at settled
  rwa [step_pong alive' x.a hp.2]

theorem Exchange.settles_pong_time (x : Exchange env c) (found : x.Found) {p : Pong}
    (hp : IsFor x.a x.r p.data ∧ p.data.type = TYPE_PONG) (alive : c.exited = false)
    (alive' : (step env c (p.event x.a)).exited = false) :
    Settled x (step env (step env c (p.event x.a)) (.pipe x.a x.t x.tnow))
      [⟨some x.r.node, resultRecord (answered x.s x.r x.t p)⟩] := by
  have ping : x.r.state = 1 := x.fresh
  have opened : Waiting x (step env c (p.event x.a))
      (updateRes x.s p.data (some p.t4) p.dscp.toNat x.r) := by
    rw [step_pong alive x.a hp.2]
    refine x.waiting.update found hp.1 (some p.t4) p.dscp.toNat p.now ?_
    rw [updateRes_pong hp.2, ping]
    simp only [MASK_PONG, MASK_DSCP, MASK_DONE]
    split_ifs <;> decide
  have entry : updateRes x.s x.t none (-1)
      (updateRes x.s p.data (some p.t4) p.dscp.toNat x.r) = answered x.s x.r x.t p := by
    rw [updateRes_time x.time.2, updateRes_pong hp.2, ping]
    simp only [answered, MASK_PONG, MASK_TIME, MASK_DONE, MASK_DSCP]
    split_ifs <;> rfl
  have settled := opened.complete found x.time.1 none (-1) x.tnow
    (entry ▸ answered_done x.s x.r x.t p)
  rw [entry] at settled
  rwa [step_time alive' x.a x.time.2]

/-- With at most one PONG before the TIME record, the first PONG and the TIME
record settle the probe, and the other PONGs follow. -/
theorem Exchange.first_settles (x : Exchange env c) (found : x.Found)
    (few : x.before.length ≤ 1) :
    ∃ p rest d, x.before ++ x.after = p :: rest ∧
      Settled x d [⟨some x.r.node, resultRecord (answered x.s x.r x.t p)⟩] ∧
      run (step env) c x.events = run (step env) d (rest.map (Pong.event x.a)) ∧
      Delivered env d (rest.map (Pong.event x.a)) := by
  have delivered := x.delivered
  unfold Exchange.events
  cases hb : x.before with
  | nil =>
      obtain ⟨p, rest, ha⟩ := List.exists_cons_of_ne_nil (l := x.after) (by
        have := x.nonempty
        rwa [hb] at this)
      rw [hb, ha] at delivered
      obtain ⟨alive, alive', later⟩ := delivered
      exact ⟨p, rest, _, by simp [ha],
        x.settles_time_pong found (x.pongs p (by simp [ha])) alive alive', by rw [ha]; rfl, later⟩
  | cons p ps =>
      have hps : ps = [] := by
        rw [hb, List.length_cons] at few
        exact List.eq_nil_of_length_eq_zero (by omega)
      subst hps
      rw [hb] at delivered
      obtain ⟨alive, alive', later⟩ := delivered
      exact ⟨p, x.after, _, rfl,
        x.settles_pong_time found (x.pongs p (by simp [hb])) alive alive', rfl, later⟩

/-! ### After completion -/

theorem Settled.dupKnown_iff {news : List Report} (h : Settled x d news) {m : Data}
    (hm : IsFor x.a x.r m ∧ m.type = TYPE_PONG) (n : Int) :
    dupKnown x.a m { d with countClientFind := n } = true ↔
      ∃ y ∈ c.msessHead, y.dst.sin6Addr = x.r.addr ∧ y.id = x.r.id ∧ x.r.seq ≤ y.lastSeq := by
  obtain ⟨⟨hid, hseq, ha⟩, htype⟩ := hm
  simp only [dupKnown, h.sessions, x.sessions, hid, hseq, ha, htype, List.any_append,
    List.any_cons, Bool.or_eq_true, List.any_eq_true, Bool.and_eq_true, beq_iff_eq,
    decide_eq_true_eq, List.mem_append, List.mem_cons, or_and_right, exists_or,
    exists_eq_left, and_true, and_assoc, ge_iff_le]

theorem Settled.pong {news : List Report} (h : Settled x d news) (found : x.Found)
    (late : x.LateIsDup) (alive : d.exited = false) {p : Pong}
    (hp : IsFor x.a x.r p.data ∧ p.data.type = TYPE_PONG) :
    Settled x (step env d (p.event x.a)) (news ++ [⟨none, dupRecord p.data p.now⟩]) := by
  have gone : splitFirst (matchesRes x.a p.data) (x.newer ++ x.older) = none := by
    rw [splitFirst_eq_none, matchesRes_eq hp.1]
    intro q hq
    rcases List.mem_append.mp hq with hq | hq
    · exact decide_eq_false (found.2 q hq)
    · exact decide_eq_false (late.1 q hq)
  rw [step_pong alive x.a hp.2,
    clientResUpdate_late (h.sessions ▸ found.session _ hp.1) gone,
    if_pos ((h.dupKnown_iff hp _).mpr late.2)]
  refine ⟨h.sessions, ?_⟩
  rw [← List.append_assoc, ← h.reports]
  rfl

theorem Settled.pongs {news : List Report} (h : Settled x d news) (found : x.Found)
    (late : x.LateIsDup) (ps : List Pong)
    (hps : ∀ p ∈ ps, IsFor x.a x.r p.data ∧ p.data.type = TYPE_PONG)
    (delivered : Delivered env d (ps.map (Pong.event x.a))) :
    Settled x (run (step env) d (ps.map (Pong.event x.a)))
      (news ++ ps.map fun p => ⟨none, dupRecord p.data p.now⟩) := by
  induction ps generalizing d news with
  | nil => simpa using h
  | cons p ps ih =>
      have next := ih (h.pong found late delivered.1 (hps p (by simp)))
        (fun p hp => hps p (by simp [hp])) delivered.2
      simpa using next

theorem Settled.pong_not_dup {news : List Report} (h : Settled x d news) (found : x.Found)
    (late : ¬ x.LateIsDup) (alive : d.exited = false) {p : Pong}
    (hp : IsFor x.a x.r p.data ∧ p.data.type = TYPE_PONG) :
    ∃ more, (step env d (p.event x.a)).reports = d.reports ++ more ∧
      more.countP (·.record.state = .dup) = 0 := by
  rw [step_pong alive x.a hp.2]
  have session := found.session (x.newer ++ x.older) hp.1
  rw [← h.sessions] at session
  cases search : splitFirst (matchesRes x.a p.data) (x.newer ++ x.older) with
  | some t =>
      obtain ⟨newer, q, older⟩ := t
      by_cases done : (updateRes { x.s with res := x.newer ++ x.older } p.data (some p.t4)
          p.dscp.toNat q).state &&& MASK_DONE = MASK_DONE
      · rw [clientResUpdate_done session search done]
        exact ⟨[_], rfl, by simp [resultRecord, resultState_ne_dup]⟩
      · rw [clientResUpdate_open session search done]
        exact ⟨[], by rw [List.append_nil]; rfl, rfl⟩
  | none =>
      have alone : ∀ q ∈ x.older, ¬ SameKey q x.r := by
        rw [splitFirst_eq_none, matchesRes_eq hp.1] at search
        intro q hq
        exact of_decide_eq_false (search q (by simp [hq]))
      have unknown : ∀ n : Int, ¬ dupKnown x.a p.data { d with countClientFind := n } = true :=
        fun n known => late ⟨alone, (h.dupKnown_iff hp n).mp known⟩
      rw [clientResUpdate_late session search, if_neg (unknown _)]
      exact ⟨[], by rw [List.append_nil], rfl⟩

end Steps

/-! ### A probe that the search does not find -/

/-- The search for the key of `k` reaches a session with its id, and the entry
it stops at there, if any, is not `k`. -/
def Blocked (k : Res) (d : Client) : Prop :=
  ∃ pre s post, splitFirst (fun s : Msess => s.id == k.id) d.msessHead = some (pre, s, post) ∧
    ∀ newer q older, splitFirst (fun q => decide (SameKey q k)) s.res = some (newer, q, older) →
      q.node ≠ k.node

/-- What a blocked probe's records can add to the reports: DUPs, or the result
of some other probe. -/
def Foreign (k : Res) (news : List Report) : Prop :=
  (∀ rep ∈ news, rep.record.state = .dup) ∨
    ∃ rep ∈ news, rep.record.state ≠ .dup ∧ rep.node ≠ some k.node

section Blocked

variable {env : Env} {c d : Client} {k : Res}

theorem Blocked.update (h : Blocked k d) (env : Env) {a : Addr} {m : Data} (hm : IsFor a k m)
    (ts : Option Ts) (dscp : Int) (now : Ts) :
    ∃ news, (clientResUpdate env a m ts dscp now d).reports = d.reports ++ news ∧
      (Blocked k (clientResUpdate env a m ts dscp now d) ∧ (∀ rep ∈ news, rep.record.state = .dup) ∨
        ∃ rep ∈ news, rep.record.state ≠ .dup ∧ rep.node ≠ some k.node) := by
  obtain ⟨pre, s, post, session, other⟩ := h
  have session' : splitFirst (fun s : Msess => s.id == m.id) d.msessHead = some (pre, s, post) := by
    rw [hm.1]
    exact session
  obtain ⟨-, id, first⟩ := splitFirst_spec session
  cases search : splitFirst (matchesRes a m) s.res with
  | some t =>
      obtain ⟨newer, q, older⟩ := t
      have key := search
      rw [matchesRes_eq hm] at key
      have node : (updateRes s m ts dscp q).node ≠ k.node := by
        rw [updateRes_node]
        exact other newer q older key
      by_cases done : (updateRes s m ts dscp q).state &&& MASK_DONE = MASK_DONE
      · -- the record completes `q`, so the result is that of another probe
        rw [clientResUpdate_done session' search done]
        refine ⟨[⟨some (updateRes s m ts dscp q).node, resultRecord (updateRes s m ts dscp q)⟩],
          rfl, Or.inr ⟨_, List.mem_singleton_self _, resultState_ne_dup _, ?_⟩⟩
        simpa using node
      · -- `q` keeps its key and its place, so the search still stops at it
        rw [clientResUpdate_open session' search done]
        refine ⟨[], by rw [List.append_nil]; rfl, Or.inl ⟨⟨pre,
          { s with res := newer ++ updateRes s m ts dscp q :: older }, post, ?_, ?_⟩, by simp⟩⟩
        · exact splitFirst_append (x := { s with res := newer ++ updateRes s m ts dscp q :: older })
            id first
        · intro newer' q' older' search'
          obtain ⟨-, same, before⟩ := splitFirst_spec key
          have kept : SameKey (updateRes s m ts dscp q) k :=
            (updateRes_key s m ts dscp q).trans (of_decide_eq_true same)
          have again : splitFirst (fun q => decide (SameKey q k))
              (newer ++ updateRes s m ts dscp q :: older) =
                some (newer, updateRes s m ts dscp q, older) :=
            splitFirst_append (decide_eq_true kept) before
          rw [again, Option.some.injEq, Prod.mk.injEq, Prod.mk.injEq] at search'
          rw [← search'.2.1]
          exact node
  | none =>
      have none' : ∀ newer q older, splitFirst (fun q => decide (SameKey q k)) s.res =
          some (newer, q, older) → q.node ≠ k.node := by
        rw [← matchesRes_eq hm, search]
        simp
      rw [clientResUpdate_late session' search]
      split_ifs
      · exact ⟨[⟨none, dupRecord m now⟩], rfl,
          Or.inl ⟨⟨pre, s, post, session, none'⟩, by simp [dupRecord]⟩⟩
      · exact ⟨[], by rw [List.append_nil], Or.inl ⟨⟨pre, s, post, session, none'⟩, by simp⟩⟩

theorem Blocked.run (h : Blocked k d) {a : Addr} {es : List Event}
    (hes : ∀ e ∈ es, Brings env a k e) (delivered : Delivered env d es) :
    ∃ news, (run (step env) d es).reports = d.reports ++ news ∧ Foreign k news := by
  induction es generalizing d with
  | nil => exact ⟨[], by simp, Or.inl (by simp)⟩
  | cons e es ih =>
      obtain ⟨alive, later⟩ := delivered
      obtain ⟨m, ts, dscp, now, hm, hstep⟩ := hes e (by simp)
      have bring : ∀ f ∈ es, Brings env a k f := fun f hf => hes f (by simp [hf])
      obtain ⟨first, hfirst, outcome⟩ := h.update env hm ts dscp now
      rw [← hstep d alive] at hfirst outcome
      rcases outcome with ⟨blocked, dups⟩ | ⟨rep, hrep, foreign⟩
      · obtain ⟨rest, hrest, outcome⟩ := ih blocked bring later
        refine ⟨first ++ rest, by rw [run_cons, hrest, hfirst, List.append_assoc], ?_⟩
        rcases outcome with alldup | ⟨rep, hrep, foreign⟩
        · left
          intro rep hrep
          exact (List.mem_append.mp hrep).elim (dups rep) (alldup rep)
        · exact Or.inr ⟨rep, by simp [hrep], foreign⟩
      · obtain ⟨rest, hrest, -⟩ := run_reports bring later
        exact ⟨first ++ rest, by rw [run_cons, hrest, hfirst, List.append_assoc],
          Or.inr ⟨rep, by simp [hrep], foreign⟩⟩

theorem Exchange.blocked_of_not_found (x : Exchange env c) (lost : ¬ x.Found) :
    Blocked x.r c := by
  have nodes := x.distinct
  rw [Client.pending, x.sessions, List.flatMap_append, List.flatMap_cons, x.entries,
    List.map_append, List.nodup_append] at nodes
  obtain ⟨-, inner, apart⟩ := nodes
  have sessions := x.sessions
  by_cases shadow : ∃ y ∈ x.pre, y.id = x.r.id
  · obtain ⟨y, hy, hid⟩ := shadow
    cases found : splitFirst (fun s : Msess => s.id == x.r.id) c.msessHead with
    | none =>
        have := splitFirst_eq_none.mp found y (by simp [sessions, hy])
        simp [hid] at this
    | some t =>
        obtain ⟨pre, s, post⟩ := t
        refine ⟨pre, s, post, found, ?_⟩
        intro newer q older search
        rw [sessions] at found
        have left : s ∈ x.pre := splitFirst_mem_left hy (by simp [hid]) found
        obtain ⟨entries, -, -⟩ := splitFirst_spec search
        refine apart q.node ?_ x.r.node (by simp)
        exact List.mem_map_of_mem (List.mem_flatMap.mpr ⟨s, left, by simp [entries]⟩)
  · have first : ∀ y ∈ x.pre, y.id ≠ x.r.id := fun y hy hid => shadow ⟨y, hy, hid⟩
    obtain ⟨n, hn, same⟩ : ∃ n ∈ x.newer, SameKey n x.r := by
      by_contra none
      exact lost ⟨first, fun q hq same => none ⟨q, hq, same⟩⟩
    refine ⟨x.pre, x.s, x.post, ?_, ?_⟩
    · rw [sessions]
      exact splitFirst_append (by simp [x.session]) fun y hy => by simpa using first y hy
    · intro newer q older search
      rw [x.entries] at search
      have left : q ∈ x.newer := splitFirst_mem_left hn (by simpa using same) search
      rw [List.append_assoc, List.map_append, List.nodup_append] at inner
      exact inner.2.2 q.node (List.mem_map_of_mem left) x.r.node (by simp)

theorem Exchange.not_decides_of_not_found (x : Exchange env c) (lost : ¬ x.Found) :
    ¬ x.FirstPongDecides := by
  rintro ⟨news, hnews, ⟨p, -, result⟩, -⟩
  obtain ⟨news', hnews', outcome⟩ :=
    (x.blocked_of_not_found lost).run x.events_bring x.delivered
  have same : news = news' := List.append_cancel_left (hnews.symm.trans hnews')
  subst same
  rcases outcome with alldup | ⟨rep, hrep, notDup, node⟩
  · have empty : news.filter (·.record.state ≠ .dup) = [] := by
      rw [List.filter_eq_nil_iff]
      intro rep hrep
      simp [alldup rep hrep]
    rw [empty] at result
    exact absurd result (by simp)
  · have kept : rep ∈ news.filter (·.record.state ≠ .dup) :=
      List.mem_filter.mpr ⟨hrep, by simpa using notDup⟩
    rw [result, List.mem_singleton] at kept
    exact node (by rw [kept])

end Blocked

/-! ### The exact condition -/

section Decides

variable {env : Env} {c : Client}

theorem Exchange.few_of_decides (x : Exchange env c) (found : x.Found)
    (h : x.FirstPongDecides) : x.before.length ≤ 1 := by
  obtain ⟨news, hnews, -, dups⟩ := h
  by_contra many
  obtain ⟨p, ps, hb⟩ := List.exists_cons_of_ne_nil (l := x.before) (by
    intro hnil
    simp [hnil] at many)
  -- no report before TIME, one at TIME, at most one for each PONG after it
  have delivered := x.delivered
  rw [deliveries, hb, List.map_cons, List.cons_append] at delivered
  obtain ⟨alive, delivered⟩ := delivered
  obtain ⟨early, alive', later⟩ := along_append.mp delivered
  obtain ⟨q, hq, state⟩ :=
    x.waiting.pong found (Or.inl x.fresh) alive (x.pongs p (by simp [hb]))
  obtain ⟨q', hq', state'⟩ :=
    hq.pongs found state ps (fun p hp => x.pongs p (by simp [hb, hp])) early
  obtain ⟨rep, notDup, settled⟩ := hq'.time found state' alive'
  obtain ⟨more, hmore, len⟩ :=
    run_reports (pongs_bring fun p hp => x.pongs p (by simp [hp])) later
  have final : news = rep :: more := by
    have all := hnews
    rw [Exchange.events, deliveries, hb, List.map_cons, List.cons_append, run_cons, run_append,
      run_cons, hmore, settled.reports, List.append_assoc] at all
    exact (List.append_cancel_left all).symm
  have bound : more.countP (·.record.state = .dup) ≤ more.length := List.countP_le_length
  rw [List.length_map] at len
  rw [final, List.countP_cons] at dups
  simp only [notDup, decide_false, Bool.false_eq_true, if_false, List.length_append] at dups
  omega

theorem Exchange.late_of_decides (x : Exchange env c) (found : x.Found)
    (h : x.FirstPongDecides) :
    (x.before ++ x.after).length = 1 ∨ x.LateIsDup := by
  have few := x.few_of_decides found h
  obtain ⟨news, hnews, -, dups⟩ := h
  by_contra neither
  obtain ⟨single, late⟩ := not_or.mp neither
  obtain ⟨p, rest, d, split, settled, hrun, delivered⟩ := x.first_settles found few
  cases rest with
  | nil => exact single (by simp [split])
  | cons q qs =>
      obtain ⟨alive, later⟩ := delivered
      obtain ⟨more, hmore, none⟩ :=
        settled.pong_not_dup found late alive (x.pongs q (by simp [split]))
      obtain ⟨others, hothers, len⟩ :=
        run_reports (pongs_bring fun p hp => x.pongs p (by simp [split, hp])) later
      have final : news = ⟨some x.r.node, resultRecord (answered x.s x.r x.t p)⟩ ::
          (more ++ others) := by
        have all := hnews
        rw [hrun, List.map_cons, run_cons, hothers, hmore, settled.reports,
          List.append_assoc, List.append_assoc] at all
        exact (List.append_cancel_left all).symm
      have bound : others.countP (·.record.state = .dup) ≤ others.length :=
        List.countP_le_length
      rw [List.length_map] at len
      rw [final, List.countP_cons, List.countP_append, none, split] at dups
      simp only [resultRecord, resultState_ne_dup, decide_false, Bool.false_eq_true, if_false,
        List.length_cons] at dups
      omega

theorem Exchange.decides (x : Exchange env c) (found : x.Found) (few : x.before.length ≤ 1)
    (rest : (x.before ++ x.after).length = 1 ∨ x.LateIsDup) : x.FirstPongDecides := by
  obtain ⟨p, others, d, split, settled, hrun, delivered⟩ := x.first_settles found few
  have final : Settled x (run (step env) c x.events)
      ([⟨some x.r.node, resultRecord (answered x.s x.r x.t p)⟩] ++
        others.map fun p => ⟨none, dupRecord p.data p.now⟩) := by
    rw [hrun]
    rcases rest with single | late
    · rw [split, List.length_cons] at single
      have none : others = [] := List.eq_nil_of_length_eq_zero (by omega)
      subst none
      simpa using settled
    · exact settled.pongs found late others (fun q hq => x.pongs q (by simp [split, hq])) delivered
  refine ⟨_, final.reports, ⟨p, by simp [split], ?_⟩, ?_⟩
  · simp [resultRecord, resultState_ne_dup, dupRecord]
  · simp [resultRecord, resultState_ne_dup, dupRecord, split, List.countP_map]

end Decides

/-- Exactly when the first PONG decides the result and the others are DUPs:
the records find the probe, at most one PONG precedes the TIME record and, if
there are others, a late PONG of this probe is reported. -/
theorem first_pong_decides_iff (env : Env) (c : Client) (x : Exchange env c) :
    x.FirstPongDecides ↔
      x.Found ∧ x.before.length ≤ 1 ∧ ((x.before ++ x.after).length = 1 ∨ x.LateIsDup) := by
  constructor
  · intro h
    have found : x.Found := by
      by_contra lost
      exact x.not_decides_of_not_found lost h
    exact ⟨found, x.few_of_decides found h, x.late_of_decides found h⟩
  · rintro ⟨found, few, rest⟩
    exact x.decides found few rest

/-! ### One probe with two PONGs

The second PONG comes 4 µs after the first; the TIME record comes between them
or after both. -/

def sampleEnv : Env := ⟨2147483646, 0, fun _ => true, fun _ => none⟩

def sampleRes : Res := ⟨0, ⟨90, 0⟩, MASK_PING, 1, 7, 1, ⟨100, 0⟩, .zero, .zero, .zero⟩

def sampleSession : Msess :=
  { Msess.zero with
    id := 7, res := [sampleRes], dst := ⟨1⟩, msecInterval := 1000, gotHello := true, lastSeq := 1 }

def sampleClient : Client := { op := .daemon, msessHead := [sampleSession], nodes := 1 }

def sampleTime : Data := ⟨TYPE_TIME, 1, 7, ⟨100, 300⟩, ⟨100, 400⟩⟩

def samplePong (t4 : Ts) : Pong := ⟨⟨TYPE_PONG, 1, 7, .zero, .zero⟩, t4, 0, ⟨91, 0⟩⟩

def sampleExchange (before after : List Ts) (nonempty : before ++ after ≠ [])
    (delivered : Delivered sampleEnv sampleClient (deliveries ⟨1⟩ sampleTime ⟨91, 0⟩
      (before.map samplePong) (after.map samplePong))) : Exchange sampleEnv sampleClient where
  pre := []
  s := sampleSession
  post := []
  newer := []
  r := sampleRes
  older := []
  a := ⟨1⟩
  t := sampleTime
  tnow := ⟨91, 0⟩
  before := before.map samplePong
  after := after.map samplePong
  sessions := rfl
  entries := rfl
  session := rfl
  distinct := by decide
  fresh := rfl
  time := ⟨⟨rfl, rfl, rfl⟩, rfl⟩
  pongs := by
    intro p hp
    rw [← List.map_append] at hp
    obtain ⟨t4, -, rfl⟩ := List.mem_map.mp hp
    exact ⟨⟨rfl, rfl, rfl⟩, rfl⟩
  nonempty := by simpa using nonempty
  delivered := delivered

theorem pong_time_pong_decides :
    (sampleExchange [⟨100, 1000⟩] [⟨100, 5000⟩] (by simp)
      ⟨rfl, rfl, rfl, trivial⟩).FirstPongDecides := by
  refine (first_pong_decides_iff _ _ _).mpr ⟨⟨?_, ?_⟩, ?_, Or.inr ⟨?_, ?_⟩⟩
  · simp [sampleExchange]
  · simp [sampleExchange]
  · simp [sampleExchange]
  · simp [sampleExchange]
  · exact ⟨sampleSession, by simp [sampleClient], rfl, rfl, by decide⟩

/-- With the TIME record last, the second PONG sets T4 and no DUP is reported. -/
theorem pong_pong_time_overwrites :
    ¬ (sampleExchange [⟨100, 1000⟩, ⟨100, 5000⟩] [] (by simp)
      ⟨rfl, rfl, rfl, trivial⟩).FirstPongDecides := by
  rintro ⟨news, hnews, -, dups⟩
  have reports : news = [⟨some 0, resultRecord (answered sampleSession sampleRes sampleTime
      (samplePong ⟨100, 5000⟩))⟩] := hnews.symm
  subst reports
  exact absurd dups (by decide)

end Baseliner.ProbedArrivalOrder
