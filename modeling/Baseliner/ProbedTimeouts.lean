import Mathlib.Algebra.Order.Ring.Int
import Mathlib.Data.List.Forall2
import Mathlib.Data.List.TakeWhile
import Baseliner.ProbedClient

/-! The timeouts of the probes. `client_res_clear_timeouts` goes through a session's probes
from the oldest and stops at the first young one. It looks at the seconds of `diff_ts` and
not at its sign, so that a probe from far ahead of the clock is as old as one from long ago. -/

namespace Baseliner.ProbedTimeouts

open GuardedRuns ListSearch ProbedTime ProbedClient

variable {env : Env} {now : Ts} {r : Res} {s : Msess} {c : Client}

/-- So many nanoseconds are more than `TIMEOUT` seconds. -/
def timeoutNanoseconds : Int := (TIMEOUT + 1) * 1000000000

/-- The probe is `TIMEOUT` + 1 seconds old or more. -/
def IsOld (now : Ts) (r : Res) : Prop :=
  timeoutNanoseconds ≤ now.nanoseconds - r.created.nanoseconds

def IsAhead (now : Ts) (r : Res) : Prop :=
  timeoutNanoseconds ≤ r.created.nanoseconds - now.nanoseconds

instance (now : Ts) (r : Res) : Decidable (IsAhead now r) := inferInstanceAs (Decidable (_ ≤ _))

def expires (now : Ts) (r : Res) : Bool := !decide ((diffTs now r.created).1.tvSec ≤ TIMEOUT)

theorem expires_iff (clock : now.Normal) (created : r.created.Normal) :
    expires now r = true ↔ IsOld now r ∨ IsAhead now r := by
  obtain ⟨⟨low, high⟩, _, _, size⟩ := diffTs_spec clock created
  rw [expires, Bool.not_eq_true', decide_eq_false_iff_not, IsOld, IsAhead, timeoutNanoseconds,
    TIMEOUT]
  rw [Ts.nanoseconds] at size
  split_ifs at size <;> omega

section Sessions

/-- What a call leaves of a session's probes, and what it removes. -/
def keptRes (now : Ts) (res : List Res) : List Res := (res.reverse.dropWhile (expires now)).reverse

def removedRes (now : Ts) (res : List Res) : List Res :=
  (res.reverse.takeWhile (expires now)).reverse

theorem kept_append_removed (now : Ts) (res : List Res) :
    keptRes now res ++ removedRes now res = res := by
  rw [keptRes, removedRes, ← List.reverse_append, List.takeWhile_append_dropWhile,
    List.reverse_reverse]

theorem clearRes_fst (env : Env) (now : Ts) (res : List Res) (c : Client) :
    (clearRes env now res c).1 = res.dropWhile (expires now) := by
  induction res generalizing c with
  | nil => rfl
  | cons r res ih =>
      rw [clearRes, List.dropWhile_cons, expires]
      by_cases young : (diffTs now r.created).1.tvSec ≤ TIMEOUT
      · rw [if_pos young, decide_eq_true young]
        rfl
      · rw [if_neg young, decide_eq_false young, ih]
        rfl

theorem clearSessions_fst (env : Env) (now : Ts) (ss : List Msess) (c : Client) :
    (clearSessions env now ss c).1 = ss.map fun s => { s with res := keptRes now s.res } := by
  induction ss generalizing c with
  | nil => rfl
  | cons s ss ih =>
      rw [clearSessions]
      dsimp only
      rw [ih, clearRes_fst]
      rfl

theorem clientResClearTimeouts_msessHead (env : Env) (now : Ts) (c : Client) :
    (clientResClearTimeouts env now c).msessHead =
      c.msessHead.map fun s => { s with res := keptRes now s.res } :=
  clearSessions_fst env now c.msessHead c

end Sessions

section Calls

/-- A probe is inserted, or the probes are looked through; both read the clock. -/
inductive Call
  | insert (a : Addr) (d : Data) (ts now : Ts)
  | clear (now : Ts)

def Call.reading : Call → Ts
  | .insert _ _ _ now => now
  | .clear now => now

def act (env : Env) (c : Client) : Call → Client
  | .insert a d ts now => clientResInsert a d ts now c
  | .clear now => clientResClearTimeouts env now c

def ClearsOnlyOld (env : Env) (c : Client) : Call → Prop
  | .insert .. => True
  | .clear now =>
      List.Forall₂ (fun s s' : Msess => ∃ removed, s.res = s'.res ++ removed ∧
        ∀ r ∈ removed, IsOld now r) c.msessHead (clientResClearTimeouts env now c).msessHead

def ClearsAllOld (env : Env) (c : Client) : Call → Prop
  | .insert .. => True
  | .clear now =>
      ∀ s ∈ (clientResClearTimeouts env now c).msessHead, ∀ r ∈ s.res, ¬ IsOld now r

/-- No probe is ahead of the clock without a young one inserted before it. -/
def NoneAhead (c : Client) : Call → Prop
  | .insert .. => True
  | .clear now =>
      ∀ s ∈ c.msessHead, ∀ newer r older, s.res = newer ++ r :: older →
        (∀ q ∈ older, IsOld now q ∨ IsAhead now q) → ¬ IsAhead now r

def Stamped (c : Client) : Prop := ∀ s ∈ c.msessHead, ∀ r ∈ s.res, r.created.Normal

instance (c : Client) : Decidable (Stamped c) :=
  inferInstanceAs (Decidable (∀ s ∈ c.msessHead, ∀ r ∈ s.res, r.created.Normal))

theorem mem_removedRes_iff (clock : now.Normal) {res : List Res}
    (stamped : ∀ r ∈ res, r.created.Normal) :
    r ∈ removedRes now res ↔ ∃ newer older, res = newer ++ r :: older ∧
      ∀ q ∈ r :: older, IsOld now q ∨ IsAhead now q := by
  have away {q : Res} (hq : q ∈ res) : expires now q = true ↔ IsOld now q ∨ IsAhead now q :=
    expires_iff clock (stamped q hq)
  constructor
  · intro member
    obtain ⟨newer, older, split⟩ := List.append_of_mem member
    have whole : res = keptRes now res ++ newer ++ r :: older := by
      rw [List.append_assoc, ← split, kept_append_removed]
    refine ⟨_, older, whole, ?_⟩
    intro q hq
    have inside : q ∈ res := by
      rw [whole]
      exact List.mem_append_right _ hq
    have removed : q ∈ removedRes now res := by
      rw [split]
      exact List.mem_append_right _ hq
    exact (away inside).mp (List.mem_takeWhile_imp (List.mem_reverse.mp removed))
  · rintro ⟨newer, older, split, far⟩
    have all : ∀ q ∈ (r :: older).reverse, expires now q = true := by
      intro q hq
      have member := List.mem_reverse.mp hq
      refine (away ?_).mpr (far q member)
      rw [split]
      exact List.mem_append_right _ member
    rw [removedRes, List.mem_reverse, split, List.reverse_append, List.takeWhile_append_of_pos all]
    exact List.mem_append_left _ (List.mem_reverse.mpr (List.mem_cons_self ..))

theorem isAhead_not_isOld (ahead : IsAhead now r) : ¬ IsOld now r := by
  simp only [IsAhead, IsOld, timeoutNanoseconds, TIMEOUT] at *
  omega

theorem clearsOnlyOld_iff {call : Call} (clock : call.reading.Normal) (stamped : Stamped c) :
    ClearsOnlyOld env c call ↔ NoneAhead c call := by
  cases call with
  | insert a d ts now => exact Iff.rfl
  | clear now =>
      rw [ClearsOnlyOld, NoneAhead, clientResClearTimeouts_msessHead, List.forall₂_map_right_iff,
        List.forall₂_same]
      refine forall₂_congr fun s hs => ?_
      have mem {r : Res} := mem_removedRes_iff (r := r) clock (stamped s hs)
      constructor
      · rintro ⟨removed, split, old⟩ newer r older whole away ahead
        have same : removed = removedRes now s.res :=
          List.append_cancel_left (split.symm.trans (kept_append_removed now s.res).symm)
        refine isAhead_not_isOld ahead (old r ?_)
        rw [same]
        refine mem.mpr ⟨newer, older, whole, ?_⟩
        rw [List.forall_mem_cons]
        exact ⟨.inr ahead, away⟩
      · intro behind
        refine ⟨removedRes now s.res, (kept_append_removed now s.res).symm, ?_⟩
        intro r hr
        obtain ⟨newer, older, whole, away⟩ := mem.mp hr
        rw [List.forall_mem_cons] at away
        exact away.1.resolve_right (behind newer r older whole away.2)

end Calls

section Runs

/-- The newest probe of every session comes first, and none is newer than a time. -/
structure Ordered (latest : Int) (c : Client) : Prop where
  sorted : ∀ s ∈ c.msessHead, s.res.Pairwise fun newer older =>
    older.created.nanoseconds ≤ newer.created.nanoseconds
  past : ∀ s ∈ c.msessHead, ∀ r ∈ s.res, r.created.nanoseconds ≤ latest

/-- An insertion puts the new probe before the others of one session. -/
theorem mem_clientResInsert {a : Addr} {d : Data} {ts : Ts}
    (member : s ∈ (clientResInsert a d ts now c).msessHead) :
    s ∈ c.msessHead ∨ ∃ t ∈ c.msessHead, ∃ r : Res, r.created = now ∧ s.res = r :: t.res := by
  unfold clientResInsert at member
  cases found : splitLast (fun s : Msess => s.id == d.id) c.msessHead with
  | none =>
      rw [found] at member
      exact .inl member
  | some split =>
      obtain ⟨pre, t, post⟩ := split
      have whole := (splitLast_spec found).1
      rw [found] at member
      dsimp only at member
      rw [whole]
      rcases List.mem_append.mp member with before | here
      · exact .inl (List.mem_append_left _ before)
      · rcases List.mem_cons.mp here with rfl | after
        · exact .inr ⟨t, by simp, _, rfl, rfl⟩
        · exact .inl (List.mem_append_right _ (List.mem_cons_of_mem _ after))

theorem keptRes_sublist (now : Ts) (res : List Res) : List.Sublist (keptRes now res) res := by
  have front := List.sublist_append_left (keptRes now res) (removedRes now res)
  rwa [kept_append_removed] at front

theorem Stamped.act {call : Call} (clock : call.reading.Normal) (h : Stamped c) :
    Stamped (ProbedTimeouts.act env c call) := by
  cases call with
  | insert a d ts now =>
      intro s hs r hr
      rcases mem_clientResInsert hs with old | ⟨t, ht, q, created, res⟩
      · exact h s old r hr
      · rw [res] at hr
        rcases List.mem_cons.mp hr with rfl | later
        · rw [created]
          exact clock
        · exact h t ht r later
  | clear now =>
      intro s hs r hr
      rw [ProbedTimeouts.act, clientResClearTimeouts_msessHead] at hs
      obtain ⟨t, ht, rfl⟩ := List.mem_map.mp hs
      exact h t ht r ((keptRes_sublist now t.res).subset hr)

theorem Ordered.act {latest : Int} {call : Call} (later : latest ≤ call.reading.nanoseconds)
    (h : Ordered latest c) : Ordered call.reading.nanoseconds (ProbedTimeouts.act env c call) := by
  cases call with
  | insert a d ts now =>
      constructor
      · intro s hs
        rcases mem_clientResInsert hs with old | ⟨t, ht, q, created, res⟩
        · exact h.sorted s old
        · rw [res, List.pairwise_cons, created]
          exact ⟨fun r hr => (h.past t ht r hr).trans later, h.sorted t ht⟩
      · intro s hs r hr
        rcases mem_clientResInsert hs with old | ⟨t, ht, q, created, res⟩
        · exact (h.past s old r hr).trans later
        · rw [res] at hr
          rcases List.mem_cons.mp hr with rfl | earlier
          · rw [created]
            exact le_rfl
          · exact (h.past t ht r earlier).trans later
  | clear now =>
      constructor
      · intro s hs
        rw [ProbedTimeouts.act, clientResClearTimeouts_msessHead] at hs
        obtain ⟨t, ht, rfl⟩ := List.mem_map.mp hs
        exact (h.sorted t ht).sublist (keptRes_sublist now t.res)
      · intro s hs r hr
        rw [ProbedTimeouts.act, clientResClearTimeouts_msessHead] at hs
        obtain ⟨t, ht, rfl⟩ := List.mem_map.mp hs
        exact (h.past t ht r ((keptRes_sublist now t.res).subset hr)).trans later

/-- The first probe that stays is young, and the others are no older. -/
theorem Ordered.clearsAllOld {latest : Int} {call : Call} (clock : call.reading.Normal)
    (stamped : Stamped c) (h : Ordered latest c) : ClearsAllOld env c call := by
  cases call with
  | insert a d ts now => trivial
  | clear now =>
      intro s hs r hr old
      rw [clientResClearTimeouts_msessHead] at hs
      obtain ⟨t, ht, rfl⟩ := List.mem_map.mp hs
      have sorted := (h.sorted t ht).sublist (keptRes_sublist now t.res)
      have member : r ∈ t.res.reverse.dropWhile (expires now) := List.mem_reverse.mp hr
      rw [keptRes, List.pairwise_reverse] at sorted
      cases front : t.res.reverse.dropWhile (expires now) with
      | nil =>
          rw [front] at member
          cases member
      | cons q rest =>
          rw [front] at member sorted
          rw [List.pairwise_cons] at sorted
          have inside : q ∈ t.res := by
            have some_ : q ∈ t.res.reverse.dropWhile (expires now) := by
              rw [front]
              exact List.mem_cons_self ..
            exact List.mem_reverse.mp ((List.dropWhile_sublist _).subset some_)
          have young : ¬ expires now q = true := by
            have := List.head?_dropWhile_not (expires now) t.res.reverse
            rw [front] at this
            simpa using this
          have first : r.created.nanoseconds = q.created.nanoseconds ∨
              q.created.nanoseconds ≤ r.created.nanoseconds := by
            rcases List.mem_cons.mp member with rfl | behind
            · exact .inl rfl
            · exact .inr (sorted.1 r behind)
          have oldest : IsOld now q := by
            rw [IsOld] at old ⊢
            omega
          exact young ((expires_iff clock (stamped t ht q inside)).mpr (.inl oldest))

/-- The clock readings never decrease. -/
def ClockAscends (calls : List Call) : Prop :=
  calls.Pairwise fun x y => x.reading.nanoseconds ≤ y.reading.nanoseconds

theorem along_clearsAllOld (latest : Int) {calls : List Call}
    (clock : ∀ call ∈ calls, call.reading.Normal) (ascends : ClockAscends calls)
    (later : ∀ call ∈ calls, latest ≤ call.reading.nanoseconds) (stamped : Stamped c)
    (ordered : Ordered latest c) : Along (act env) (ClearsAllOld env) c calls := by
  induction calls generalizing c latest with
  | nil => trivial
  | cons call calls ih =>
      rw [ClockAscends, List.pairwise_cons] at ascends
      rw [List.forall_mem_cons] at clock later
      exact ⟨ordered.clearsAllOld clock.1 stamped, ih _ clock.2 ascends.2 ascends.1
        (stamped.act clock.1) (ordered.act later.1)⟩

theorem along_clearsOnlyOld_iff {calls : List Call}
    (clock : ∀ call ∈ calls, call.reading.Normal) (stamped : Stamped c) :
    Along (act env) (ClearsOnlyOld env) c calls ↔ Along (act env) NoneAhead c calls := by
  induction calls generalizing c with
  | nil => exact Iff.rfl
  | cons call calls ih =>
      rw [List.forall_mem_cons] at clock
      exact and_congr (clearsOnlyOld_iff clock.1 stamped) (ih clock.2 (stamped.act clock.1))

/-- Over insertions and clearings from empty lists on: only old probes are removed, and under
a clock that is never set back all of them, exactly when no clearing finds a probe ahead of
the clock with no young one inserted before it. -/
theorem timeouts_right_iff (env : Env) (c : Client) (calls : List Call)
    (clock : ∀ call ∈ calls, call.reading.Normal) (empty : ∀ s ∈ c.msessHead, s.res = []) :
    (Along (act env) (ClearsOnlyOld env) c calls ∧
        (ClockAscends calls → Along (act env) (ClearsAllOld env) c calls)) ↔
      Along (act env) NoneAhead c calls := by
  have stamped : Stamped c := by
    intro s hs r hr
    rw [empty s hs] at hr
    cases hr
  rw [along_clearsOnlyOld_iff clock stamped, and_iff_left_iff_imp]
  intro _ ascends
  cases calls with
  | nil => trivial
  | cons call calls =>
      refine along_clearsAllOld call.reading.nanoseconds clock ascends ?_ stamped ?_
      · rw [List.forall_mem_cons]
        exact ⟨le_rfl, (List.pairwise_cons.mp ascends).1⟩
      · constructor
        · intro s hs
          rw [empty s hs]
          exact List.Pairwise.nil
        · intro s hs r hr
          rw [empty s hs] at hr
          cases hr

theorem noneAhead_clear (h : ∀ s ∈ c.msessHead, ∀ r ∈ s.res, ¬ IsAhead now r) :
    NoneAhead c (.clear now) := by
  intro s hs newer r older split _
  refine h s hs r ?_
  rw [split]
  exact List.mem_append_right _ (List.mem_cons_self ..)

def plainEnv : Env := ⟨10, 0, fun _ => true, fun _ => none⟩

def probeAt (sec : Int) : Call :=
  .insert ⟨0⟩ ⟨TYPE_PING, 1, 0, .zero, .zero⟩ ⟨sec, 0⟩ ⟨sec, 0⟩

theorem timeouts_right_eleven :
    (Along (act plainEnv) (ClearsOnlyOld plainEnv) (clientStart ⟨0⟩ 1000)
        [probeAt 100, .clear ⟨111, 0⟩] ∧
      (ClockAscends [probeAt 100, .clear ⟨111, 0⟩] → Along (act plainEnv) (ClearsAllOld plainEnv)
        (clientStart ⟨0⟩ 1000) [probeAt 100, .clear ⟨111, 0⟩])) ∧
    (run (act plainEnv) (clientStart ⟨0⟩ 1000) [probeAt 100]).pending.length = 1 ∧
    (run (act plainEnv) (clientStart ⟨0⟩ 1000) [probeAt 100, .clear ⟨111, 0⟩]).pending = [] := by
  refine ⟨(timeouts_right_iff plainEnv (clientStart ⟨0⟩ 1000) [probeAt 100, .clear ⟨111, 0⟩]
    (by decide) (by decide)).mpr ⟨trivial, noneAhead_clear (by decide), trivial⟩, ?_, ?_⟩
  · decide
  · decide

/-- The clock is set back by eleven seconds, and the probe of before times out at once. -/
theorem clock_set_back_removes :
    ¬ Along (act plainEnv) (ClearsOnlyOld plainEnv) (clientStart ⟨0⟩ 1000)
      [probeAt 100, .clear ⟨89, 0⟩] := by
  rw [along_clearsOnlyOld_iff (by decide) (by decide)]
  rintro ⟨_, behind, _⟩
  exact behind _ (List.mem_cons_self ..) [] _ [] rfl (by simp) (by decide)

end Runs

end Baseliner.ProbedTimeouts
