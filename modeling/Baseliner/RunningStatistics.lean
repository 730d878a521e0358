import Baseliner.MembenchTimeit
import Baseliner.ProbedClassification
import Baseliner.ProbedConservation

/-! The running statistics of client mode and of membench. `client_res_update` has three
accumulators that share the counter `res_ok`: after every run they hold the statistics of the
probes completed with success in it. -/

namespace Baseliner.RunningStatistics

open GuardedRuns ListSearch OnlineMoments ProbedTime ProbedClient ProbedClassification
open ProbedConservation (Quiet clientResUpdate_op clientMsessTransmit_quiet
  clientMsessForkall_quiet)

structure Forward (t : Ts) : Prop where
  normal : t.Normal
  nonneg : 0 ≤ t.tvSec

def nanos (xs : List Ts) : List ℚ := xs.map fun x => (x.nanoseconds : ℚ)

structure Batch (xs : List Ts) (a : Accum) : Prop where
  mean : a.mean = OnlineMoments.mean (nanos xs)
  m2 : a.m2 = squaredDeviations (nanos xs)
  min : xs = [] ∧ a.min.tvSec = -1 ∨
    a.min ∈ xs ∧ ∀ x ∈ xs, a.min.nanoseconds ≤ x.nanoseconds
  max : xs = [] ∧ a.max = .zero ∨
    a.max ∈ xs ∧ ∀ x ∈ xs, x.nanoseconds ≤ a.max.nanoseconds

section Accumulator

variable {xs : List Ts} {a : Accum} {x : Ts}

theorem batch_nil : Batch [] {} :=
  ⟨by simp [nanos, OnlineMoments.mean], by simp [nanos, squaredDeviations, deviationsFrom],
    .inl ⟨rfl, rfl⟩, .inl ⟨rfl, rfl⟩⟩

theorem Forward.eq_zero (h : Forward x) (small : x.nanoseconds ≤ 0) : x = .zero := by
  obtain ⟨⟨low, _⟩, sec⟩ := h
  rw [Ts.nanoseconds] at small
  cases x
  simp only [Ts.zero, Ts.mk.injEq] at *
  omega

theorem add_mean (h : Batch xs a) :
    (a.add x (xs.length + 1)).mean = OnlineMoments.mean (nanos (xs ++ [x])) := by
  have split : nanos (xs ++ [x]) = nanos xs ++ [(x.nanoseconds : ℚ)] := by simp [nanos]
  rw [split, mean_concat, ← h.mean, Accum.add, nanos, List.length_map]
  push_cast
  rfl

theorem add_m2 (h : Batch xs a) :
    (a.add x (xs.length + 1)).m2 = squaredDeviations (nanos (xs ++ [x])) := by
  have split : nanos (xs ++ [x]) = nanos xs ++ [(x.nanoseconds : ℚ)] := by simp [nanos]
  have mean := add_mean (x := x) h
  rw [split] at mean ⊢
  rw [squaredDeviations_concat, ← mean, ← h.m2, ← h.mean]
  rfl

/-- The sentinel goes with the first sample; after that the least one stays. -/
theorem add_min (h : Batch xs a) (good : ∀ y ∈ xs, Forward y) (fx : Forward x) :
    (a.add x (xs.length + 1)).min ∈ xs ++ [x] ∧
      ∀ y ∈ xs ++ [x], (a.add x (xs.length + 1)).min.nanoseconds ≤ y.nanoseconds := by
  rcases h.min with ⟨rfl, sentinel⟩ | ⟨mem, least⟩
  · simp [Accum.add, sentinel]
  · have sec := (good _ mem).nonneg
    have test := (cmpTs_spec (good _ mem).normal fx.normal).2
    have min : (a.add x (xs.length + 1)).min = if cmpTs a.min x = 1 then x else a.min := by
      rw [Accum.add]
      simp only [if_neg (show ¬ a.min.tvSec = -1 by omega)]
    rw [min]
    split_ifs with less
    · refine ⟨by simp, fun y hy => ?_⟩
      rcases List.mem_append.mp hy with old | new
      · exact (test.mp less).le.trans (least y old)
      · rw [List.mem_singleton.mp new]
    · refine ⟨List.mem_append_left _ mem, fun y hy => ?_⟩
      rcases List.mem_append.mp hy with old | new
      · exact least y old
      · rw [List.mem_singleton.mp new]
        exact not_lt.mp (mt test.mpr less)

theorem add_max (h : Batch xs a) (good : ∀ y ∈ xs, Forward y) (fx : Forward x) :
    (a.add x (xs.length + 1)).max ∈ xs ++ [x] ∧
      ∀ y ∈ xs ++ [x], y.nanoseconds ≤ (a.add x (xs.length + 1)).max.nanoseconds := by
  have max : (a.add x (xs.length + 1)).max = if cmpTs a.max x = -1 then x else a.max := rfl
  rw [max]
  rcases h.max with ⟨rfl, start⟩ | ⟨mem, greatest⟩
  · have test := (cmpTs_spec (a := Ts.zero) (by decide) fx.normal).1
    rw [start]
    split_ifs with more
    · simp
    · rw [fx.eq_zero (not_lt.mp (mt test.mpr more))]
      simp
  · have test := (cmpTs_spec (good _ mem).normal fx.normal).1
    split_ifs with more
    · refine ⟨by simp, fun y hy => ?_⟩
      rcases List.mem_append.mp hy with old | new
      · exact (greatest y old).trans (test.mp more).le
      · rw [List.mem_singleton.mp new]
    · refine ⟨List.mem_append_left _ mem, fun y hy => ?_⟩
      rcases List.mem_append.mp hy with old | new
      · exact greatest y old
      · rw [List.mem_singleton.mp new]
        exact not_lt.mp (mt test.mpr more)

theorem add_batch (h : Batch xs a) (good : ∀ y ∈ xs, Forward y) (fx : Forward x) :
    Batch (xs ++ [x]) (a.add x (xs.length + 1)) :=
  ⟨add_mean h, add_m2 h, .inr (add_min h good fx), .inr (add_max h good fx)⟩

end Accumulator

/-! ### Completed probes -/

section Results

variable {rs : List Res} {s t : Stats} {r : Res}

/-- The counter and the three accumulators are those of the probes `rs`. -/
structure Tracks (rs : List Res) (s : Stats) : Prop where
  resOk : s.resOk = rs.length
  resRtt : Batch (rs.map fun r => (rttTime r).1) s.resRtt
  totalRtt : Batch (rs.map fun r => (totalTime r).1) s.totalRtt
  kernelOH : Batch (rs.map fun r => (serverTime r).1) s.kernelOH

structure SameAccums (s t : Stats) : Prop where
  resOk : t.resOk = s.resOk
  resRtt : t.resRtt = s.resRtt
  totalRtt : t.totalRtt = s.totalRtt
  kernelOH : t.kernelOH = s.kernelOH

theorem SameAccums.refl (s : Stats) : SameAccums s s := ⟨rfl, rfl, rfl, rfl⟩

theorem SameAccums.trans {u : Stats} (h : SameAccums s t) (k : SameAccums t u) : SameAccums s u :=
  ⟨k.resOk.trans h.resOk, k.resRtt.trans h.resRtt, k.totalRtt.trans h.totalRtt,
    k.kernelOH.trans h.kernelOH⟩

theorem Tracks.of_same (h : Tracks rs s) (same : SameAccums s t) : Tracks rs t := by
  refine ⟨same.resOk.trans h.resOk, ?_, ?_, ?_⟩
  · rw [same.resRtt]
    exact h.resRtt
  · rw [same.totalRtt]
    exact h.totalRtt
  · rw [same.kernelOH]
    exact h.kernelOH

theorem totalTime_forward (h : NormalStamps r) : Forward (totalTime r).1 :=
  ⟨(diffTs_spec h.t4 h.t1).1, (diffTs_spec h.t4 h.t1).2.1⟩

theorem serverTime_forward (h : NormalStamps r) : Forward (serverTime r).1 :=
  ⟨(diffTs_spec h.t3 h.t2).1, (diffTs_spec h.t3 h.t2).2.1⟩

theorem rttTime_forward (h : NormalStamps r) : Forward (rttTime r).1 := by
  have rtt := diffTs_spec (totalTime_forward h).normal (serverTime_forward h).normal
  exact ⟨rtt.1, rtt.2.1⟩

theorem add_sample {sample : Res → Ts} {a : Accum} {n : Int}
    (forward : ∀ {r}, NormalStamps r → Forward (sample r)) (h : Batch (rs.map sample) a)
    (count : n = rs.length) (old : ∀ r ∈ rs, NormalStamps r) (new : NormalStamps r) :
    Batch ((rs ++ [r]).map sample) (a.add (sample r) (n + 1)) := by
  have good : ∀ y ∈ rs.map sample, Forward y := by
    intro y hy
    obtain ⟨r', mem, rfl⟩ := List.mem_map.mp hy
    exact forward (old r' mem)
  have next := add_batch h good (forward new)
  rw [List.length_map, ← count] at next
  rw [List.map_append]
  exact next

theorem complete_success (thold : Int) (h : Tracks rs s) (old : ∀ r ∈ rs, NormalStamps r)
    (new : NormalStamps r) (ok : resultState r = .success) :
    Tracks (rs ++ [r]) (s.complete thold r) := by
  rw [Stats.complete, ok]
  refine ⟨?_, ?_, ?_, ?_⟩
  · simp [h.resOk]
  · exact add_sample rttTime_forward h.resRtt h.resOk old new
  · exact add_sample totalTime_forward h.totalRtt h.resOk old new
  · exact add_sample serverTime_forward h.kernelOH h.resOk old new

theorem complete_same (thold : Int) (s : Stats) (bad : resultState r ≠ .success) :
    SameAccums s (s.complete thold r) := by
  rcases resultState_cases r with ok | wrong | wrong
  · exact absurd ok bad
  · rw [Stats.complete, wrong]
    exact ⟨rfl, rfl, rfl, rfl⟩
  · rw [Stats.complete, wrong]
    exact ⟨rfl, rfl, rfl, rfl⟩

theorem expire_same (r : Res) (s : Stats) : SameAccums s (s.expire r) := by
  unfold Stats.expire
  rcases timeoutState_cases r with h | h | h <;> rw [h] <;> exact ⟨rfl, rfl, rfl, rfl⟩

end Results

/-! ### Runs of client mode -/

/-- The probe a call of `client_res_update` completes. -/
def completed (a : Addr) (d : Data) (ts : Option Ts) (dscp : Int) (c : Client) : Option Res :=
  match splitFirst (fun s : Msess => s.id == d.id) c.msessHead with
  | none => none
  | some (_, s, _) =>
      match splitFirst (matchesRes a d) s.res with
      | none => none
      | some (_, r, _) =>
          let r := updateRes s d ts dscp r
          if r.state &&& MASK_DONE = MASK_DONE then some r else none

def completedBy (c : Client) : Event → Option Res
  | .udp a d ts dscp _ => if d.type = TYPE_PONG then completed a d (some ts) dscp.toNat c else none
  | .pipe a d _ => if d.type = TYPE_TIME then completed a d none (-1) c else none
  | _ => none

def successBy (c : Client) (e : Event) : List Res :=
  if c.exited then [] else ((completedBy c e).filter (resultState · = .success)).toList

def successes (env : Env) : Client → List Event → List Res
  | _, [] => []
  | c, e :: es => successBy c e ++ successes env (step env c e) es

section Runs

variable {env : Env} {c : Client} {rs : List Res}

theorem clientResUpdate_stats (env : Env) (a : Addr) (d : Data) (ts : Option Ts) (dscp : Int)
    (now : Ts) (mode : c.op = .client) :
    SameAccums ((completed a d ts dscp c).elim c.stats (c.stats.complete env.thold))
      (clientResUpdate env a d ts dscp now c).stats := by
  unfold completed
  cases hs : splitFirst (fun s : Msess => s.id == d.id) c.msessHead with
  | none =>
      simp only [clientResUpdate, hs]
      exact .refl _
  | some found =>
      obtain ⟨pre, s, post⟩ := found
      cases hr : splitFirst (matchesRes a d) s.res with
      | some match_ =>
          obtain ⟨newer, r, older⟩ := match_
          by_cases done : (updateRes s d ts dscp r).state &&& MASK_DONE = MASK_DONE
          · rw [clientResUpdate_done hs hr done]
            simp only [hr, done, if_true, Option.elim, checkLimit, completeRes, mode]
            exact .refl _
          · rw [clientResUpdate_open hs hr done]
            simp only [hr, done, if_false]
            exact .refl _
      | none =>
          rw [clientResUpdate_late hs hr]
          simp only [hr]
          split_ifs
          · simp only [reportDup, mode, if_true]
            exact ⟨rfl, rfl, rfl, rfl⟩
          · exact .refl _

theorem clearRes_same (env : Env) (now : Ts) (rs : List Res) (c : Client) :
    SameAccums c.stats (clearRes env now rs c).2.stats ∧ (clearRes env now rs c).2.op = c.op := by
  induction rs generalizing c with
  | nil => exact ⟨.refl _, rfl⟩
  | cons r rs ih =>
      unfold clearRes
      split_ifs
      · exact ⟨.refl _, rfl⟩
      · have expired : SameAccums c.stats (expireRes env r c).stats := by
          unfold expireRes
          dsimp only
          split_ifs
          · exact expire_same r c.stats
          · exact .refl _
        exact ⟨expired.trans (ih _).1, (ih _).2⟩

theorem clearSessions_same (env : Env) (now : Ts) (ss : List Msess) (c : Client) :
    SameAccums c.stats (clearSessions env now ss c).2.stats ∧
      (clearSessions env now ss c).2.op = c.op := by
  induction ss generalizing c with
  | nil => exact ⟨.refl _, rfl⟩
  | cons s ss ih =>
      have own := clearRes_same env now s.res.reverse c
      have rest := ih (clearRes env now s.res.reverse c).2
      exact ⟨own.1.trans rest.1, rest.2.trans own.2⟩

theorem tracks_update (h : Tracks rs c.stats) {found : Option Res} {t : Stats}
    (same : SameAccums (found.elim c.stats (c.stats.complete env.thold)) t)
    (old : ∀ r ∈ rs, NormalStamps r)
    (new : ∀ r ∈ (found.filter (resultState · = .success)).toList, NormalStamps r) :
    Tracks (rs ++ (found.filter (resultState · = .success)).toList) t := by
  cases found with
  | none =>
      rw [Option.filter_none, Option.toList_none, List.append_nil]
      exact h.of_same same
  | some r =>
      by_cases ok : resultState r = .success
      · simp only [Option.filter_some, ok, decide_true, if_true, Option.toList_some] at new ⊢
        exact (complete_success env.thold h old (new r (List.mem_singleton_self r)) ok).of_same same
      · simp only [Option.filter_some, ok, decide_false, Bool.false_eq_true, if_false,
          Option.toList_none, List.append_nil]
        exact h.of_same ((complete_same env.thold c.stats ok).trans same)

theorem step_tracks (h : Tracks rs c.stats) (mode : c.op = .client) (e : Event)
    (old : ∀ r ∈ rs, NormalStamps r) (new : ∀ r ∈ successBy c e, NormalStamps r) :
    Tracks (rs ++ successBy c e) (step env c e).stats ∧ (step env c e).op = .client := by
  have quiet {d : Client} (q : Quiet c d) : Tracks (rs ++ []) d.stats ∧ d.op = .client := by
    rw [List.append_nil, q.stats]
    exact ⟨h, q.op.trans mode⟩
  unfold successBy step at *
  by_cases ended : c.exited = true
  · simp only [ended, if_true]
    exact quiet (.refl c)
  simp only [ended, Bool.false_eq_true, if_false] at new ⊢
  cases e with
  | transmit sends send => exact quiet (clientMsessTransmit_quiet sends send c)
  | udp a d ts dscp now =>
      simp only [completedBy, handle] at new ⊢
      split_ifs at new ⊢
      · exact ⟨tracks_update h (clientResUpdate_stats env a d (some ts) _ now mode) old new,
          (clientResUpdate_op env a d (some ts) _ now c).trans mode⟩
      · exact quiet (.refl c)
  | pipe a d now =>
      simp only [completedBy, handle] at new ⊢
      by_cases hello : d.type = TYPE_HELO
      · simp only [hello, if_true, if_neg (show ¬ TYPE_HELO = TYPE_TIME by decide)]
        exact quiet ⟨rfl, rfl, rfl⟩
      · simp only [if_neg hello]
        split_ifs at new ⊢
        · exact ⟨tracks_update h (clientResUpdate_stats env a d none (-1) now mode) old new,
            (clientResUpdate_op env a d none (-1) now c).trans mode⟩
        · exact quiet (.refl c)
  | clearTimeouts now =>
      have cleared := clearSessions_same env now c.msessHead c
      refine ⟨?_, cleared.2.trans mode⟩
      change Tracks (rs ++ []) _
      rw [List.append_nil]
      exact h.of_same cleared.1
  | reload cfgdoc fork =>
      have kept : (clientMsessReconf env cfgdoc c).1 = c := by
        simp [clientMsessReconf, mode]
      simp only [handle]
      rw [kept]
      exact quiet (clientMsessForkall_quiet fork c)
  | childExit pid => exact quiet ⟨rfl, rfl, rfl⟩

theorem run_tracks (es : List Event) (h : Tracks rs c.stats) (mode : c.op = .client)
    (old : ∀ r ∈ rs, NormalStamps r) (new : ∀ r ∈ successes env c es, NormalStamps r) :
    Tracks (rs ++ successes env c es) (run (step env) c es).stats := by
  induction es generalizing c rs with
  | nil => simpa [successes] using h
  | cons e es ih =>
      rw [successes, List.forall_mem_append] at new
      have first : Tracks (rs ++ successBy c e) (step env c e).stats ∧
          (step env c e).op = .client := step_tracks h mode e old new.1
      have rest := ih first.1 first.2 (List.forall_mem_append.mpr ⟨old, new.1⟩) new.2
      rw [List.append_assoc] at rest
      exact rest

end Runs

/-- After every run of client mode the three accumulators hold the statistics of the probes
completed with success, and after every loop of membench its accumulator holds those of the
bandwidths. -/
theorem statistics_are_batch (env : Env) (dst : Addr) (wait : Int) (es : List Event)
    (normal : ∀ r ∈ successes env (clientStart dst wait) es, NormalStamps r)
    (maxThreads : ℕ) (readings : List MembenchTimeit.Reading)
    (positive : ∀ r ∈ readings, 0 < MembenchTimeit.total r) :
    Tracks (successes env (clientStart dst wait) es)
        (run (step env) (clientStart dst wait) es).stats ∧
      MembenchTimeit.Batch (readings.map MembenchTimeit.total) (MembenchTimeit.timeit readings) ∧
      ∀ s, MembenchTimeit.timeitp maxThreads readings = some s →
        MembenchTimeit.Batch (readings.map MembenchTimeit.total) s := by
  refine ⟨?_, MembenchTimeit.timeit_batch readings positive,
    fun s finished => MembenchTimeit.timeitp_batch finished positive⟩
  have start : Tracks [] (clientStart dst wait).stats := ⟨rfl, batch_nil, batch_nil, batch_nil⟩
  exact run_tracks es start rfl (fun _ none => nomatch none) normal

def threePackets : Env := ⟨3, 0, fun _ => true, fun _ => none⟩

/-- The server says hello, and two probes are sent at seconds 1 and 2 and answered. -/
def twoProbes : List Event :=
  [.pipe ⟨0⟩ ⟨TYPE_HELO, 0, 0, .zero, .zero⟩ ⟨1, 0⟩,
    .transmit 0 fun _ => ⟨some ⟨1, 0⟩, ⟨1, 0⟩⟩,
    .pipe ⟨0⟩ ⟨TYPE_TIME, 1, 0, ⟨5, 0⟩, ⟨5, 2000⟩⟩ ⟨1, 0⟩,
    .udp ⟨0⟩ ⟨TYPE_PONG, 1, 0, .zero, .zero⟩ ⟨1, 9000⟩ 0 ⟨1, 9500⟩,
    .transmit 1000 fun _ => ⟨some ⟨2, 0⟩, ⟨2, 0⟩⟩,
    .pipe ⟨0⟩ ⟨TYPE_TIME, 2, 0, ⟨6, 0⟩, ⟨6, 4000⟩⟩ ⟨2, 0⟩,
    .udp ⟨0⟩ ⟨TYPE_PONG, 2, 0, .zero, .zero⟩ ⟨2, 15000⟩ 0 ⟨2, 15500⟩]

def twoSuccesses : List Res :=
  [⟨0, ⟨1, 0⟩, MASK_DONE, 0, 0, 1, ⟨1, 0⟩, ⟨5, 0⟩, ⟨5, 2000⟩, ⟨1, 9000⟩⟩,
    ⟨1, ⟨2, 0⟩, MASK_DONE, 0, 0, 2, ⟨2, 0⟩, ⟨6, 0⟩, ⟨6, 4000⟩, ⟨2, 15000⟩⟩]

theorem successes_twoProbes :
    successes threePackets (clientStart ⟨0⟩ 1000) twoProbes = twoSuccesses := by
  decide +kernel

theorem statistics_are_batch_twoProbes :
    (Tracks twoSuccesses (run (step threePackets) (clientStart ⟨0⟩ 1000) twoProbes).stats ∧
      MembenchTimeit.Batch ([⟨3, 4⟩, ⟨5, 7⟩].map MembenchTimeit.total)
        (MembenchTimeit.timeit [⟨3, 4⟩, ⟨5, 7⟩]) ∧
      ∀ s, MembenchTimeit.timeitp 8 [⟨3, 4⟩, ⟨5, 7⟩] = some s →
        MembenchTimeit.Batch ([⟨3, 4⟩, ⟨5, 7⟩].map MembenchTimeit.total) s) ∧
    (MembenchTimeit.timeitp 8 [⟨3, 4⟩, ⟨5, 7⟩]).isSome := by
  have batch := statistics_are_batch threePackets ⟨0⟩ 1000 twoProbes (by
    rw [successes_twoProbes, twoSuccesses, List.forall_mem_cons, List.forall_mem_singleton]
    exact ⟨⟨by decide, by decide, by decide, by decide⟩,
      by decide, by decide, by decide, by decide⟩) 8 [⟨3, 4⟩, ⟨5, 7⟩] (by decide +kernel)
  rw [successes_twoProbes] at batch
  exact ⟨batch, rfl⟩

end Baseliner.RunningStatistics
