import Baseliner.ProbedClient
import Baseliner.TokenLedger

/-! Probe accounting of client mode. The pending entries and the reports of a
client form a token ledger: an insertion issues a token, and a completion or a
timeout settles one. The counters of the summary tally the reports. -/

namespace Baseliner.ProbedConservation
open GuardedRuns ListSearch ProbedTime ProbedClient TokenLedger

/-- The client's ledger, with `pending` given apart for use inside loops. -/
def ledgerOf (c : Client) (pending : Multiset ℕ) : Ledger State where
  issued := c.nodes
  pending := pending
  settled := c.reports.filterMap fun rep => rep.node.map (·, rep.record.state)

def nodesOf (l : List Res) : Multiset ℕ := (l.map (·.node) : List ℕ)

def ledger (c : Client) : Ledger State := ledgerOf c (nodesOf c.pending)

@[simp] theorem nodesOf_nil : nodesOf [] = 0 := rfl

@[simp] theorem nodesOf_cons (r : Res) (l : List Res) :
    nodesOf (r :: l) = r.node ::ₘ nodesOf l := rfl

@[simp] theorem nodesOf_append (l m : List Res) : nodesOf (l ++ m) = nodesOf l + nodesOf m := by
  simp [nodesOf]

@[simp] theorem nodesOf_reverse (l : List Res) : nodesOf l.reverse = nodesOf l := by
  simp [nodesOf]

theorem nodesOf_sessions (pre post : List Msess) (s : Msess) :
    nodesOf ((pre ++ s :: post).flatMap (·.res)) =
      nodesOf s.res + (nodesOf (pre.flatMap (·.res)) + nodesOf (post.flatMap (·.res))) := by
  simp only [List.flatMap_append, List.flatMap_cons, nodesOf_append]
  rw [add_left_comm]

/-! ### What the operations leave alone -/

structure Quiet (c d : Client) : Prop where
  op : d.op = c.op
  stats : d.stats = c.stats
  reports : d.reports = c.reports

theorem Quiet.refl (c : Client) : Quiet c c := ⟨rfl, rfl, rfl⟩

theorem Quiet.trans {c d e : Client} (h : Quiet c d) (k : Quiet d e) : Quiet c e :=
  ⟨k.op.trans h.op, k.stats.trans h.stats, k.reports.trans h.reports⟩

theorem clientResInsert_quiet (a : Addr) (d : Data) (ts now : Ts) (c : Client) :
    Quiet c (clientResInsert a d ts now c) := by
  unfold clientResInsert
  split <;> exact ⟨rfl, rfl, rfl⟩

theorem transmitSession_quiet (sends : Int) (send : Nat → Send) (c : Client) (i : Nat) :
    Quiet c (transmitSession sends send c i) := by
  unfold transmitSession
  split
  · exact .refl c
  · next s _ =>
    split_ifs
    · exact .refl c
    · exact .refl c
    · dsimp only
      split
      · exact ⟨rfl, rfl, rfl⟩
      · next ts _ =>
          have sent : Quiet c { c.setSession i { s with lastSeq := s.lastSeq + 1 } with
              countClientSent := c.countClientSent + 1 } := ⟨rfl, rfl, rfl⟩
          exact sent.trans (clientResInsert_quiet _ _ ts _ _)
    · exact .refl c

theorem clientMsessTransmit_quiet (sends : Int) (send : Nat → Send) (c : Client) :
    Quiet c (clientMsessTransmit sends send c) :=
  foldl_rel Quiet.refl Quiet.trans (transmitSession_quiet sends send) c _

theorem forkSession_quiet (fork : Nat → Int) (c : Client) (i : Nat) :
    Quiet c (forkSession fork c i) := by
  unfold forkSession
  split
  · exact .refl c
  · split_ifs <;> exact ⟨rfl, rfl, rfl⟩

theorem clientMsessForkall_quiet (fork : Nat → Int) (c : Client) :
    Quiet c (clientMsessForkall fork c) :=
  foldl_rel Quiet.refl Quiet.trans (forkSession_quiet fork) c _

/-! ### The ledger of each operation -/

theorem ledger_congr {c d : Client} (nodes : d.nodes = c.nodes) (reports : d.reports = c.reports)
    (pending : d.pending = c.pending) : ledger d = ledger c := by
  simp [ledger, ledgerOf, nodes, reports, pending]

theorem setSession_pending {c : Client} {i : Nat} {s t : Msess} (h : c.msessHead[i]? = some s)
    (res : t.res = s.res) : (c.setSession i t).pending = c.pending := by
  unfold Client.pending Client.setSession
  dsimp only
  generalize c.msessHead = l at h ⊢
  induction l generalizing i with
  | nil => simp at h
  | cons x xs ih =>
      cases i with
      | zero =>
          simp only [List.getElem?_cons_zero, Option.some.injEq] at h
          simp [res, h]
      | succ i => simp [ih (by simpa using h)]

theorem clientResInsert_steps (a : Addr) (d : Data) (ts now : Ts) (c : Client) :
    Steps (ledger c) (ledger (clientResInsert a d ts now c)) := by
  unfold clientResInsert
  split
  · exact .refl
  · next pre s post h =>
      obtain ⟨sessions, -, -⟩ := splitLast_spec h
      refine .single ?_
      have grown : nodesOf (Client.pending { c with
          nodes := c.nodes + 1
          msessHead := pre ++ { s with res :=
            ⟨c.nodes, now, MASK_PING, a.sin6Addr, d.id, d.seq, ts, .zero, .zero, .zero⟩ :: s.res }
              :: post }) = c.nodes ::ₘ nodesOf c.pending := by
        simp only [Client.pending, sessions, nodesOf_sessions, nodesOf_cons, Multiset.cons_add]
      simpa only [ledger, ledgerOf, grown] using Step.issue (ledger c)

theorem transmitSession_steps (sends : Int) (send : Nat → Send) (c : Client) (i : Nat) :
    Steps (ledger c) (ledger (transmitSession sends send c i)) := by
  unfold transmitSession
  split
  · exact .refl
  · next s hs =>
      split_ifs
      · exact .refl
      · exact .refl
      · let sent : Client := { c.setSession i { s with lastSeq := s.lastSeq + 1 } with
          countClientSent := c.countClientSent + 1 }
        have same : ledger sent = ledger c :=
          ledger_congr rfl rfl (setSession_pending hs rfl)
        dsimp only
        split
        · change Steps (ledger c) (ledger sent)
          rw [same]
        · next ts _ =>
            rw [← same]
            exact clientResInsert_steps _ _ ts _ sent
      · exact .refl

theorem clientMsessTransmit_steps (sends : Int) (send : Nat → Send) (c : Client) :
    Steps (ledger c) (ledger (clientMsessTransmit sends send c)) :=
  foldl_rel (R := fun c d => Steps (ledger c) (ledger d)) (fun _ => .refl) .trans
    (transmitSession_steps sends send) c _

theorem clientMsessGothello_ledger (a : Addr) (c : Client) :
    ledger (clientMsessGothello a c) = ledger c := by
  refine ledger_congr rfl rfl ?_
  simp only [Client.pending, clientMsessGothello, List.flatMap_map]
  congr 1
  funext s
  split <;> rfl

theorem forkSession_ledger (fork : Nat → Int) (c : Client) (i : Nat) :
    ledger (forkSession fork c i) = ledger c := by
  unfold forkSession
  split
  · rfl
  · next s hs =>
      split_ifs
      · rfl
      · exact ledger_congr rfl rfl
          (setSession_pending (t := { s with childPid := fork i }) hs rfl)

theorem clientMsessForkall_ledger (fork : Nat → Int) (c : Client) :
    ledger (clientMsessForkall fork c) = ledger c :=
  foldl_rel (R := fun c d => ledger d = ledger c) (fun _ => rfl) (fun h k => k.trans h)
    (forkSession_ledger fork) c _

theorem settle_step {c d : Client} {r : Res} {rest : Multiset ℕ} {record : ResFifo}
    (nodes : d.nodes = c.nodes)
    (reports : d.reports = c.reports ++ [⟨some r.node, record⟩]) :
    Step (ledgerOf c (r.node ::ₘ rest)) (ledgerOf d rest) := by
  have settle := Step.settle (ledgerOf c (r.node ::ₘ rest)) rest r.node record.state rfl
  simpa [ledgerOf, nodes, reports] using settle

theorem clientResUpdate_steps (env : Env) (a : Addr) (d : Data) (ts : Option Ts) (dscp : Int)
    (now : Ts) (c : Client) :
    Steps (ledger c) (ledger (clientResUpdate env a d ts dscp now c)) := by
  rcases clientResUpdate_cases env a d ts dscp now c with same | ⟨pre, s, post, hs, outcome⟩
  · rw [same]
  obtain ⟨sessions, -, -⟩ := splitFirst_spec hs
  have before : ∀ {newer older : List Res} {r : Res}, s.res = newer ++ r :: older →
      nodesOf c.pending = r.node ::ₘ (nodesOf newer + nodesOf older +
        (nodesOf (pre.flatMap (·.res)) + nodesOf (post.flatMap (·.res)))) := by
    intro newer older r entries
    simp only [Client.pending, sessions, nodesOf_sessions, entries, nodesOf_append,
      nodesOf_cons, Multiset.add_cons, Multiset.cons_add]
  rcases outcome with ⟨newer, r, older, hr, done⟩ | ⟨newer, r, older, hr, opened⟩ | dup | missed
  · rw [done]
    obtain ⟨entries, -, -⟩ := splitFirst_spec hr
    refine .single ?_
    have after : nodesOf ((pre ++ { s with res := newer ++ older } :: post).flatMap (·.res)) =
        nodesOf newer + nodesOf older +
          (nodesOf (pre.flatMap (·.res)) + nodesOf (post.flatMap (·.res))) := by
      rw [nodesOf_sessions, nodesOf_append]
    unfold ledger
    rw [before entries, ← updateRes_node s d ts dscp r, ← after]
    exact settle_step rfl rfl
  · rw [opened]
    obtain ⟨entries, -, -⟩ := splitFirst_spec hr
    have after : nodesOf ((pre ++ { s with
        res := newer ++ updateRes s d ts dscp r :: older } :: post).flatMap (·.res)) =
          nodesOf c.pending := by
      simp only [before entries, nodesOf_sessions, nodesOf_append, nodesOf_cons, updateRes_node,
        Multiset.add_cons, Multiset.cons_add]
    simp only [ledger, Client.pending, checkLimit, Client.putSession, after]
    exact .refl
  · have same : ledger (reportDup env d now { c with countClientFind := s.res.length }) =
        ledger c := by
      simp [ledger, ledgerOf, reportDup, Client.pending]
    rw [dup, same]
  · rw [missed]
    exact .refl

theorem clearRes_steps (env : Env) (now : Ts) (rs : List Res) (c : Client) (q : Multiset ℕ) :
    Steps (ledgerOf c (nodesOf rs + q))
      (ledgerOf (clearRes env now rs c).2 (nodesOf (clearRes env now rs c).1 + q)) := by
  induction rs generalizing c with
  | nil => exact .refl
  | cons r rs ih =>
      unfold clearRes
      split_ifs
      · exact .refl
      · have first : Step (ledgerOf c (nodesOf (r :: rs) + q))
            (ledgerOf (expireRes env r c) (nodesOf rs + q)) := by
          rw [nodesOf_cons, Multiset.cons_add]
          exact settle_step rfl rfl
        exact .head first (ih (expireRes env r c))

theorem clearSessions_steps (env : Env) (now : Ts) (ss : List Msess) (c : Client)
    (q : Multiset ℕ) :
    Steps (ledgerOf c (nodesOf (ss.flatMap (·.res)) + q))
      (ledgerOf (clearSessions env now ss c).2
        (nodesOf ((clearSessions env now ss c).1.flatMap (·.res)) + q)) := by
  induction ss generalizing c q with
  | nil => exact .refl
  | cons s ss ih =>
      have own := clearRes_steps env now s.res.reverse c (nodesOf (ss.flatMap (·.res)) + q)
      have rest := ih (clearRes env now s.res.reverse c).2
        (nodesOf (clearRes env now s.res.reverse c).1 + q)
      simp only [clearSessions, List.flatMap_cons, nodesOf_append, nodesOf_reverse] at own ⊢
      rw [add_left_comm, add_left_comm (nodesOf (List.flatMap _ _)) (nodesOf _) q] at rest
      rw [add_assoc, add_assoc]
      exact own.trans rest

theorem clientResClearTimeouts_steps (env : Env) (now : Ts) (c : Client) :
    Steps (ledger c) (ledger (clientResClearTimeouts env now c)) := by
  have cleared := clearSessions_steps env now c.msessHead c 0
  rwa [add_zero, add_zero] at cleared

/-! ### The counters -/

def counter (s : Stats) : State → Int
  | .success => s.resOk
  | .dsErr => s.resDserror
  | .tsErr => s.resTserror
  | .pongloss => s.resPongloss
  | .timeout => s.resTimeout
  | .dup => s.resDup

def reportCount (c : Client) (st : State) : Nat := c.reports.countP (·.record.state = st)

/-- Each counter is the number of its reports, and exactly the DUP reports are
about no entry. -/
structure Tallied (c : Client) : Prop where
  count : ∀ st, counter c.stats st = reportCount c st
  dup : ∀ rep ∈ c.reports, rep.node = none ↔ rep.record.state = .dup

theorem Tallied.append {c d : Client} (h : Tallied c) (rep : Report)
    (reports : d.reports = c.reports ++ [rep])
    (dup : rep.node = none ↔ rep.record.state = .dup)
    (count : ∀ st, counter d.stats st =
      counter c.stats st + if rep.record.state = st then 1 else 0) : Tallied d := by
  refine ⟨fun st => ?_, ?_⟩
  · rw [count, h.count, reportCount, reportCount, reports, List.countP_append]
    by_cases hst : rep.record.state = st <;> simp [hst]
  · intro r hr
    rw [reports, List.mem_append, List.mem_singleton] at hr
    rcases hr with hr | rfl
    · exact h.dup r hr
    · exact dup

theorem clientResUpdate_op (env : Env) (a : Addr) (d : Data) (ts : Option Ts) (dscp : Int)
    (now : Ts) (c : Client) : (clientResUpdate env a d ts dscp now c).op = c.op := by
  rcases clientResUpdate_cases env a d ts dscp now c with same | ⟨pre, s, post, -, outcome⟩
  · rw [same]
  · rcases outcome with ⟨_, _, _, _, h⟩ | ⟨_, _, _, _, h⟩ | h | h <;> rw [h] <;> rfl

end Baseliner.ProbedConservation
