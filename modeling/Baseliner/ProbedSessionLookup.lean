import Mathlib.Data.List.Forall2
import Baseliner.ProbedConservation

/-! The two searches of `client.c` for a session. `client_res_insert` keeps the
last session with an id and `client_res_update` stops at the first, so a probe
and its records meet only where the id is not repeated. The runs are those of
daemon mode, with any reloads. -/

namespace Baseliner.ProbedSessionLookup
open GuardedRuns ListSearch TokenLedger ProbedTime ProbedClient ProbedConservation

/-- The entry that `client_res_update` takes a record to be for. -/
def clientResMatch (a : Addr) (d : Data) (c : Client) : Option Res :=
  match splitFirst (fun s : Msess => s.id == d.id) c.msessHead with
  | none => none
  | some (_, s, _) => (splitFirst (matchesRes a d) s.res).map (·.2.1)

/-- Entries have the id of their session, and of the sessions with one id only
the last has entries. -/
structure Placed (l : List Msess) : Prop where
  last : l.Pairwise fun s t => s.id = t.id → s.res = []
  ids : ∀ s ∈ l, ∀ r ∈ s.res, r.id = s.id

structure Keeps (s t : Msess) : Prop where
  id : t.id = s.id
  empty : s.res = [] → t.res = []
  ids : (∀ r ∈ s.res, r.id = s.id) → ∀ r ∈ t.res, r.id = s.id

theorem Keeps.of_res {s t : Msess} (id : t.id = s.id) (res : t.res = s.res) : Keeps s t := by
  refine ⟨id, ?_, ?_⟩ <;> rw [res] <;> exact fun h => h

theorem Keeps.of_subset {s t : Msess} (id : t.id = s.id) (subset : t.res ⊆ s.res) :
    Keeps s t := by
  refine ⟨id, ?_, fun ids r hr => ids r (subset hr)⟩
  intro empty
  rw [empty] at subset
  exact List.subset_nil.mp subset

theorem keeps_refl (l : List Msess) : List.Forall₂ Keeps l l :=
  List.forall₂_same.mpr fun _ _ => Keeps.of_res rfl rfl

theorem keeps_replace {s t : Msess} (h : Keeps s t) (pre post : List Msess) :
    List.Forall₂ Keeps (pre ++ s :: post) (pre ++ t :: post) :=
  List.rel_append (keeps_refl pre) (List.Forall₂.cons h (keeps_refl post))

theorem keeps_mem {l m : List Msess} (h : List.Forall₂ Keeps l m) {t : Msess} (ht : t ∈ m) :
    ∃ s ∈ l, Keeps s t := by
  induction h with
  | nil => simp at ht
  | cons own _ ih =>
      rcases List.mem_cons.mp ht with rfl | ht
      · exact ⟨_, by simp, own⟩
      · obtain ⟨s, hs, keeps⟩ := ih ht
        exact ⟨s, by simp [hs], keeps⟩

theorem Placed.keeps {l m : List Msess} (h : Placed l) (keeps : List.Forall₂ Keeps l m) :
    Placed m := by
  refine ⟨?_, ?_⟩
  · have last := h.last
    clear h
    induction keeps with
    | nil => exact List.Pairwise.nil
    | cons own rest ih =>
        rw [List.pairwise_cons] at last ⊢
        refine ⟨?_, ih last.2⟩
        intro u hu same
        obtain ⟨v, hv, change⟩ := keeps_mem rest hu
        refine own.empty (last.1 v hv ?_)
        rw [← own.id, same, change.id]
  · intro t ht
    obtain ⟨s, hs, change⟩ := keeps_mem keeps ht
    rw [change.id]
    exact change.ids (h.ids s hs)

/-! ### What each operation does to the sessions -/

theorem clientResUpdate_keeps (env : Env) (a : Addr) (d : Data) (ts : Option Ts) (dscp : Int)
    (now : Ts) (c : Client) :
    List.Forall₂ Keeps c.msessHead (clientResUpdate env a d ts dscp now c).msessHead := by
  rcases clientResUpdate_cases env a d ts dscp now c with same | ⟨pre, s, post, hs, outcome⟩
  · rw [same]
    exact keeps_refl _
  obtain ⟨sessions, -, -⟩ := splitFirst_spec hs
  rcases outcome with ⟨newer, r, older, hr, done⟩ | ⟨newer, r, older, hr, opened⟩ | dup | missed
  · rw [done, sessions]
    obtain ⟨entries, -, -⟩ := splitFirst_spec hr
    have keeps : Keeps s { s with res := newer ++ older } := by
      refine Keeps.of_subset rfl ?_
      rw [entries]
      exact ((List.sublist_cons_self r older).append_left newer).subset
    exact keeps_replace keeps pre post
  · rw [opened, sessions]
    obtain ⟨entries, -, -⟩ := splitFirst_spec hr
    have keeps : Keeps s { s with res := newer ++ updateRes s d ts dscp r :: older } := by
      refine ⟨rfl, by simp [entries], ?_⟩
      intro ids q hq
      rw [entries] at ids
      rcases List.mem_append.mp hq with hq | hq
      · exact ids q (by simp [hq])
      · rcases List.mem_cons.mp hq with rfl | hq
        · rw [(updateRes_key s d ts dscp r).1]
          exact ids r (by simp)
        · exact ids q (by simp [hq])
    exact keeps_replace keeps pre post
  · rw [dup]
    exact keeps_refl _
  · rw [missed]
    exact keeps_refl _

theorem clearRes_subset (env : Env) (now : Ts) (rs : List Res) (c : Client) :
    (clearRes env now rs c).1 ⊆ rs := by
  induction rs generalizing c with
  | nil => exact List.Subset.refl _
  | cons q rs ih =>
      unfold clearRes
      split_ifs
      · exact List.Subset.refl _
      · exact List.subset_cons_of_subset q (ih _)

theorem clearSessions_keeps (env : Env) (now : Ts) (ss : List Msess) (c : Client) :
    List.Forall₂ Keeps ss (clearSessions env now ss c).1 := by
  induction ss generalizing c with
  | nil => exact List.Forall₂.nil
  | cons s ss ih =>
      have cleared := clearRes_subset env now s.res.reverse c
      refine List.Forall₂.cons (Keeps.of_subset rfl ?_) (ih _)
      exact List.reverse_subset.mpr (List.subset_reverse.mp cleared)

theorem setSession_keeps {c : Client} {i : Nat} {s t : Msess} (h : c.msessHead[i]? = some s)
    (keeps : Keeps s t) : List.Forall₂ Keeps c.msessHead (c.setSession i t).msessHead := by
  change List.Forall₂ Keeps c.msessHead (c.msessHead.set i t)
  generalize c.msessHead = l at h
  induction l generalizing i with
  | nil => simp at h
  | cons x xs ih =>
      cases i with
      | zero =>
          rw [List.getElem?_cons_zero, Option.some.injEq] at h
          subst h
          exact List.Forall₂.cons keeps (keeps_refl xs)
      | succ i =>
          rw [List.getElem?_cons_succ] at h
          exact List.Forall₂.cons (Keeps.of_res rfl rfl) (ih h)

theorem clientMsessGothello_keeps (a : Addr) (c : Client) :
    List.Forall₂ Keeps c.msessHead (clientMsessGothello a c).msessHead := by
  unfold clientMsessGothello
  rw [List.forall₂_map_right_iff, List.forall₂_same]
  intro s _
  split_ifs <;> exact Keeps.of_res rfl rfl

theorem forkSession_placed (fork : Nat → Int) (c : Client) (i : Nat) (h : Placed c.msessHead) :
    Placed (forkSession fork c i).msessHead := by
  unfold forkSession
  split
  · exact h
  · next s hs =>
      split_ifs
      · exact h
      · exact h.keeps (setSession_keeps hs (t := { s with childPid := fork i })
          (Keeps.of_res rfl rfl))

theorem clientMsessForkall_placed (fork : Nat → Int) (c : Client) (h : Placed c.msessHead) :
    Placed (clientMsessForkall fork c).msessHead :=
  run_invariant (I := fun c : Client => Placed c.msessHead) (forkSession_placed fork) h _

theorem clientResInsert_placed (a : Addr) (d : Data) (ts now : Ts) (c : Client)
    (h : Placed c.msessHead) : Placed (clientResInsert a d ts now c).msessHead := by
  unfold clientResInsert
  split
  · exact h
  · next pre s post hs =>
      obtain ⟨sessions, found, later⟩ := splitLast_spec hs
      have id : s.id = d.id := by simpa using found
      have last := h.last
      rw [sessions, List.pairwise_append, List.pairwise_cons] at last
      obtain ⟨first, ⟨-, rest⟩, cross⟩ := last
      refine ⟨?_, ?_⟩
      · rw [List.pairwise_append, List.pairwise_cons]
        refine ⟨first, ⟨?_, rest⟩, ?_⟩
        · intro t ht same
          have other : t.id ≠ d.id := by simpa using later t ht
          exact absurd (same.symm.trans id) other
        · intro t ht u hu same
          rcases List.mem_cons.mp hu with rfl | hu
          · exact cross t ht s (by simp) same
          · exact cross t ht u (by simp [hu]) same
      · intro t ht r hr
        rcases List.mem_append.mp ht with ht | ht
        · exact h.ids t (by simp [sessions, ht]) r hr
        · rcases List.mem_cons.mp ht with rfl | ht
          · rcases List.mem_cons.mp hr with rfl | hr
            · exact id.symm
            · exact h.ids s (by simp [sessions]) r hr
          · exact h.ids t (by simp [sessions, ht]) r hr

theorem transmitSession_placed (sends : Int) (send : Nat → Send) (c : Client) (i : Nat)
    (h : Placed c.msessHead) : Placed (transmitSession sends send c i).msessHead := by
  unfold transmitSession
  split
  · exact h
  · next s hs =>
      have sent : Placed (c.setSession i { s with lastSeq := s.lastSeq + 1 }).msessHead :=
        h.keeps (setSession_keeps hs (Keeps.of_res rfl rfl))
      split_ifs
      · exact h
      · exact h
      · dsimp only
        split
        · exact sent
        · exact clientResInsert_placed _ _ _ _ _ sent
      · exact h

theorem clientMsessTransmit_placed (sends : Int) (send : Nat → Send) (c : Client)
    (h : Placed c.msessHead) : Placed (clientMsessTransmit sends send c).msessHead :=
  run_invariant (I := fun c : Client => Placed c.msessHead) (transmitSession_placed sends send) h _

/-! ### Reloads -/

theorem placed_of_empty {l : List Msess} (h : ∀ s ∈ l, s.res = []) : Placed l := by
  refine ⟨List.pairwise_of_forall_mem_list fun s hs t _ _ => h s hs, ?_⟩
  intro s hs r hr
  rw [h s hs] at hr
  exact absurd hr List.not_mem_nil

theorem numbered_of_empty {c : Client} (h : ∀ s ∈ c.msessHead, s.res = []) :
    Numbered (ledger c) := by
  have pending : c.pending = [] := List.flatMap_eq_nil_iff.mpr h
  have none : (ledger c).pending = 0 := by
    change nodesOf c.pending = 0
    rw [pending, nodesOf_nil]
  rw [Numbered, none]
  exact ⟨Multiset.nodup_zero, fun n hn => absurd hn (Multiset.notMem_zero n)⟩

/-! ### Whole runs -/

structure Located (c : Client) : Prop where
  placed : Placed c.msessHead
  numbered : Numbered (ledger c)

theorem clientResUpdate_located {c : Client} (h : Located c) (env : Env) (a : Addr) (d : Data)
    (ts : Option Ts) (dscp : Int) (now : Ts) :
    Located (clientResUpdate env a d ts dscp now c) :=
  ⟨h.placed.keeps (clientResUpdate_keeps env a d ts dscp now c),
    Steps.numbered (clientResUpdate_steps env a d ts dscp now c) h.numbered⟩

theorem step_located (env : Env) (c : Client) (e : Event) (h : Located c) :
    Located (step env c e) := by
  unfold step
  split_ifs
  · exact h
  · cases e with
    | transmit sends send =>
        exact ⟨clientMsessTransmit_placed sends send c h.placed,
          Steps.numbered (clientMsessTransmit_steps sends send c) h.numbered⟩
    | udp a d ts dscp now =>
        simp only [handle]
        split_ifs
        · exact clientResUpdate_located h env a d (some ts) _ now
        · exact h
    | pipe a d now =>
        simp only [handle]
        split_ifs
        · refine ⟨h.placed.keeps (clientMsessGothello_keeps a c), ?_⟩
          rw [clientMsessGothello_ledger]
          exact h.numbered
        · exact clientResUpdate_located h env a d none (-1) now
        · exact h
    | clearTimeouts now =>
        exact ⟨h.placed.keeps (clearSessions_keeps env now c.msessHead c),
          Steps.numbered (clientResClearTimeouts_steps env now c) h.numbered⟩
    | reload cfgdoc fork =>
        have reloaded : Located (clientMsessReconf env cfgdoc c).1 := by
          rcases clientMsessReconf_cases env cfgdoc c with ⟨same, -⟩ | ⟨nodes, -, -, renewed⟩
          · rw [same]
            exact h
          · have empty : ∀ s ∈ readSessions env nodes, s.res = [] :=
              fun s hs => (readSessions_blank env nodes s hs).1
            rw [renewed]
            exact ⟨placed_of_empty empty, numbered_of_empty empty⟩
        simp only [handle]
        refine ⟨clientMsessForkall_placed fork _ reloaded.placed, ?_⟩
        rw [clientMsessForkall_ledger]
        exact reloaded.numbered
    | childExit pid => exact ⟨h.placed, h.numbered⟩

theorem run_located (env : Env) (es : List Event) : Located (run (step env) daemonStart es) :=
  run_invariant (step_located env)
    ⟨placed_of_empty (by simp [daemonStart]), numbered_of_empty (by simp [daemonStart])⟩ es

/-! ### The search for a pending probe -/

section Search

variable {c : Client} {pre post : List Msess} {s : Msess} {newer older : List Res} {p : Res}
  {a : Addr} {d : Data}

theorem Placed.later_ids (h : Placed c.msessHead) (sessions : c.msessHead = pre ++ s :: post)
    (entries : s.res = newer ++ p :: older) : ∀ t ∈ post, t.id ≠ s.id := by
  intro t ht same
  have last := h.last
  rw [sessions, List.pairwise_append, List.pairwise_cons] at last
  have empty := last.2.1.1 t ht same.symm
  rw [entries] at empty
  simp at empty

/-- A session with the same id before the probe's own hides it. -/
theorem Placed.hidden (h : Placed c.msessHead) (sessions : c.msessHead = pre ++ s :: post)
    (id : d.id = s.id) {t : Msess} (ht : t ∈ pre) (same : t.id = s.id) :
    clientResMatch a d c = none := by
  unfold clientResMatch
  cases found : splitFirst (fun s : Msess => s.id == d.id) c.msessHead with
  | none => rfl
  | some u =>
      obtain ⟨pre', s', post'⟩ := u
      obtain ⟨-, here, -⟩ := splitFirst_spec found
      rw [sessions] at found
      have left : s' ∈ pre := splitFirst_mem_left ht (by simp [id, same]) found
      have last := h.last
      rw [sessions, List.pairwise_append] at last
      have empty : s'.res = [] := by
        refine last.2.2 s' left s (by simp) ?_
        rw [← id]
        simpa using here
      simp [empty, splitFirst]

theorem clientResMatch_own (sessions : c.msessHead = pre ++ s :: post) (id : d.id = s.id)
    (first : ∀ t ∈ pre, t.id ≠ s.id) (isFor : IsFor a p d) :
    clientResMatch a d c =
      (splitFirst (fun q => decide (SameKey q p)) s.res).map (·.2.1) := by
  have found : splitFirst (fun s : Msess => s.id == d.id) c.msessHead = some (pre, s, post) := by
    rw [sessions]
    refine splitFirst_append (by simp [id]) ?_
    intro t ht
    simpa [id] using first t ht
  unfold clientResMatch
  rw [found, ← matchesRes_eq isFor]

end Search

/-- Exactly when a record is matched to the pending probe it is for: the id of
the probe's session is not repeated in the list, and no newer entry of the
session has the probe's key. -/
theorem record_matches_probe_iff (env : Env) (es : List Event) (pre : List Msess) (s : Msess)
    (post : List Msess) (newer : List Res) (p : Res) (older : List Res) (a : Addr) (d : Data)
    (sessions : (run (step env) daemonStart es).msessHead = pre ++ s :: post)
    (entries : s.res = newer ++ p :: older) (isFor : IsFor a p d) :
    clientResMatch a d (run (step env) daemonStart es) = some p ↔
      (∀ t ∈ pre ++ post, t.id ≠ s.id) ∧ ∀ q ∈ newer, ¬ SameKey q p := by
  have located := run_located env es
  generalize run (step env) daemonStart es = c at *
  have later := located.placed.later_ids sessions entries
  have id : d.id = s.id := by
    rw [isFor.1]
    exact located.placed.ids s (by simp [sessions]) p (by simp [entries])
  constructor
  · intro found
    have first : ∀ t ∈ pre, t.id ≠ s.id := by
      intro t ht same
      rw [located.placed.hidden sessions id ht same] at found
      exact absurd found (by simp)
    refine ⟨fun t ht => (List.mem_append.mp ht).elim (first t) (later t), ?_⟩
    intro q hq same
    rw [clientResMatch_own sessions id first isFor, Option.map_eq_some_iff] at found
    obtain ⟨⟨newer', p', older'⟩, search, rfl⟩ := found
    rw [entries] at search
    have again : p' ∈ newer := splitFirst_mem_left hq (decide_eq_true same) search
    -- the entry would be in the list twice
    have nodup : (c.pending.map (·.node)).Nodup := located.numbered.1
    rw [Client.pending, sessions, List.flatMap_append, List.flatMap_cons, entries,
      List.map_append, List.nodup_append, List.append_assoc, List.map_append,
      List.nodup_append] at nodup
    exact nodup.2.1.2.2 p'.node (List.mem_map_of_mem again) p'.node (by simp) rfl
  · rintro ⟨unique, alone⟩
    have search : splitFirst (fun q => decide (SameKey q p)) (newer ++ p :: older) =
        some (newer, p, older) :=
      splitFirst_append (decide_eq_true ⟨rfl, rfl, rfl⟩) fun q hq => decide_eq_false (alone q hq)
    rw [clientResMatch_own sessions id (fun t ht => unique t (by simp [ht])) isFor, entries,
      search]
    rfl

/-! ### Two probe elements

Both sessions send their first PING on the same tick. -/

def sampleEnv : Env :=
  ⟨2147483646, 0, fun _ => true, fun name => if name = "alpha" then some ⟨1⟩ else some ⟨2⟩⟩

def sampleProbe (id address : String) : ConfigNode :=
  ⟨true, "probe", some id, [⟨true, "address", address⟩]⟩

def sampleRun (second : String) : List Event :=
  [.reload (some ⟨some [sampleProbe "7" "alpha", sampleProbe second "beta"]⟩) fun _ => 100,
    .pipe ⟨1⟩ ⟨TYPE_HELO, 0, 0, .zero, .zero⟩ ⟨90, 0⟩,
    .pipe ⟨2⟩ ⟨TYPE_HELO, 0, 0, .zero, .zero⟩ ⟨90, 0⟩,
    .transmit 0 fun _ => ⟨some ⟨100, 0⟩, ⟨90, 0⟩⟩]

def sampleSession (id : NumT) (dst : Addr) (res : List Res) : Msess :=
  ⟨id, res, dst, 1000, true, 0, 100, 1⟩

def sampleEntry (node : Nat) (id : NumT) (addr : In6Addr) : Res :=
  ⟨node, ⟨90, 0⟩, MASK_PING, addr, id, 1, ⟨100, 0⟩, .zero, .zero, .zero⟩

theorem distinct_ids_match :
    clientResMatch ⟨2⟩ ⟨TYPE_PONG, 1, 8, .zero, .zero⟩
      (run (step sampleEnv) daemonStart (sampleRun "8")) = some (sampleEntry 0 8 2) :=
  (record_matches_probe_iff sampleEnv (sampleRun "8") [] (sampleSession 8 ⟨2⟩ [sampleEntry 0 8 2])
    [sampleSession 7 ⟨1⟩ [sampleEntry 1 7 1]] [] (sampleEntry 0 8 2) [] ⟨2⟩
    ⟨TYPE_PONG, 1, 8, .zero, .zero⟩ (by decide) rfl ⟨rfl, rfl, rfl⟩).mpr (by decide)

/-- With the id given twice, both entries are in the last session and the
records are looked for in the first. -/
theorem repeated_id_loses_probe :
    ∃ p ∈ (run (step sampleEnv) daemonStart (sampleRun "7")).pending,
      IsFor ⟨2⟩ p ⟨TYPE_PONG, 1, 7, .zero, .zero⟩ ∧
        clientResMatch ⟨2⟩ ⟨TYPE_PONG, 1, 7, .zero, .zero⟩
          (run (step sampleEnv) daemonStart (sampleRun "7")) ≠ some p := by
  refine ⟨sampleEntry 0 7 2, by decide, ⟨rfl, rfl, rfl⟩, by decide⟩

end Baseliner.ProbedSessionLookup
