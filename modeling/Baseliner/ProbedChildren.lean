import Mathlib.Tactic.NormNum
import Baseliner.ProbedClient

/-! Child processes across reloads in daemon mode. `client_msess_reconf` kills
the children of the sessions it frees and `client_msess_forkall` forks one child
for each destination address. The result -1 of a failed `fork` is stored as a
pid, a failed reload is followed by `client_msess_forkall` too, and the address
check skips sessions with an equal id. -/

namespace Baseliner.ProbedChildren
open GuardedRuns ListSearch ProbedTime ProbedClient

structure Face where
  id : NumT
  addr : In6Addr
  pid : Int

def face (s : Msess) : Face := ⟨s.id, s.dst.sin6Addr, s.childPid⟩

def key (f : Face) : NumT × In6Addr := (f.id, f.addr)

def faces (c : Client) : List Face := c.msessHead.map face

/-- Every `kill` names a positive pid that an earlier `fork` returned. -/
def KillsForked (log : List Sys) : Prop :=
  ∀ pre p post, log = pre ++ .kill p :: post → 0 < p ∧ ∃ a, .fork p a ∈ pre

structure ChildrenAccounted (c : Client) : Prop where
  kills : KillsForked c.sys
  served : ∀ k ∈ c.children, ∃ s ∈ c.msessHead, s.childPid = k.pid
  apart : (c.children.map (·.addr)).Nodup

/-- The first session with an address is not repeated with its id. -/
def FirstUnique (l : List (NumT × In6Addr)) : Prop :=
  ∀ pre k post, l = pre ++ k :: post → (∀ g ∈ pre, g.2 ≠ k.2) → k ∉ post

/-- The condition on a reload. One that fails finds no live child; one that
succeeds finds no session whose last `fork` failed, and reads sessions that are
told apart. -/
def Orderly (env : Env) (c : Client) : Event → Prop
  | .reload cfgdoc _ =>
      match cfgdoc.bind Document.root with
      | none => c.children = []
      | some nodes =>
          (∀ s ∈ c.msessHead, s.childPid ≠ -1) ∧
            FirstUnique ((readSessions env nodes).map fun s => (s.id, s.dst.sin6Addr))
  | _ => True

def ForkResults : Event → Prop
  | .reload _ fork => ∀ i, fork i = -1 ∨ 0 < fork i
  | _ => True

theorem firstUnique_of_nodup {l : List (NumT × In6Addr)} (h : l.Nodup) : FirstUnique l := by
  intro pre k post split _ again
  rw [split, List.nodup_append, List.nodup_cons] at h
  exact h.2.1.1 again

/-! ### Operations that leave the children alone -/

structure Undisturbed (c d : Client) : Prop where
  op : d.op = c.op
  faces : faces d = faces c
  sys : d.sys = c.sys
  children : d.children = c.children

theorem Undisturbed.refl (c : Client) : Undisturbed c c := ⟨rfl, rfl, rfl, rfl⟩

theorem Undisturbed.trans {c d e : Client} (h : Undisturbed c d) (k : Undisturbed d e) :
    Undisturbed c e :=
  ⟨k.op.trans h.op, k.faces.trans h.faces, k.sys.trans h.sys, k.children.trans h.children⟩

theorem faces_replace {c d : Client} {pre post : List Msess} {s t : Msess}
    (before : c.msessHead = pre ++ s :: post) (after : d.msessHead = pre ++ t :: post)
    (same : face t = face s) : faces d = faces c := by
  rw [faces, faces, before, after, List.map_append, List.map_append, List.map_cons, List.map_cons,
    same]

theorem clientResInsert_undisturbed (a : Addr) (d : Data) (ts now : Ts) (c : Client) :
    Undisturbed c (clientResInsert a d ts now c) := by
  unfold clientResInsert
  split
  · exact .refl c
  · next pre s post h => exact ⟨rfl, faces_replace (splitLast_spec h).1 rfl rfl, rfl, rfl⟩

theorem transmitSession_undisturbed (sends : Int) (send : Nat → Send) (c : Client) (i : Nat) :
    Undisturbed c (transmitSession sends send c i) := by
  unfold transmitSession
  split
  · exact .refl c
  · next s hs =>
      have sent : Undisturbed c { c.setSession i { s with lastSeq := s.lastSeq + 1 } with
          countClientSent := c.countClientSent + 1 } :=
        ⟨rfl, map_set_of_eq hs rfl, rfl, rfl⟩
      split_ifs
      · exact .refl c
      · exact .refl c
      · dsimp only
        split
        · exact sent
        · exact sent.trans (clientResInsert_undisturbed _ _ _ _ _)
      · exact .refl c

theorem clientMsessTransmit_undisturbed (sends : Int) (send : Nat → Send) (c : Client) :
    Undisturbed c (clientMsessTransmit sends send c) :=
  foldl_rel Undisturbed.refl Undisturbed.trans (transmitSession_undisturbed sends send) c _

theorem clientResUpdate_undisturbed (env : Env) (a : Addr) (d : Data) (ts : Option Ts)
    (dscp : Int) (now : Ts) (c : Client) :
    Undisturbed c (clientResUpdate env a d ts dscp now c) := by
  rcases clientResUpdate_cases env a d ts dscp now c with same | ⟨pre, s, post, hs, outcome⟩
  · rw [same]
    exact .refl c
  have sessions := (splitFirst_spec hs).1
  rcases outcome with ⟨newer, r, older, -, done⟩ | ⟨newer, r, older, -, opened⟩ | dup | missed
  · rw [done]
    exact ⟨rfl, faces_replace sessions rfl rfl, rfl, rfl⟩
  · rw [opened]
    exact ⟨rfl, faces_replace sessions rfl rfl, rfl, rfl⟩
  · rw [dup]
    exact ⟨rfl, rfl, rfl, rfl⟩
  · rw [missed]
    exact ⟨rfl, rfl, rfl, rfl⟩

theorem clientMsessGothello_undisturbed (a : Addr) (c : Client) :
    Undisturbed c (clientMsessGothello a c) := by
  refine ⟨rfl, ?_, rfl, rfl⟩
  simp only [faces, clientMsessGothello, List.map_map]
  congr 1
  funext s
  simp only [Function.comp]
  split_ifs <;> rfl

theorem clearRes_undisturbed (env : Env) (now : Ts) (rs : List Res) (c : Client) :
    Undisturbed c (clearRes env now rs c).2 := by
  induction rs generalizing c with
  | nil => exact .refl c
  | cons r rs ih =>
      unfold clearRes
      split_ifs
      · exact .refl c
      · have expired : Undisturbed c (expireRes env r c) := ⟨rfl, rfl, rfl, rfl⟩
        exact expired.trans (ih _)

theorem clearSessions_undisturbed (env : Env) (now : Ts) (ss : List Msess) (c : Client) :
    Undisturbed c (clearSessions env now ss c).2 ∧
      (clearSessions env now ss c).1.map face = ss.map face := by
  induction ss generalizing c with
  | nil => exact ⟨.refl c, rfl⟩
  | cons s ss ih =>
      have own := clearRes_undisturbed env now s.res.reverse c
      have rest := ih (clearRes env now s.res.reverse c).2
      refine ⟨own.trans rest.1, ?_⟩
      simp only [clearSessions, List.map_cons]
      rw [rest.2]
      rfl

theorem clientResClearTimeouts_undisturbed (env : Env) (now : Ts) (c : Client) :
    Undisturbed c (clientResClearTimeouts env now c) := by
  have cleared := clearSessions_undisturbed env now c.msessHead c
  exact ⟨cleared.1.op, cleared.2, cleared.1.sys, cleared.1.children⟩

/-! ### Forking -/

/-- A pid field: nothing forked, a failed fork, or a fork in the log. -/
def Logged (log : List Sys) (p : Int) : Prop :=
  p = 0 ∨ p = -1 ∨ 0 < p ∧ ∃ a, .fork p a ∈ log

/-- The state of `client_msess_forkall` with `pre` done and `post` to do. The
first session of each address is the one that is forked. -/
structure Forking (pre post : List Face) (c : Client) : Prop where
  op : c.op = .daemon
  sessions : faces c = pre ++ post
  unique : FirstUnique ((pre ++ post).map key)
  followers : (pre ++ post).Pairwise fun f g => f.addr = g.addr → g.pid = 0
  leaders : ∀ u f v, pre = u ++ f :: v → (∀ g ∈ u, g.addr ≠ f.addr) → f.pid ≠ 0
  pids : ∀ f ∈ pre ++ post, Logged c.sys f.pid
  kills : KillsForked c.sys
  served : ∀ k ∈ c.children, 0 < k.pid ∧ ∃ f ∈ pre, f.pid = k.pid ∧ f.addr = k.addr
  apart : (c.children.map (·.addr)).Nodup

theorem Logged.append {log : List Sys} {p : Int} (h : Logged log p) (more : List Sys) :
    Logged (log ++ more) p := by
  rcases h with h | h | ⟨pos, a, h⟩
  · exact Or.inl h
  · exact Or.inr (Or.inl h)
  · exact Or.inr (Or.inr ⟨pos, a, List.mem_append_left more h⟩)

theorem KillsForked.append_fork {log : List Sys} (h : KillsForked log) (p : Int) (a : In6Addr) :
    KillsForked (log ++ [.fork p a]) := by
  intro pre q post split
  rcases snoc_split split with ⟨-, last⟩ | ⟨w, hlog⟩
  · cases last
  · exact h pre q w hlog

theorem KillsForked.append_kill {log : List Sys} (h : KillsForked log) {p : Int} (pos : 0 < p)
    {a : In6Addr} (forked : .fork p a ∈ log) : KillsForked (log ++ [.kill p]) := by
  intro pre q post split
  rcases snoc_split split with ⟨rfl, last⟩ | ⟨w, hlog⟩
  · rw [Sys.kill.injEq] at last
    rw [last]
    exact ⟨pos, a, forked⟩
  · exact h pre q w hlog

theorem isaddrtaken_iff (a : Addr) (id : NumT) (c : Client) :
    clientMsessIsaddrtaken a id c.msessHead = true ↔
      ∃ g ∈ faces c, g.id ≠ id ∧ g.pid ≠ 0 ∧ a.sin6Addr = g.addr := by
  simp only [clientMsessIsaddrtaken, faces, List.any_eq_true, Bool.and_eq_true, bne_iff_ne,
    beq_iff_eq, List.mem_map, exists_exists_and_eq_and, face, and_assoc]

section Fork

variable {pre post : List Face} {f : Face} {c : Client}

theorem Forking.taken_iff (h : Forking pre (f :: post) c) :
    (∃ g ∈ faces c, g.id ≠ f.id ∧ g.pid ≠ 0 ∧ f.addr = g.addr) ↔ ∃ g ∈ pre, g.addr = f.addr := by
  constructor
  · rintro ⟨g, hg, other, forked, same⟩
    rw [h.sessions, List.mem_append, List.mem_cons] at hg
    rcases hg with hg | rfl | hg
    · exact ⟨g, hg, same.symm⟩
    · exact absurd rfl other
    · have followers := h.followers
      rw [List.pairwise_append, List.pairwise_cons] at followers
      exact absurd (followers.2.1.1 g hg same) forked
  · rintro ⟨g, hg, same⟩
    -- the first session of the address is a leader, so it has a pid, and its id differs
    cases first : splitFirst (fun g : Face => g.addr == f.addr) pre with
    | none =>
        have := splitFirst_eq_none.mp first g hg
        simp [same] at this
    | some t =>
        obtain ⟨u, g₀, v⟩ := t
        obtain ⟨split, here, before⟩ := splitFirst_spec first
        have addr : g₀.addr = f.addr := by simpa using here
        have others : ∀ x ∈ u, x.addr ≠ g₀.addr := by
          intro x hx
          rw [addr]
          simpa using before x hx
        refine ⟨g₀, by simp [h.sessions, split], ?_, h.leaders u g₀ v split others, addr.symm⟩
        intro same
        have again := h.unique (u.map key) (key g₀) ((v ++ f :: post).map key) (by simp [split])
          (by simpa [key] using others)
        refine again (List.mem_map.mpr ⟨f, by simp, ?_⟩)
        rw [key, key, same, addr]

theorem Forking.skip (h : Forking pre (f :: post) c) (taken : ∃ g ∈ pre, g.addr = f.addr) :
    Forking (pre ++ [f]) post c := by
  have shift : pre ++ [f] ++ post = pre ++ f :: post := by simp
  refine ⟨h.op, ?_, ?_, ?_, ?_, ?_, h.kills, ?_, h.apart⟩
  · rw [shift]
    exact h.sessions
  · rw [shift]
    exact h.unique
  · rw [shift]
    exact h.followers
  · intro u x v split first
    rcases snoc_split split with ⟨rfl, rfl⟩ | ⟨w, hw⟩
    · obtain ⟨g, hg, same⟩ := taken
      exact absurd same (first g hg)
    · exact h.leaders u x w hw first
  · rw [shift]
    exact h.pids
  · intro k hk
    obtain ⟨pos, g, hg, own⟩ := h.served k hk
    exact ⟨pos, g, List.mem_append_left [f] hg, own⟩

theorem Forking.fork (h : Forking pre (f :: post) c) (free : ∀ g ∈ pre, g.addr ≠ f.addr)
    {p : Int} (result : p = -1 ∨ 0 < p) {d : Client} (op : d.op = c.op)
    (sessions : faces d = pre ++ { f with pid := p } :: post)
    (sys : d.sys = c.sys ++ [.fork p f.addr])
    (children : d.children = if p > 0 then c.children ++ [⟨p, f.addr⟩] else c.children) :
    Forking (pre ++ [{ f with pid := p }]) post d := by
  have shift : pre ++ [{ f with pid := p }] ++ post = pre ++ { f with pid := p } :: post := by simp
  refine ⟨op.trans h.op, ?_, ?_, ?_, ?_, ?_, ?_, ?_, ?_⟩
  · rw [shift]
    exact sessions
  · have unique := h.unique
    rw [List.map_append, List.map_cons] at unique
    rw [shift, List.map_append, List.map_cons]
    exact unique
  · -- only the forked session gets a pid, and no session before it has its address
    rw [shift]
    have followers := h.followers
    rw [List.pairwise_append, List.pairwise_cons] at followers ⊢
    obtain ⟨first, ⟨own, rest⟩, cross⟩ := followers
    refine ⟨first, ⟨own, rest⟩, ?_⟩
    intro x hx y hy same
    rcases List.mem_cons.mp hy with rfl | hy
    · exact absurd same (free x hx)
    · exact cross x hx y (by simp [hy]) same
  · intro u x v split first
    rcases snoc_split split with ⟨rfl, rfl⟩ | ⟨w, hw⟩
    · -- a failed fork leaves -1 in the session, which is not 0 either
      dsimp only
      omega
    · exact h.leaders u x w hw first
  · rw [shift, sys]
    intro x hx
    rw [List.mem_append, List.mem_cons] at hx
    rcases hx with hx | rfl | hx
    · exact (h.pids x (by simp [hx])).append _
    · rcases result with failed | pos
      · exact Or.inr (Or.inl failed)
      · exact Or.inr (Or.inr ⟨pos, f.addr, by simp⟩)
    · exact (h.pids x (by simp [hx])).append _
  · rw [sys]
    exact h.kills.append_fork p f.addr
  · rw [children]
    intro k hk
    have old : ∀ k ∈ c.children, 0 < k.pid ∧
        ∃ g ∈ pre ++ [{ f with pid := p }], g.pid = k.pid ∧ g.addr = k.addr := by
      intro k hk
      obtain ⟨pos, g, hg, own⟩ := h.served k hk
      exact ⟨pos, g, List.mem_append_left _ hg, own⟩
    split_ifs at hk with pos
    · rcases List.mem_append.mp hk with hk | hk
      · exact old k hk
      · rw [List.mem_singleton] at hk
        subst hk
        exact ⟨pos, { f with pid := p }, by simp, rfl, rfl⟩
    · exact old k hk
  · rw [children]
    split_ifs with pos
    · rw [List.map_append, List.nodup_append]
      refine ⟨h.apart, by simp, ?_⟩
      intro x hx y hy same
      obtain ⟨k, hk, rfl⟩ := List.mem_map.mp hx
      obtain ⟨-, g, hg, -, addr⟩ := h.served k hk
      rw [List.map_singleton, List.mem_singleton] at hy
      exact free g hg (by rw [addr, same, hy])
    · exact h.apart

end Fork

theorem setSession_faces {c : Client} {i : Nat} {s t : Msess} {pre post : List Face}
    (split : faces c = pre ++ face s :: post) (length : pre.length = i) :
    faces (c.setSession i t) = pre ++ face t :: post := by
  change (c.msessHead.set i t).map face = pre ++ face t :: post
  rw [List.map_set]
  change (faces c).set i (face t) = pre ++ face t :: post
  rw [split, ← length, List.set_append_right _ _ (Nat.le_refl _), Nat.sub_self, List.set_cons_zero]

theorem forkSession_forking {pre post : List Face} {f : Face} {c : Client}
    (h : Forking pre (f :: post) c) {fork : Nat → Int} (results : ∀ i, fork i = -1 ∨ 0 < fork i) :
    ∃ g, Forking (pre ++ [g]) post (forkSession fork c pre.length) := by
  obtain ⟨s, hs, rfl⟩ : ∃ s, c.msessHead[pre.length]? = some s ∧ face s = f := by
    have here : (faces c)[pre.length]? = some f := by
      rw [h.sessions, List.getElem?_append_right (Nat.le_refl _), Nat.sub_self]
      rfl
    rw [faces, List.getElem?_map, Option.map_eq_some_iff] at here
    exact here
  by_cases taken : ∃ g ∈ pre, g.addr = (face s).addr
  · have busy : clientMsessIsaddrtaken s.dst s.id c.msessHead = true :=
      (isaddrtaken_iff s.dst s.id c).mpr (h.taken_iff.mpr taken)
    refine ⟨face s, ?_⟩
    simp only [forkSession, hs, busy, if_true]
    exact h.skip taken
  · have free : clientMsessIsaddrtaken s.dst s.id c.msessHead = false := by
      rw [← Bool.not_eq_true, isaddrtaken_iff]
      exact fun other => taken (h.taken_iff.mp other)
    refine ⟨{ face s with pid := fork pre.length }, ?_⟩
    simp only [forkSession, hs, free, Bool.false_eq_true, if_false]
    refine h.fork (fun g hg same => taken ⟨g, hg, same⟩) (results _) rfl ?_ rfl rfl
    exact setSession_faces h.sessions rfl

theorem clientMsessForkall_forking {c : Client} (h : Forking [] (faces c) c) {fork : Nat → Int}
    (results : ∀ i, fork i = -1 ∨ 0 < fork i) :
    ∃ l, Forking l [] (clientMsessForkall fork c) := by
  have loop : ∃ pre post, pre.length = c.msessHead.length ∧
      (pre ++ post).length = c.msessHead.length ∧
        Forking pre post (clientMsessForkall fork c) := by
    refine foldl_range
      (I := fun k d => ∃ pre post, pre.length = k ∧ (pre ++ post).length = c.msessHead.length ∧
        Forking pre post d) ⟨[], faces c, rfl, by simp [faces], h⟩ ?_
    rintro k d hk ⟨pre, post, rfl, total, forking⟩
    cases post with
    | nil =>
        rw [List.append_nil] at total
        omega
    | cons f post =>
        obtain ⟨g, next⟩ := forkSession_forking forking results
        refine ⟨pre ++ [g], post, by simp, ?_, next⟩
        rw [← total]
        simp
  obtain ⟨pre, post, length, total, forking⟩ := loop
  have empty : post = [] := by
    rw [List.length_append] at total
    exact List.eq_nil_of_length_eq_zero (by omega)
  subst empty
  exact ⟨pre, forking⟩

/-! ### Killing -/

theorem killSessions_op (ss : List Msess) (c : Client) : (killSessions ss c).op = c.op := by
  induction ss generalizing c with
  | nil => rfl
  | cons s ss ih =>
      rw [killSessions, ih]
      split_ifs <;> rfl

theorem killSessions_kills {ss : List Msess} {c : Client}
    (pids : ∀ s ∈ ss, Logged c.sys s.childPid ∧ s.childPid ≠ -1) (h : KillsForked c.sys) :
    KillsForked (killSessions ss c).sys := by
  induction ss generalizing c with
  | nil => exact h
  | cons s ss ih =>
      rw [killSessions]
      split_ifs with forked
      · obtain ⟨logged, valid⟩ := pids s (by simp)
        obtain ⟨pos, a, mem⟩ : 0 < s.childPid ∧ ∃ a, .fork s.childPid a ∈ c.sys := by
          rcases logged with zero | failed | found
          · exact absurd zero forked
          · exact absurd failed valid
          · exact found
        refine ih ?_ (h.append_kill pos mem)
        intro t ht
        have old := pids t (by simp [ht])
        exact ⟨old.1.append _, old.2⟩
      · exact ih (fun t ht => pids t (by simp [ht])) h

theorem killSessions_children (ss : List Msess) (c : Client) :
    ∀ k ∈ (killSessions ss c).children, k ∈ c.children ∧
      ∀ s ∈ ss, s.childPid ≠ 0 → s.childPid ≠ k.pid := by
  induction ss generalizing c with
  | nil => exact fun k hk => ⟨hk, by simp⟩
  | cons s ss ih =>
      intro k hk
      rw [killSessions] at hk
      split_ifs at hk with forked
      · obtain ⟨left, others⟩ := ih _ k hk
        have kept : k ∈ c.children ∧ s.childPid ≠ k.pid := by
          simp only [sysKill] at left
          split_ifs at left
          · exact absurd left List.not_mem_nil
          · rw [List.mem_filter, decide_eq_true_iff] at left
            exact ⟨left.1, Ne.symm left.2⟩
        refine ⟨kept.1, ?_⟩
        intro t ht forked
        rcases List.mem_cons.mp ht with rfl | ht
        · exact kept.2
        · exact others t ht forked
      · obtain ⟨left, others⟩ := ih c k hk
        refine ⟨left, ?_⟩
        intro t ht forked'
        rcases List.mem_cons.mp ht with rfl | ht
        · exact absurd forked' forked
        · exact others t ht forked'

/-! ### Whole runs -/

/-- The invariant between events: the loop of the last reload is through. -/
def Tracked (c : Client) : Prop := Forking (faces c) [] c

theorem tracked_of_forking {l : List Face} {c : Client} (h : Forking l [] c) : Tracked c := by
  have sessions := h.sessions
  rw [List.append_nil] at sessions
  unfold Tracked
  rw [sessions]
  exact h

theorem Tracked.undisturbed {c d : Client} (h : Tracked c) (same : Undisturbed c d) :
    Tracked d := by
  unfold Tracked at h ⊢
  rw [same.faces]
  refine ⟨same.op.trans h.op, ?_, h.unique, h.followers, h.leaders, ?_, ?_, ?_, ?_⟩
  · rw [same.faces, List.append_nil]
  · rw [same.sys]
    exact h.pids
  · rw [same.sys]
    exact h.kills
  · rw [same.children]
    exact h.served
  · rw [same.children]
    exact h.apart

theorem Tracked.restart {c : Client} (h : Tracked c) (none : c.children = []) :
    Forking [] (faces c) c := by
  have shift : faces c ++ [] = [] ++ faces c := by simp
  refine ⟨h.op, rfl, shift ▸ h.unique, shift ▸ h.followers, by simp, shift ▸ h.pids, h.kills,
    ?_, h.apart⟩
  rw [none]
  simp

theorem Tracked.renew {c : Client} (h : Tracked c) (valid : ∀ s ∈ c.msessHead, s.childPid ≠ -1)
    {sessions : List Msess} (blank : ∀ s ∈ sessions, s.childPid = 0)
    (unique : FirstUnique (sessions.map fun s => (s.id, s.dst.sin6Addr))) :
    Forking [] (sessions.map face) { killSessions c.msessHead c with msessHead := sessions } := by
  have pids : ∀ s ∈ c.msessHead, Logged c.sys s.childPid ∧ s.childPid ≠ -1 := by
    intro s hs
    have own := h.pids (face s) (by simp [faces, List.mem_map_of_mem hs])
    exact ⟨own, valid s hs⟩
  have zero : ∀ f ∈ sessions.map face, f.pid = 0 := by
    intro f hf
    obtain ⟨s, hs, rfl⟩ := List.mem_map.mp hf
    exact blank s hs
  have dead : (killSessions c.msessHead c).children = [] := by
    refine List.eq_nil_iff_forall_not_mem.mpr fun k hk => ?_
    obtain ⟨live, others⟩ := killSessions_children c.msessHead c k hk
    obtain ⟨pos, f, hf, own, -⟩ := h.served k live
    obtain ⟨s, hs, rfl⟩ := List.mem_map.mp hf
    change s.childPid = k.pid at own
    exact others s hs (by omega) own
  refine ⟨(killSessions_op _ c).trans h.op, rfl, ?_, ?_, by simp, ?_, ?_, ?_, ?_⟩
  · rw [List.nil_append, List.map_map]
    exact unique
  · exact List.pairwise_of_forall_mem_list fun f _ g hg _ => zero g hg
  · exact fun f hf => Or.inl (zero f hf)
  · exact killSessions_kills pids h.kills
  · rw [dead]
    simp
  · rw [dead]
    exact List.nodup_nil

theorem step_tracked (env : Env) (c : Client) (e : Event) (h : Tracked c)
    (met : ForkResults e ∧ Orderly env c e) : Tracked (step env c e) := by
  obtain ⟨results, orderly⟩ := met
  unfold step
  split_ifs
  · exact h
  cases e with
  | transmit sends send => exact h.undisturbed (clientMsessTransmit_undisturbed sends send c)
  | udp a d ts dscp now =>
      simp only [handle]
      split_ifs
      · exact h.undisturbed (clientResUpdate_undisturbed env a d (some ts) _ now c)
      · exact h
  | pipe a d now =>
      simp only [handle]
      split_ifs
      · exact h.undisturbed (clientMsessGothello_undisturbed a c)
      · exact h.undisturbed (clientResUpdate_undisturbed env a d none (-1) now c)
      · exact h
  | clearTimeouts now => exact h.undisturbed (clientResClearTimeouts_undisturbed env now c)
  | reload cfgdoc fork =>
      have ready : Forking [] (faces (clientMsessReconf env cfgdoc c).1)
          (clientMsessReconf env cfgdoc c).1 := by
        simp only [Orderly] at orderly
        rcases clientMsessReconf_cases env cfgdoc c with ⟨same, failed⟩ | ⟨nodes, -, root, renewed⟩
        · rw [failed h.op] at orderly
          rw [same]
          exact h.restart orderly
        · rw [root] at orderly
          rw [renewed]
          exact h.renew orderly.1 (fun s hs => (readSessions_blank env nodes s hs).2) orderly.2
      obtain ⟨l, forked⟩ := clientMsessForkall_forking ready results
      exact tracked_of_forking forked
  | childExit pid =>
      refine ⟨h.op, h.sessions, h.unique, h.followers, h.leaders, h.pids, h.kills, ?_, ?_⟩
      · intro k hk
        exact h.served k (List.mem_of_mem_filter hk)
      · exact h.apart.sublist (List.filter_sublist.map _)

theorem daemonStart_tracked : Tracked daemonStart := by
  refine ⟨rfl, rfl, firstUnique_of_nodup List.nodup_nil, List.Pairwise.nil, ?_, ?_, ?_, ?_,
    List.nodup_nil⟩
  · intro u f v split
    simp [faces, daemonStart] at split
  · simp [faces, daemonStart]
  · intro pre p post split
    simp [daemonStart] at split
  · simp [daemonStart]

/-- In every run whose reloads meet the condition, the killed pids are those of
earlier forks, every live child is that of a session, and no two live children
serve one address. -/
theorem children_accounted (env : Env) (es : List Event)
    (met : Along (step env) (fun c e => ForkResults e ∧ Orderly env c e) daemonStart es) :
    ChildrenAccounted (run (step env) daemonStart es) := by
  have tracked : Tracked (run (step env) daemonStart es) :=
    run_of_along (step_tracked env) daemonStart_tracked met
  refine ⟨tracked.kills, ?_, tracked.apart⟩
  intro k hk
  obtain ⟨-, f, hf, own, -⟩ := tracked.served k hk
  obtain ⟨s, hs, rfl⟩ := List.mem_map.mp hf
  exact ⟨s, hs, own⟩

/-! ### Reloads of one configuration -/

def sampleEnv : Env := ⟨2147483646, 0, fun _ => true, fun _ => some ⟨1⟩⟩

def sampleNodes : List ConfigNode := [⟨true, "probe", some "7", [⟨true, "address", "alpha"⟩]⟩]

def sampleReload (pid : Int) : Event := .reload (some ⟨some sampleNodes⟩) fun _ => pid

theorem two_reloads_accounted :
    ChildrenAccounted
      (run (step sampleEnv) daemonStart [sampleReload 100, sampleReload 101]) := by
  have unique : FirstUnique ((readSessions sampleEnv sampleNodes).map
      fun s => (s.id, s.dst.sin6Addr)) := firstUnique_of_nodup (by decide)
  exact children_accounted sampleEnv _
    ⟨⟨fun _ => Or.inr (by norm_num), by decide, unique⟩,
      ⟨fun _ => Or.inr (by norm_num), by decide, unique⟩, trivial⟩

/-- A failed fork and then a reload: the pid -1 is passed to `kill`, which
signals every process. -/
theorem failed_fork_kills_all :
    (∀ e ∈ [sampleReload (-1), sampleReload 101], ForkResults e) ∧
      ¬ ChildrenAccounted
        (run (step sampleEnv) daemonStart [sampleReload (-1), sampleReload 101]) := by
  refine ⟨?_, ?_⟩
  · intro e he
    simp only [List.mem_cons, List.not_mem_nil, or_false] at he
    rcases he with rfl | rfl
    · exact fun _ => Or.inl rfl
    · exact fun _ => Or.inr (by norm_num)
  · intro h
    have killed := h.kills [.fork (-1) 1] (-1) [.fork 101 1] (by decide)
    exact absurd killed.1 (by decide)

end Baseliner.ProbedChildren
