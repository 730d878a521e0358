import Mathlib.Algebra.BigOperators.Group.Finset.Basic
import Mathlib.Algebra.BigOperators.Group.Finset.Piecewise
import Mathlib.Algebra.Group.Action.Defs
import Mathlib.Algebra.Order.BigOperators.Group.Finset
import Mathlib.Data.List.Nodup
import Mathlib.Data.List.Perm.Basic
import Mathlib.Tactic.Ring

/-! Threads in a row that go through the same planes, each with work of its own. Between two
neighbours stands one flag: the left thread raises it when it has finished a plane, and the right
thread lowers it before it goes beyond the first part of that plane. A thread spins on a flag
that is not as it must be, and every access to a flag is a step of its own. -/

namespace Baseliner.HandshakePipeline
open scoped BigOperators

variable {τ : Type*}

/-- The work of every plane, in the part before the flag of the left neighbour is awaited and in
the part after, and the thread of every task. The threads up to `last` hand over planes; those
from there up to `team` go their way. -/
structure Pipeline (τ : Type*) where
  planes : ℕ
  team : ℕ
  last : ℕ
  early : ℕ → List τ
  late : ℕ → List τ
  owner : τ → ℕ

inductive Phase (τ : Type*) where
  | early (todo : List τ)
  | waitLeft
  | clearLeft
  | late (todo : List τ)
  | waitRight
  | setRight

structure Thread (τ : Type*) where
  plane : ℕ
  phase : Phase τ

structure State (τ : Type*) where
  threads : ℕ → Thread τ
  isync : ℕ → Bool
  done : List τ

namespace Pipeline

variable (P : Pipeline τ)

def own (t : ℕ) (l : List τ) : List τ := l.filter (P.owner · = t)

def enter (t p : ℕ) : Thread τ := ⟨p, .early (P.own t (P.early p))⟩

def init (isync : ℕ → Bool) : State τ := ⟨fun t => P.enter t 0, isync, []⟩

/-- One step of a thread. The first thread has no left neighbour and the last no right one. -/
def step (s : State τ) (t : ℕ) : State τ :=
  match s.threads t with
  | ⟨p, phase⟩ =>
    if P.planes ≤ p then s else
    match phase with
    | .early (a :: todo) =>
        { s with
          threads := Function.update s.threads t ⟨p, .early todo⟩
          done := s.done ++ [a] }
    | .early [] =>
        { s with
          threads := Function.update s.threads t
            ⟨p, if 0 < t ∧ t ≤ P.last then .waitLeft else .late (P.own t (P.late p))⟩ }
    | .waitLeft =>
        if s.isync (t - 1) then
          { s with threads := Function.update s.threads t ⟨p, .clearLeft⟩ }
        else s
    | .clearLeft =>
        { s with
          threads := Function.update s.threads t ⟨p, .late (P.own t (P.late p))⟩
          isync := Function.update s.isync (t - 1) false }
    | .late (a :: todo) =>
        { s with
          threads := Function.update s.threads t ⟨p, .late todo⟩
          done := s.done ++ [a] }
    | .late [] =>
        { s with
          threads := Function.update s.threads t
            (if t < P.last then ⟨p, .waitRight⟩ else P.enter t (p + 1)) }
    | .waitRight =>
        if s.isync t then s
        else { s with threads := Function.update s.threads t ⟨p, .setRight⟩ }
    | .setRight =>
        { s with
          threads := Function.update s.threads t (P.enter t (p + 1))
          isync := Function.update s.isync t true }

def run (s : State τ) (schedule : List ℕ) : State τ := schedule.foldl P.step s

def Finished (s : State τ) : Prop := ∀ t ≤ P.team, P.planes ≤ (s.threads t).plane

instance (s : State τ) : Decidable (P.Finished s) :=
  inferInstanceAs (Decidable (∀ t ≤ P.team, _))

def segment (p : ℕ) : List τ := P.early p ++ P.late p

/-- The tasks of a thread from plane `p` on. -/
def later (t p : ℕ) : List τ := P.own t ((List.range' p (P.planes - p)).flatMap P.segment)

def whole : List τ := (List.range' 0 P.planes).flatMap P.segment

def due (t p : ℕ) : Phase τ → List τ
  | .early todo => todo ++ P.own t (P.late p)
  | .waitLeft => P.own t (P.late p)
  | .clearLeft => P.own t (P.late p)
  | .late todo => todo
  | .waitRight => []
  | .setRight => []

def remaining (t : ℕ) (th : Thread τ) : List τ :=
  if th.plane < P.planes then P.due t th.plane th.phase ++ P.later t (th.plane + 1) else []

end Pipeline

def Phase.index : Phase τ → ℕ
  | .early _ => 0
  | .waitLeft => 1
  | .clearLeft => 2
  | .late _ => 3
  | .waitRight => 4
  | .setRight => 5

/-- How often a thread has lowered the flag on its left. -/
def Thread.taken (th : Thread τ) : ℕ := th.plane + if 3 ≤ th.phase.index then 1 else 0

namespace Pipeline

variable {P : Pipeline τ}

theorem later_eq {t p : ℕ} (lt : p < P.planes) :
    P.later t p = P.own t (P.early p) ++ P.own t (P.late p) ++ P.later t (p + 1) := by
  obtain ⟨n, count⟩ : ∃ n, P.planes - p = n + 1 := ⟨P.planes - p - 1, by omega⟩
  rw [later, later, count, show P.planes - (p + 1) = n by omega, List.range'_succ,
    List.flatMap_cons, own, own, own, own, segment, List.filter_append, List.filter_append]

theorem remaining_inside {p : ℕ} (inside : p < P.planes) (t : ℕ) (phase : Phase τ) :
    P.remaining t ⟨p, phase⟩ = P.due t p phase ++ P.later t (p + 1) := if_pos inside

theorem remaining_enter (t p : ℕ) : P.remaining t (P.enter t p) = P.later t p := by
  by_cases lt : p < P.planes
  · rw [later_eq lt, enter, remaining_inside lt, due]
  · rw [remaining, enter, if_neg lt, later, Nat.sub_eq_zero_of_le (not_lt.mp lt)]
    rfl

theorem mem_own {t : ℕ} {l : List τ} {a : τ} : a ∈ P.own t l ↔ a ∈ l ∧ P.owner a = t := by
  rw [own, List.mem_filter, decide_eq_true_eq]

theorem mem_later {t p q : ℕ} {a : τ} (le : p ≤ q) (lt : q < P.planes) (mem : a ∈ P.segment q)
    (mine : P.owner a = t) : a ∈ P.later t p :=
  mem_own.mpr ⟨List.mem_flatMap.mpr ⟨q, List.mem_range'_1.mpr (by omega), mem⟩, mine⟩

theorem later_zero (t : ℕ) : P.later t 0 = P.own t P.whole := rfl

/-! ### What a step can do -/

/-- A thread goes on without doing a task: its phase before and after, and what it finds in the
flag that it looks at, or leaves there. -/
inductive Passes (P : Pipeline τ) (t p : ℕ) : Phase τ → Thread τ → Prop
  | await : 0 < t ∧ t ≤ P.last → Passes P t p (.early []) ⟨p, .waitLeft⟩
  | go : ¬(0 < t ∧ t ≤ P.last) → Passes P t p (.early []) ⟨p, .late (P.own t (P.late p))⟩
  | offer : t < P.last → Passes P t p (.late []) ⟨p, .waitRight⟩
  | leave : ¬t < P.last → Passes P t p (.late []) (P.enter t (p + 1))

/-- What a step of thread `t` in plane `p` changes. -/
inductive Moves (P : Pipeline τ) (s : State τ) (t p : ℕ) : State τ → Prop
  | early (a : τ) (todo : List τ) (h : s.threads t = ⟨p, .early (a :: todo)⟩) :
      Moves P s t p ⟨Function.update s.threads t ⟨p, .early todo⟩, s.isync, s.done ++ [a]⟩
  | late (a : τ) (todo : List τ) (h : s.threads t = ⟨p, .late (a :: todo)⟩) :
      Moves P s t p ⟨Function.update s.threads t ⟨p, .late todo⟩, s.isync, s.done ++ [a]⟩
  | pass (phase : Phase τ) (th : Thread τ) (h : s.threads t = ⟨p, phase⟩)
      (passes : Passes P t p phase th) :
      Moves P s t p ⟨Function.update s.threads t th, s.isync, s.done⟩
  | seen (h : s.threads t = ⟨p, .waitLeft⟩) (up : s.isync (t - 1)) :
      Moves P s t p ⟨Function.update s.threads t ⟨p, .clearLeft⟩, s.isync, s.done⟩
  | lower (h : s.threads t = ⟨p, .clearLeft⟩) :
      Moves P s t p ⟨Function.update s.threads t ⟨p, .late (P.own t (P.late p))⟩,
        Function.update s.isync (t - 1) false, s.done⟩
  | free (h : s.threads t = ⟨p, .waitRight⟩) (down : s.isync t = false) :
      Moves P s t p ⟨Function.update s.threads t ⟨p, .setRight⟩, s.isync, s.done⟩
  | raise (h : s.threads t = ⟨p, .setRight⟩) :
      Moves P s t p ⟨Function.update s.threads t (P.enter t (p + 1)),
        Function.update s.isync t true, s.done⟩

theorem step_cases (P : Pipeline τ) (s : State τ) (t : ℕ) :
    (P.step s t = s ∧ (P.planes ≤ (s.threads t).plane ∨
      ((s.threads t).phase = .waitLeft ∧ s.isync (t - 1) = false) ∨
      ((s.threads t).phase = .waitRight ∧ s.isync t = true))) ∨
    ((s.threads t).plane < P.planes ∧ P.Moves s t (s.threads t).plane (P.step s t)) := by
  rcases h : s.threads t with ⟨p, phase⟩
  by_cases through : P.planes ≤ p
  · exact .inl ⟨by simp only [step, h, if_pos through], .inl through⟩
  have inside : p < P.planes := not_le.mp through
  cases phase with
  | early todo =>
    cases todo with
    | nil =>
      refine .inr ⟨inside, ?_⟩
      by_cases left : 0 < t ∧ t ≤ P.last
      · simpa only [step, h, if_neg through, if_pos left] using
          Moves.pass _ _ h (Passes.await left)
      · simpa only [step, h, if_neg through, if_neg left] using
          Moves.pass _ _ h (Passes.go left)
    | cons a todo =>
      refine .inr ⟨inside, ?_⟩
      simpa only [step, h, if_neg through] using Moves.early a todo h
  | waitLeft =>
    cases flag : s.isync (t - 1) with
    | false =>
      refine .inl ⟨?_, .inr (.inl ⟨rfl, rfl⟩)⟩
      simp [step, h, through, flag]
    | true =>
      refine .inr ⟨inside, ?_⟩
      simpa [step, h, through, flag] using Moves.seen h flag
  | clearLeft =>
    refine .inr ⟨inside, ?_⟩
    simpa only [step, h, if_neg through] using Moves.lower h
  | late todo =>
    cases todo with
    | nil =>
      refine .inr ⟨inside, ?_⟩
      by_cases right : t < P.last
      · simpa only [step, h, if_neg through, if_pos right] using
          Moves.pass _ _ h (Passes.offer right)
      · simpa only [step, h, if_neg through, if_neg right] using
          Moves.pass _ _ h (Passes.leave right)
    | cons a todo =>
      refine .inr ⟨inside, ?_⟩
      simpa only [step, h, if_neg through] using Moves.late a todo h
  | waitRight =>
    cases flag : s.isync t with
    | true =>
      refine .inl ⟨?_, .inr (.inr ⟨rfl, rfl⟩)⟩
      simp [step, h, through, flag]
    | false =>
      refine .inr ⟨inside, ?_⟩
      simpa [step, h, through, flag] using Moves.free h flag
  | setRight =>
    refine .inr ⟨inside, ?_⟩
    simpa only [step, h, if_neg through] using Moves.raise h

/-! ### The flags -/

/-- The flag between two neighbours is up exactly when the left one is a plane ahead of what the
right one has taken. -/
structure Flags (P : Pipeline τ) (s : State τ) : Prop where
  channel : ∀ t < P.last, (s.threads t).plane =
    (s.threads (t + 1)).taken + if s.isync t then 1 else 0
  waiting : ∀ t, (s.threads t).phase.index = 1 ∨ (s.threads t).phase.index = 2 →
    0 < t ∧ t ≤ P.last
  clearing : ∀ t, (s.threads t).phase.index = 2 → s.isync (t - 1)
  leaving : ∀ t, (s.threads t).phase.index = 4 ∨ (s.threads t).phase.index = 5 → t < P.last
  setting : ∀ t, (s.threads t).phase.index = 5 → s.isync t = false

variable {s : State τ} {t p : ℕ}

theorem flags_init {isync : ℕ → Bool} (down : ∀ t < P.last, isync t = false) :
    P.Flags (P.init isync) where
  channel t lt := by simp [init, enter, Thread.taken, Phase.index, down t lt]
  waiting t h := by simp [init, enter, Phase.index] at h
  clearing t h := by simp [init, enter, Phase.index] at h
  leaving t h := by simp [init, enter, Phase.index] at h
  setting t h := by simp [init, enter, Phase.index] at h

theorem Flags.frame (h : P.Flags s) (t : ℕ) (th : Thread τ) (done : List τ)
    (plane : t < P.last → th.plane = (s.threads t).plane)
    (taken : 0 < t → t ≤ P.last → th.taken = (s.threads t).taken)
    (waiting : th.phase.index = 1 ∨ th.phase.index = 2 → 0 < t ∧ t ≤ P.last)
    (clearing : th.phase.index = 2 → s.isync (t - 1))
    (leaving : th.phase.index = 4 ∨ th.phase.index = 5 → t < P.last)
    (setting : th.phase.index = 5 → s.isync t = false) :
    P.Flags ⟨Function.update s.threads t th, s.isync, done⟩ where
  channel u lt := by
    have before := h.channel u lt
    obtain left | left := eq_or_ne u t
    · subst left
      simpa [plane lt] using before
    · obtain right | right := eq_or_ne (u + 1) t
      · subst right
        simpa [taken u.succ_pos lt] using before
      · simpa [left, right] using before
  waiting u := by
    obtain rfl | ne := eq_or_ne u t
    · simpa using waiting
    · simpa [ne] using h.waiting u
  clearing u := by
    obtain rfl | ne := eq_or_ne u t
    · simpa using clearing
    · simpa [ne] using h.clearing u
  leaving u := by
    obtain rfl | ne := eq_or_ne u t
    · simpa using leaving
    · simpa [ne] using h.leaving u
  setting u := by
    obtain rfl | ne := eq_or_ne u t
    · simpa using setting
    · simpa [ne] using h.setting u

theorem Flags.lower (h : P.Flags s) (here : s.threads t = ⟨p, .clearLeft⟩) (todo done : List τ) :
    P.Flags ⟨Function.update s.threads t ⟨p, .late todo⟩,
      Function.update s.isync (t - 1) false, done⟩ := by
  have index : (s.threads t).phase.index = 2 := by rw [here]; rfl
  obtain ⟨pos, le⟩ := h.waiting t (.inr index)
  have up := h.clearing t index
  refine ⟨fun u lt => ?_, fun u => ?_, fun u => ?_, fun u => ?_, fun u => ?_⟩
  · have before := h.channel u lt
    obtain right | right := eq_or_ne (u + 1) t
    · subst right
      rw [here, show s.isync u = true from up] at before
      simpa [Thread.taken, Phase.index] using before
    · obtain left | left := eq_or_ne u t
      · subst left
        rw [here] at before
        simpa [show u ≠ u - 1 by omega] using before
      · simpa [left, right, show u ≠ t - 1 by omega] using before
  · obtain rfl | ne := eq_or_ne u t
    · simp [Phase.index]
    · simpa [ne] using h.waiting u
  · obtain rfl | ne := eq_or_ne u t
    · simp [Phase.index]
    · intro now
      simp only [Function.update_of_ne ne] at now
      have := h.waiting u (.inr now)
      exact (Function.update_of_ne (by omega) ..).trans (h.clearing u now)
  · obtain rfl | ne := eq_or_ne u t
    · simp [Phase.index]
    · simpa [ne] using h.leaving u
  · obtain rfl | ne := eq_or_ne u t
    · simp [Phase.index]
    · intro now
      simp only [Function.update_of_ne ne] at now
      simp [Function.update_apply, h.setting u now]

theorem Flags.raise (h : P.Flags s) (here : s.threads t = ⟨p, .setRight⟩) (todo done : List τ) :
    P.Flags ⟨Function.update s.threads t ⟨p + 1, .early todo⟩,
      Function.update s.isync t true, done⟩ := by
  have index : (s.threads t).phase.index = 5 := by rw [here]; rfl
  have lt := h.leaving t (.inr index)
  have down := h.setting t index
  refine ⟨fun u bound => ?_, fun u => ?_, fun u => ?_, fun u => ?_, fun u => ?_⟩
  · have before := h.channel u bound
    obtain left | left := eq_or_ne u t
    · subst left
      rw [here, down] at before
      simpa using before
    · obtain right | right := eq_or_ne (u + 1) t
      · subst right
        rw [here] at before
        simpa [Thread.taken, Phase.index] using before
      · simpa [left, right] using before
  · obtain rfl | ne := eq_or_ne u t
    · simp [Phase.index]
    · simpa [ne] using h.waiting u
  · obtain rfl | ne := eq_or_ne u t
    · simp [Phase.index]
    · intro now
      simp only [Function.update_of_ne ne] at now
      simp [Function.update_apply, h.clearing u now]
  · obtain rfl | ne := eq_or_ne u t
    · simp [Phase.index]
    · simpa [ne] using h.leaving u
  · obtain rfl | ne := eq_or_ne u t
    · simp [Phase.index]
    · simpa [ne] using h.setting u

theorem Flags.step (h : P.Flags s) (t : ℕ) : P.Flags (P.step s t) := by
  obtain ⟨same, -⟩ | ⟨-, moves⟩ := P.step_cases s t
  · rw [same]
    exact h
  generalize P.step s t = s', (s.threads t).plane = p at moves
  cases moves with
  | early a todo here | late a todo here =>
    refine h.frame t _ _ ?_ ?_ ?_ ?_ ?_ ?_ <;> simp [here, Thread.taken, Phase.index]
  | pass phase th here passes =>
    cases passes with
    | await inner =>
      refine h.frame t _ _ ?_ ?_ ?_ ?_ ?_ ?_ <;> simp [here, Thread.taken, Phase.index, inner]
    | go outer =>
      refine h.frame t _ _ ?_ (fun pos le => absurd ⟨pos, le⟩ outer) ?_ ?_ ?_ ?_ <;>
        simp [here, Phase.index]
    | offer inner =>
      refine h.frame t _ _ ?_ ?_ ?_ ?_ ?_ ?_ <;> simp [here, Thread.taken, Phase.index, inner]
    | leave outer =>
      refine h.frame t _ _ (fun lt => absurd lt outer) ?_ ?_ ?_ ?_ ?_ <;>
        simp [here, enter, Thread.taken, Phase.index]
  | seen here up =>
    have inner := h.waiting t (.inl (by rw [here]; rfl))
    refine h.frame t _ _ ?_ ?_ (fun _ => inner) (fun _ => up) ?_ ?_ <;>
      simp [here, Thread.taken, Phase.index]
  | lower here => exact h.lower here _ _
  | free here down =>
    have inner := h.leaving t (.inl (by rw [here]; rfl))
    refine h.frame t _ _ ?_ ?_ ?_ ?_ (fun _ => inner) (fun _ => down) <;>
      simp [here, Thread.taken, Phase.index]
  | raise here => exact h.raise here _ _

theorem Flags.run (h : P.Flags s) (schedule : List ℕ) : P.Flags (P.run s schedule) := by
  induction schedule generalizing s with
  | nil => exact h
  | cons t schedule ih => exact ih (h.step t)

/-- A thread has taken no plane that one on its left has not finished. -/
theorem Flags.taken_le (h : P.Flags s) {t u : ℕ} (lt : t < u) (le : u ≤ P.last) :
    (s.threads u).taken ≤ (s.threads t).plane := by
  have own (v : ℕ) : (s.threads v).plane ≤ (s.threads v).taken := Nat.le_add_right ..
  induction u, lt using Nat.le_induction with
  | base => exact Nat.le.intro (h.channel t le).symm
  | succ u lt ih =>
    have before := ih (by omega)
    have channel := h.channel u (by omega)
    have := own u
    omega

theorem Flags.down (h : P.Flags s) (finished : P.Finished s) (le : P.last ≤ P.team)
    (bounded : ∀ t ≤ P.team, (s.threads t).plane ≤ P.planes) {t : ℕ} (lt : t < P.last) :
    s.isync t = false := by
  have channel := h.channel t lt
  have right := finished (t + 1) (by omega)
  have left := bounded t (by omega)
  have own : (s.threads (t + 1)).plane ≤ (s.threads (t + 1)).taken := Nat.le_add_right ..
  cases flag : s.isync t with
  | false => rfl
  | true =>
    have : (s.threads t).plane = (s.threads (t + 1)).taken + 1 := by rw [channel, flag, if_pos rfl]
    omega

/-! ### The tasks -/

/-- No thread has lost a task, done one twice or gone past the planes. -/
structure Accounts (P : Pipeline τ) (s : State τ) : Prop where
  bounded : ∀ t, (s.threads t).plane ≤ P.planes
  within : ∀ t, ∀ a ∈ P.remaining t (s.threads t), a ∈ P.later t (s.threads t).plane
  account : ∀ t, P.own t s.done ++ P.remaining t (s.threads t) = P.own t P.whole

theorem accounts_init (P : Pipeline τ) (isync : ℕ → Bool) : P.Accounts (P.init isync) where
  bounded _ := Nat.zero_le _
  within t _ mem := (P.remaining_enter t 0) ▸ mem
  account t := (P.remaining_enter t 0).trans (P.later_zero t)

theorem Accounts.owner_eq (h : P.Accounts s) {a : τ} (mem : a ∈ P.remaining t (s.threads t)) :
    P.owner a = t := by
  have own : a ∈ P.own t P.whole := by
    rw [← h.account t]
    exact List.mem_append_right _ mem
  exact (mem_own.mp own).2

theorem Accounts.frame (h : P.Accounts s) (t : ℕ) (th : Thread τ) (isync : ℕ → Bool)
    (bounded : th.plane ≤ P.planes) (within : ∀ a ∈ P.remaining t th, a ∈ P.later t th.plane)
    (remaining : P.remaining t th = P.remaining t (s.threads t)) :
    P.Accounts ⟨Function.update s.threads t th, isync, s.done⟩ where
  bounded u := by
    obtain rfl | ne := eq_or_ne u t
    · simpa using bounded
    · simpa [ne] using h.bounded u
  within u := by
    obtain rfl | ne := eq_or_ne u t
    · simpa using within
    · simpa [ne] using h.within u
  account u := by
    obtain rfl | ne := eq_or_ne u t
    · simpa [remaining] using h.account u
    · simpa [ne] using h.account u

theorem Accounts.work (h : P.Accounts s) (t : ℕ) (th : Thread τ) (a : τ)
    (plane : th.plane = (s.threads t).plane)
    (remaining : P.remaining t (s.threads t) = a :: P.remaining t th) :
    P.Accounts ⟨Function.update s.threads t th, s.isync, s.done ++ [a]⟩ where
  bounded u := by
    obtain rfl | ne := eq_or_ne u t
    · simpa [plane] using h.bounded u
    · simpa [ne] using h.bounded u
  within u := by
    obtain rfl | ne := eq_or_ne u t
    · have before := h.within u
      rw [remaining, ← plane] at before
      simpa using fun b mem => before b (List.mem_cons_of_mem a mem)
    · simpa [ne] using h.within u
  account u := by
    have mine : P.owner a = t := h.owner_eq (remaining ▸ List.mem_cons_self)
    have account := h.account u
    rw [own] at account ⊢
    obtain rfl | ne := eq_or_ne u t
    · rw [remaining] at account
      simpa [mine] using account
    · simpa [ne, mine, ne.symm] using account

theorem Accounts.pass (h : P.Accounts s) {phase : Phase τ} (here : s.threads t = ⟨p, phase⟩)
    (inside : p < P.planes) (phase' : Phase τ) (isync : ℕ → Bool)
    (due : P.due t p phase' = P.due t p phase) :
    P.Accounts ⟨Function.update s.threads t ⟨p, phase'⟩, isync, s.done⟩ := by
  have same : P.remaining t ⟨p, phase'⟩ = P.remaining t ⟨p, phase⟩ := by
    rw [remaining_inside inside, remaining_inside inside, due]
  refine h.frame t _ isync inside.le (fun a mem => ?_) (by rw [here, same])
  have within := h.within t a
  rw [here, ← same] at within
  exact within mem

theorem Accounts.next (h : P.Accounts s) {phase : Phase τ} (here : s.threads t = ⟨p, phase⟩)
    (inside : p < P.planes) (isync : ℕ → Bool)
    (through : P.due t p phase = []) :
    P.Accounts ⟨Function.update s.threads t (P.enter t (p + 1)), isync, s.done⟩ := by
  refine h.frame t _ isync inside (fun a mem => ?_)
    (by rw [here, remaining_enter, remaining_inside inside, through, List.nil_append])
  rw [remaining_enter] at mem
  exact mem

theorem Accounts.step (h : P.Accounts s) (t : ℕ) : P.Accounts (P.step s t) := by
  obtain ⟨same, -⟩ | ⟨inside, moves⟩ := P.step_cases s t
  · rw [same]
    exact h
  generalize P.step s t = s', plane : (s.threads t).plane = p at moves inside
  cases moves with
  | early a todo here | late a todo here =>
    refine h.work t _ a plane.symm ?_
    rw [here, remaining_inside inside, remaining_inside inside]
    rfl
  | pass phase th here passes =>
    cases passes with
    | await inner | go outer | offer inner => exact h.pass here inside _ _ rfl
    | leave outer => exact h.next here inside _ rfl
  | seen here up | lower here | free here down => exact h.pass here inside _ _ rfl
  | raise here => exact h.next here inside _ rfl

theorem Accounts.run (h : P.Accounts s) (schedule : List ℕ) : P.Accounts (P.run s schedule) := by
  induction schedule generalizing s with
  | nil => exact h
  | cons t schedule ih => exact ih (h.step t)

/-! ### The order of the tasks -/

/-- What makes the handing over enough: tasks of two threads that must keep an order belong to
threads in that order, and the later one waits for its left neighbour in the plane of the first
or in one after it. -/
structure Laws (P : Pipeline τ) (prec : τ → τ → Prop) : Prop where
  last_le : P.last ≤ P.team
  owner_le : ∀ a ∈ P.whole, P.owner a ≤ P.last
  once : P.whole.Nodup
  ordered : P.whole.Pairwise fun a b => ¬prec b a
  cross : ∀ a ∈ P.whole, ∀ b ∈ P.whole, prec a b → P.owner a ≠ P.owner b →
    P.owner a < P.owner b ∧ ∃ q < P.planes, a ∈ P.segment q ∧ b ∈ P.late q

theorem mem_segment_unique (once : P.whole.Nodup) {a : τ} {q q' : ℕ} (lt : q < P.planes)
    (lt' : q' < P.planes) (mem : a ∈ P.segment q) (mem' : a ∈ P.segment q') : q = q' := by
  by_contra ne
  have : Std.Symm (Function.onFun List.Disjoint P.segment) := ⟨fun _ _ apart => apart.symm⟩
  exact (List.nodup_flatMap.mp once).2.forall (List.mem_range'_1.mpr (by omega))
    (List.mem_range'_1.mpr (by omega)) ne mem mem'

theorem Accounts.not_done (h : P.Accounts s) (once : P.whole.Nodup) {a : τ}
    (mem : a ∈ P.remaining t (s.threads t)) : a ∉ s.done := by
  intro done
  have split : (P.own t P.whole).Nodup := once.filter _
  rw [← h.account t] at split
  exact (List.nodup_append.mp split).2.2 a (mem_own.mpr ⟨done, h.owner_eq mem⟩) a mem rfl

/-- A thread that has done a task of the part after the flag has taken the plane. -/
theorem Accounts.lt_taken (h : P.Accounts s) (once : P.whole.Nodup) {b : τ} {q : ℕ}
    (inside : q < P.planes) (mem : b ∈ P.late q) (done : b ∈ s.done) :
    q < (s.threads (P.owner b)).taken := by
  by_contra! le
  refine h.not_done once (t := P.owner b) ?_ done
  rcases here : s.threads (P.owner b) with ⟨p, phase⟩
  rw [here, Thread.taken] at le
  dsimp only at le
  have before : p < P.planes := by omega
  rw [remaining_inside before]
  obtain less | same := lt_or_eq_of_le (show p ≤ q by omega)
  · exact List.mem_append_right _ (mem_later less inside (List.mem_append_right _ mem) rfl)
  · refine List.mem_append_left _ ?_
    subst same
    have own : b ∈ P.own (P.owner b) (P.late p) := mem_own.mpr ⟨mem, rfl⟩
    cases phase with
    | early todo => exact List.mem_append_right _ own
    | waitLeft | clearLeft => exact own
    | late todo | waitRight | setRight => simp [Phase.index] at le

theorem Accounts.mem_whole (h : P.Accounts s) {a : τ} (done : a ∈ s.done) : a ∈ P.whole := by
  have own : a ∈ P.own (P.owner a) P.whole := by
    rw [← h.account]
    exact List.mem_append_left _ (mem_own.mpr ⟨done, rfl⟩)
  exact (mem_own.mp own).1

theorem next_not_prec {prec : τ → τ → Prop} (laws : P.Laws prec) (flags : P.Flags s)
    (accounts : P.Accounts s) {a b : τ} {rest : List τ}
    (next : P.remaining t (s.threads t) = a :: rest) (done : b ∈ s.done) : ¬prec a b := by
  intro before
  have here : a ∈ P.remaining t (s.threads t) := next ▸ List.mem_cons_self
  have account := accounts.account t
  obtain ⟨whole, rfl⟩ : a ∈ P.whole ∧ P.owner a = t := by
    refine mem_own.mp ?_
    rw [← account]
    exact List.mem_append_right _ here
  by_cases same : P.owner a = P.owner b
  · -- the tasks of one thread are done in their order
    have ordered : (P.own (P.owner a) P.whole).Pairwise fun x y => ¬prec y x :=
      laws.ordered.filter _
    rw [← account, next] at ordered
    exact (List.pairwise_append.mp ordered).2.2 b (mem_own.mpr ⟨done, same.symm⟩) a
      List.mem_cons_self before
  · have whole' := accounts.mem_whole done
    obtain ⟨less, q, inside, mem, late⟩ := laws.cross a whole b whole' before same
    have taken : q < (s.threads (P.owner b)).taken := accounts.lt_taken laws.once inside late done
    have ahead := flags.taken_le less (laws.owner_le b whole')
    obtain ⟨q', range, mem'⟩ := List.mem_flatMap.mp (mem_own.mp (accounts.within _ a here)).1
    rw [List.mem_range'_1] at range
    have := mem_segment_unique laws.once inside (by omega) mem mem'
    omega

theorem ordered_step {prec : τ → τ → Prop} (laws : P.Laws prec) (flags : P.Flags s)
    (accounts : P.Accounts s) (ordered : s.done.Pairwise fun a b => ¬prec b a) (t : ℕ) :
    (P.step s t).done.Pairwise fun a b => ¬prec b a := by
  have extend (a : τ) (next : ∃ rest, P.remaining t (s.threads t) = a :: rest) :
      (s.done ++ [a]).Pairwise fun a b => ¬prec b a :=
    List.pairwise_append.mpr ⟨ordered, List.pairwise_singleton _ _, fun b done c mem =>
      List.mem_singleton.mp mem ▸ next_not_prec laws flags accounts next.choose_spec done⟩
  obtain ⟨same, -⟩ | ⟨inside, moves⟩ := P.step_cases s t
  · rw [same]
    exact ordered
  generalize P.step s t = s', (s.threads t).plane = p at moves inside
  cases moves with
  | early a todo here | late a todo here =>
    exact extend a ⟨_, (congrArg (P.remaining t) here).trans (remaining_inside inside t _)⟩
  | _ => exact ordered

theorem ordered_run {prec : τ → τ → Prop} (laws : P.Laws prec) (flags : P.Flags s)
    (accounts : P.Accounts s) (ordered : s.done.Pairwise fun a b => ¬prec b a)
    (schedule : List ℕ) : (P.run s schedule).done.Pairwise fun a b => ¬prec b a := by
  induction schedule generalizing s with
  | nil => exact ordered
  | cons t schedule ih =>
    exact ih (flags.step t) (accounts.step t) (ordered_step laws flags accounts ordered t)

theorem Accounts.nodup_done (h : P.Accounts s) (once : P.whole.Nodup) : s.done.Nodup := by
  refine List.nodup_iff_sublist.mpr fun a twice => ?_
  have own := twice.filter fun b => P.owner b = P.owner a
  have split : (P.own (P.owner a) P.whole).Nodup := once.filter _
  rw [← h.account] at split
  refine List.nodup_iff_sublist.mp (List.nodup_append.mp split).1 a ?_
  simpa [Pipeline.own] using own

theorem Accounts.perm (h : P.Accounts s) {prec : τ → τ → Prop} (laws : P.Laws prec)
    (finished : P.Finished s) : s.done.Perm P.whole := by
  refine (List.perm_ext_iff_of_nodup (h.nodup_done laws.once) laws.once).mpr fun a =>
    ⟨h.mem_whole, fun mem => ?_⟩
  have through := finished (P.owner a) ((laws.owner_le a mem).trans laws.last_le)
  have account := h.account (P.owner a)
  rw [remaining, if_neg (not_lt.mpr through), List.append_nil] at account
  have own : a ∈ P.own (P.owner a) s.done := account ▸ mem_own.mpr ⟨mem, rfl⟩
  exact (mem_own.mp own).1

/-! ### Every thread comes through -/

/-- A thread waits for a flag that its neighbour has not set as it must be. -/
def Spins (s : State τ) (t : ℕ) : Prop :=
  ((s.threads t).phase = .waitLeft ∧ s.isync (t - 1) = false) ∨
  ((s.threads t).phase = .waitRight ∧ s.isync t = true)

/-- Not all threads spin: a thread that waits for its left neighbour leads to one further left
that does so, and one that waits for its right neighbour to one further right. -/
theorem exists_moving (flags : P.Flags s) (le : P.last ≤ P.team) (unfinished : ¬P.Finished s) :
    ∃ t ≤ P.team, (s.threads t).plane < P.planes ∧ ¬Spins s t := by
  by_contra! stuck
  have waitLeft (t : ℕ) (inside : (s.threads t).plane < P.planes)
      (waits : (s.threads t).phase = .waitLeft) (down : s.isync (t - 1) = false) : False := by
    induction t with
    | zero => exact Nat.lt_irrefl _ (flags.waiting 0 (.inl (by rw [waits]; rfl))).1
    | succ t ih =>
      have lt : t < P.last := (flags.waiting (t + 1) (.inl (by rw [waits]; rfl))).2
      have channel := flags.channel t lt
      rw [show s.isync t = false from down, Thread.taken, waits] at channel
      have same : (s.threads t).plane = (s.threads (t + 1)).plane := channel
      obtain ⟨waits', down'⟩ | ⟨-, up⟩ := stuck t (by omega) (same ▸ inside)
      · exact ih (same ▸ inside) waits' down'
      · rw [show s.isync t = false from down] at up
        cases up
  have waitRight (n t : ℕ) (far : P.last ≤ t + n) (inside : (s.threads t).plane < P.planes)
      (waits : (s.threads t).phase = .waitRight) (up : s.isync t = true) : False := by
    have lt : t < P.last := flags.leaving t (.inl (by rw [waits]; rfl))
    induction n generalizing t with
    | zero => omega
    | succ n ih =>
      have channel := flags.channel t lt
      rw [up, if_pos rfl, Thread.taken] at channel
      have inside' : (s.threads (t + 1)).plane < P.planes := by omega
      obtain ⟨-, down⟩ | ⟨waits', up'⟩ := stuck (t + 1) (by omega) inside'
      · rw [show s.isync t = false from down] at up
        cases up
      · exact ih (t + 1) (by omega) inside' waits' up'
          (flags.leaving (t + 1) (.inl (by rw [waits']; rfl)))
  refine unfinished fun t bound => not_lt.mp fun inside => ?_
  obtain ⟨waits, down⟩ | ⟨waits, up⟩ := stuck t bound inside
  · exact waitLeft t inside waits down
  · exact waitRight P.last t (by omega) inside waits up

def weight (P : Pipeline τ) (t : ℕ) (th : Thread τ) : ℕ :=
  6 * (P.planes - th.plane) + (P.remaining t th).length - th.phase.index

theorem weight_inside (inside : p < P.planes) (t : ℕ) (phase : Phase τ) :
    P.weight t ⟨p, phase⟩ = 6 * (P.planes - p) + (P.due t p phase).length +
      (P.later t (p + 1)).length - phase.index := by
  rw [weight, remaining_inside inside, List.length_append, ← Nat.add_assoc]

theorem weight_enter (t p : ℕ) :
    P.weight t (P.enter t p) = 6 * (P.planes - p) + (P.later t p).length := by
  rw [weight, remaining_enter]
  rfl

theorem weight_eq_zero (t : ℕ) (th : Thread τ) : P.weight t th = 0 ↔ P.planes ≤ th.plane := by
  obtain ⟨p, phase⟩ := th
  by_cases inside : p < P.planes
  · have index : phase.index ≤ 5 := by cases phase <;> simp [Phase.index]
    rw [weight_inside inside]
    dsimp only
    omega
  · rw [weight, remaining, if_neg inside, Nat.sub_eq_zero_of_le (not_lt.mp inside)]
    simpa using not_lt.mp inside

theorem Moves.weight_lt {s' : State τ} (moves : P.Moves s t p s') (inside : p < P.planes) :
    P.weight t (s'.threads t) < P.weight t (s.threads t) ∧
      ∀ u ≠ t, s'.threads u = s.threads u := by
  refine ⟨?_, ?_⟩
  · cases moves with
    | early a todo here | late a todo here =>
      simp only [here, Function.update_self, weight_inside inside, due, Phase.index,
        List.length_cons, List.length_append]
      omega
    | pass phase th here passes =>
      cases passes <;>
        simp only [here, Function.update_self, weight_inside inside, weight_enter, due,
          Phase.index, List.length_append, List.length_nil] <;> omega
    | seen here _ | lower here | free here _ | raise here =>
      simp only [here, Function.update_self, weight_inside inside, weight_enter, due,
        Phase.index, List.length_nil]
      omega
  · intro u ne
    cases moves <;> exact Function.update_of_ne ne ..

def total (P : Pipeline τ) (s : State τ) : ℕ :=
  ∑ t ∈ Finset.range (P.team + 1), P.weight t (s.threads t)

theorem total_eq_zero : P.total s = 0 ↔ P.Finished s := by
  rw [total, Finset.sum_eq_zero_iff]
  refine forall_congr' fun t => ?_
  rw [weight_eq_zero, Finset.mem_range, Nat.lt_succ_iff]

theorem total_step (P : Pipeline τ) (s : State τ) {t : ℕ} (bound : t ≤ P.team) :
    (P.step s t = s ∧ (P.planes ≤ (s.threads t).plane ∨ Spins s t)) ∨
      P.total (P.step s t) < P.total s := by
  obtain still | ⟨inside, moves⟩ := P.step_cases s t
  · exact .inl still
  obtain ⟨less, others⟩ := moves.weight_lt inside
  refine .inr (Finset.sum_lt_sum (fun u _ => ?_) ⟨t, Finset.mem_range.mpr (by omega), less⟩)
  obtain rfl | ne := eq_or_ne u t
  · exact less.le
  · rw [others u ne]

theorem total_run (P : Pipeline τ) (s : State τ) {schedule : List ℕ}
    (bound : ∀ t ∈ schedule, t ≤ P.team) :
    (P.run s schedule = s ∧
      ∀ t ∈ schedule, P.planes ≤ (s.threads t).plane ∨ Spins s t) ∨
      P.total (P.run s schedule) < P.total s := by
  induction schedule generalizing s with
  | nil => exact .inl ⟨rfl, fun _ none => nomatch none⟩
  | cons t schedule ih =>
    have rest : P.run s (t :: schedule) = P.run (P.step s t) schedule := rfl
    have later := ih (P.step s t) fun u mem => bound u (List.mem_cons_of_mem _ mem)
    rw [rest]
    obtain ⟨still, blocked⟩ | less := P.total_step s (bound t List.mem_cons_self)
    · rw [still] at later ⊢
      refine later.imp_left fun ⟨same, others⟩ => ⟨same, fun u mem => ?_⟩
      obtain rfl | mem := List.mem_cons.mp mem
      · exact blocked
      · exact others u mem
    · obtain ⟨same, -⟩ | less' := later
      · rw [same]
        exact .inr less
      · exact .inr (less'.trans less)

/-- Rounds in which every thread of the team has its turn end with the whole team through, when
there are as many of them as the team has steps before it. -/
theorem finished_rounds (flags : P.Flags s) (le : P.last ≤ P.team)
    {rounds : List (List ℕ)} (turns : ∀ round ∈ rounds, ∀ t, t ∈ round ↔ t ≤ P.team)
    (enough : P.total s ≤ rounds.length) : P.Finished (P.run s rounds.flatten) := by
  induction rounds generalizing s with
  | nil => exact total_eq_zero.mp (Nat.le_zero.mp enough)
  | cons round rounds ih =>
    have bound : ∀ t ∈ round, t ≤ P.team := fun t => (turns round List.mem_cons_self t).mp
    have split : P.run s (round :: rounds).flatten = P.run (P.run s round) rounds.flatten := by
      rw [List.flatten_cons, run, run, run, List.foldl_append]
    rw [split]
    refine ih (flags.run round) (fun r mem => turns r (List.mem_cons_of_mem _ mem)) ?_
    obtain ⟨same, blocked⟩ | less := P.total_run s bound
    · rw [same]
      by_cases finished : P.Finished s
      · exact (total_eq_zero.mpr finished).trans_le (Nat.zero_le _)
      · obtain ⟨t, team, inside, free⟩ := exists_moving flags le finished
        obtain through | spins := blocked t ((turns round List.mem_cons_self t).mpr team)
        · omega
        · exact absurd spins free
    · rw [List.length_cons] at enough
      omega

/-! ### From the start -/

theorem down_of_finished (le : P.last ≤ P.team) {isync : ℕ → Bool}
    (down : ∀ t < P.last, isync t = false) {schedule : List ℕ}
    (finished : P.Finished (P.run (P.init isync) schedule)) :
    ∀ t < P.last, (P.run (P.init isync) schedule).isync t = false := fun _ lt =>
  ((flags_init down).run schedule).down finished le
    (fun u _ => ((accounts_init P isync).run schedule).bounded u) lt

theorem run_init {prec : τ → τ → Prop} (laws : P.Laws prec) {isync : ℕ → Bool}
    (down : ∀ t < P.last, isync t = false) {schedule : List ℕ}
    (finished : P.Finished (P.run (P.init isync) schedule)) :
    (P.run (P.init isync) schedule).done.Perm P.whole ∧
      (P.run (P.init isync) schedule).done.Pairwise fun a b => ¬prec b a :=
  ⟨((accounts_init P isync).run schedule).perm laws finished,
    ordered_run laws (flags_init down) (accounts_init P isync) List.Pairwise.nil schedule⟩

theorem sum_own_le (P : Pipeline τ) (l : List τ) :
    ∑ t ∈ Finset.range (P.team + 1), (P.own t l).length ≤ l.length := by
  induction l with
  | nil => simp [own]
  | cons a l ih =>
    have split (t : ℕ) : (P.own t (a :: l)).length =
        (P.own t l).length + if P.owner a = t then 1 else 0 := by
      by_cases mine : P.owner a = t <;> simp [own, mine]
    have one : ∑ t ∈ Finset.range (P.team + 1), (if P.owner a = t then 1 else 0) ≤ 1 := by
      rw [Finset.sum_ite_eq]
      split_ifs <;> simp
    simp only [split, Finset.sum_add_distrib, List.length_cons]
    omega

theorem total_init_le (P : Pipeline τ) (isync : ℕ → Bool) :
    P.total (P.init isync) ≤ 6 * P.planes * (P.team + 1) + P.whole.length := by
  have each (t : ℕ) : P.weight t ((P.init isync).threads t) =
      6 * P.planes + (P.own t P.whole).length := P.weight_enter t 0
  simp only [total, each, Finset.sum_add_distrib, Finset.sum_const, Finset.card_range, smul_eq_mul]
  have := P.sum_own_le P.whole
  rw [Nat.mul_comm (6 * P.planes)]
  omega

end Pipeline
end Baseliner.HandshakePipeline
