import Mathlib.Data.Finset.Insert
import Mathlib.Data.Finset.Erase
import Baseliner.GuardedRuns

/-! The table of advertised routers that `rdisc` keeps, and the default routes
it has in the kernel. An `SIOCADDRT` adds the route to a router to the set, an
`SIOCDELRT` takes it out. With `best_preference` only the routers with the
greatest preference have a route. -/

namespace Baseliner.RdiscTable

open GuardedRuns

structure Entry where
  router : UInt32
  preference : Int32
  remainingTime : Int32
  inKernel : Bool
  deriving DecidableEq, Repr

structure Rdisc where
  table : List Entry
  routes : Finset UInt32

/-- The least `int`. -/
def INELIGIBLE_PREF : Int32 := Int32.minValue

def findRouter (table : List Entry) (addr : UInt32) : Option Entry :=
  table.find? fun tp => tp.router = addr

def maxPreference (table : List Entry) : Int32 :=
  table.foldl (fun max tp => if tp.preference > max then tp.preference else max) INELIGIBLE_PREF

/-- Writes through the pointer that `find_router` returns. -/
def withRouter (addr : UInt32) (f : Entry → Entry) : List Entry → List Entry
  | [] => []
  | tp :: rest => if tp.router = addr then f tp :: rest else tp :: withRouter addr f rest

def rtioctl (on : Bool) (addr : UInt32) (routes : Finset UInt32) : Finset UInt32 :=
  if on then insert addr routes else routes.erase addr

def Entry.set (on : Bool) (tp : Entry) : Entry := { tp with inKernel := on }

/-- A pass over the table: where `cond` holds the route is added or deleted. -/
def pass (cond : Entry → Bool) (on : Bool) : List Entry → Finset UInt32 → Rdisc
  | [], routes => ⟨[], routes⟩
  | tp :: rest, routes =>
      let after := pass cond on rest (if cond tp then rtioctl on tp.router routes else routes)
      { after with table := (if cond tp then tp.set on else tp) :: after.table }

def addMax (s : Rdisc) : Rdisc :=
  let max := maxPreference s.table
  if max ≠ INELIGIBLE_PREF then
    pass (fun tp => tp.preference = max ∧ ¬ tp.inKernel) true s.table s.routes
  else s

def delBelow (s : Rdisc) : Rdisc :=
  let max := maxPreference s.table
  pass (fun tp => tp.preference < max ∧ tp.inKernel) false s.table s.routes

def Entry.age (time : Int32) (tp : Entry) : Entry :=
  { tp with remainingTime := tp.remainingTime - time }

def Entry.expired (tp : Entry) : Prop := tp.remainingTime ≤ 0

instance (tp : Entry) : Decidable tp.expired := inferInstanceAs (Decidable (_ ≤ _))

/-- The first loop of `age_table`: the table that is left with the routes, and
whether a router with the preference `max` is gone. -/
def expire (best : Bool) (time max : Int32) : List Entry → Finset UInt32 → Rdisc × Bool
  | [], routes => (⟨[], routes⟩, false)
  | tp :: rest, routes =>
      if (tp.age time).expired then
        let (s, recalculate) := expire best time max rest
          (if tp.inKernel then rtioctl false tp.router routes else routes)
        (s, (best && tp.preference = max) || recalculate)
      else
        let (s, recalculate) := expire best time max rest routes
        ({ s with table := tp.age time :: s.table }, recalculate)

def ageTable (best : Bool) (s : Rdisc) (time : Int32) : Rdisc :=
  let (s, recalculate) := expire best time (maxPreference s.table) s.table s.routes
  if recalculate then addMax s else s

def discardTable (s : Rdisc) : Rdisc where
  table := []
  routes := s.table.foldl
    (fun routes tp => if tp.inKernel then rtioctl false tp.router routes else routes) s.routes

/-- The entry of `router` is changed or made: the new table, `changed_up` and
`changed_down`. -/
def enlist (table : List Entry) (router : UInt32) (preference ttl : Int32) :
    List Entry × Bool × Bool :=
  let oldMax := maxPreference table
  match findRouter table router with
  | some tp =>
      let changedDown := tp.preference > preference ∧ tp.preference = oldMax
      (withRouter router (fun tp => { tp with preference := preference, remainingTime := ttl })
          table,
        decide (¬ changedDown ∧ preference > tp.preference), decide changedDown)
  | none => (⟨router, preference, ttl, false⟩ :: table, preference > oldMax, false)

def marked (router : UInt32) (s : Rdisc) : Bool := (findRouter s.table router).any (·.inKernel)

def switch (on : Bool) (router : UInt32) (s : Rdisc) : Rdisc :=
  ⟨withRouter router (Entry.set on) s.table, rtioctl on router s.routes⟩

/-- The two tests of the entry of `router` alone. -/
def switchRouter (best : Bool) (router : UInt32) (preference : Int32) (s : Rdisc) : Rdisc :=
  let s :=
    if ¬ marked router s ∧ (¬ best ∨ preference = maxPreference s.table) ∧
        preference ≠ INELIGIBLE_PREF then switch true router s
    else s
  if preference = INELIGIBLE_PREF ∧ marked router s then switch false router s else s

def recordRouter (best : Bool) (s : Rdisc) (router : UInt32) (preference ttl : Int32) : Rdisc :=
  let preference := if ttl < 4 then INELIGIBLE_PREF else preference
  let (table, changedUp, changedDown) := enlist s.table router preference ttl
  let s := switchRouter best router preference { s with table := table }
  let s := if best ∧ changedDown then addMax s else s
  if best ∧ (changedUp ∨ changedDown) then delBelow s else s

inductive Call
  | recordRouter (router : UInt32) (preference ttl : Int32)
  | ageTable (time : Int32)
  | discardTable

def step (best : Bool) (s : Rdisc) : Call → Rdisc
  | .recordRouter router preference ttl => recordRouter best s router preference ttl
  | .ageTable time => ageTable best s time
  | .discardTable => discardTable s

/-! ### The greatest preference -/

theorem foldl_max (table : List Entry) (start : Int32) :
    let max := table.foldl
      (fun max tp => if tp.preference > max then tp.preference else max) start
    start ≤ max ∧ (∀ tp ∈ table, tp.preference ≤ max) ∧
      (max = start ∨ ∃ tp ∈ table, tp.preference = max) := by
  induction table generalizing start with
  | nil => exact ⟨Int32.le_refl start, by simp, Or.inl rfl⟩
  | cons tp table ih =>
      obtain ⟨low, every, reached⟩ := ih (if tp.preference > start then tp.preference else start)
      rw [List.foldl_cons]
      generalize List.foldl _ _ table = max at low every reached ⊢
      refine ⟨?_, ?_, ?_⟩
      · grind
      · intro e mem
        rcases List.mem_cons.mp mem with rfl | old
        · grind
        · exact every e old
      · rcases reached with same | ⟨e, mem, eq⟩
        · by_cases more : tp.preference > start
          · rw [if_pos more] at same
            exact Or.inr ⟨tp, List.mem_cons_self, same.symm⟩
          · rw [if_neg more] at same
            exact Or.inl same
        · exact Or.inr ⟨e, List.mem_cons_of_mem tp mem, eq⟩

theorem preference_le {table : List Entry} {tp : Entry} (mem : tp ∈ table) :
    tp.preference ≤ maxPreference table :=
  (foldl_max table INELIGIBLE_PREF).2.1 tp mem

theorem maxPreference_reached (table : List Entry) :
    maxPreference table = INELIGIBLE_PREF ∨
      ∃ tp ∈ table, tp.preference = maxPreference table :=
  (foldl_max table INELIGIBLE_PREF).2.2

theorem ineligible_le (preference : Int32) : INELIGIBLE_PREF ≤ preference :=
  Int32.minValue_le preference

theorem maxPreference_le {table : List Entry} {bound : Int32}
    (every : ∀ tp ∈ table, tp.preference ≤ bound) : maxPreference table ≤ bound := by
  rcases maxPreference_reached table with none | ⟨tp, mem, eq⟩
  · rw [none]
    exact ineligible_le bound
  · rw [← eq]
    exact every tp mem

theorem maxPreference_mono {table after : List Entry} (inside : ∀ tp ∈ after, tp ∈ table) :
    maxPreference after ≤ maxPreference table :=
  maxPreference_le fun tp mem => preference_le (inside tp mem)

theorem maxPreference_eq_of_subset {table after : List Entry} (inside : ∀ tp ∈ after, tp ∈ table)
    (stay : ∀ tp ∈ table, tp.preference = maxPreference table → tp ∈ after) :
    maxPreference after = maxPreference table := by
  apply Int32.le_antisymm
  · exact maxPreference_mono inside
  · rcases maxPreference_reached table with none | ⟨tp, mem, eq⟩
    · rw [none]
      exact ineligible_le _
    · rw [← eq]
      exact preference_le (stay tp mem eq)

theorem maxPreference_map (table : List Entry) {f : Entry → Entry}
    (same : ∀ tp, (f tp).preference = tp.preference) :
    maxPreference (table.map f) = maxPreference table := by
  unfold maxPreference
  rw [List.foldl_map]
  simp only [same]

/-! ### The routes follow the entries -/

/-- No router has two entries, and the routes are those of the entries marked as
being in the kernel. -/
structure Agrees (s : Rdisc) : Prop where
  nodup : (s.table.map Entry.router).Nodup
  routes : ∀ addr, addr ∈ s.routes ↔ ∃ tp ∈ s.table, tp.router = addr ∧ tp.inKernel = true

@[simp] theorem set_preference (on : Bool) (tp : Entry) :
    (tp.set on).preference = tp.preference := rfl

@[simp] theorem set_inKernel (on : Bool) (tp : Entry) : (tp.set on).inKernel = on := rfl

theorem mem_rtioctl (on : Bool) (addr other : UInt32) (routes : Finset UInt32) :
    other ∈ rtioctl on addr routes ↔ if other = addr then on = true else other ∈ routes := by
  unfold rtioctl
  cases on with
  | true =>
      rw [if_pos rfl, Finset.mem_insert]
      by_cases same : other = addr
      · simp [same]
      · simp [same]
  | false =>
      rw [if_neg Bool.false_ne_true, Finset.mem_erase]
      by_cases same : other = addr
      · simp [same]
      · simp [same]

theorem pass_table (cond : Entry → Bool) (on : Bool) (table : List Entry)
    (routes : Finset UInt32) :
    (pass cond on table routes).table = table.map fun tp => if cond tp then tp.set on else tp := by
  induction table generalizing routes with
  | nil => rfl
  | cons tp table ih =>
      rw [pass, List.map_cons, ← ih]

theorem mem_pass_routes (cond : Entry → Bool) (on : Bool) (table : List Entry)
    (routes : Finset UInt32) (addr : UInt32) :
    addr ∈ (pass cond on table routes).routes ↔
      ((∃ tp ∈ table, cond tp = true ∧ tp.router = addr) ∧ on = true) ∨
        (¬ (∃ tp ∈ table, cond tp = true ∧ tp.router = addr) ∧ addr ∈ routes) := by
  induction table generalizing routes with
  | nil => simp [pass]
  | cons tp table ih =>
      rw [pass]
      dsimp only
      rw [ih]
      by_cases here : cond tp = true
      · rw [if_pos here, mem_rtioctl]
        by_cases same : addr = tp.router
        · subst same
          have first : ∃ e ∈ tp :: table, cond e = true ∧ e.router = tp.router :=
            ⟨tp, List.mem_cons_self, here, rfl⟩
          rw [if_pos rfl]
          by_cases later : ∃ e ∈ table, cond e = true ∧ e.router = tp.router
          · simp only [later, first, true_and, not_true_eq_false, false_and]
          · simp only [later, first, true_and, not_true_eq_false, not_false_eq_true, false_and,
              or_false, false_or]
        · rw [if_neg same]
          simp [here, Ne.symm same]
      · rw [if_neg here]
        simp [here]

theorem Agrees.eq_of_router {s : Rdisc} (h : Agrees s) {tp e : Entry} (mem : tp ∈ s.table)
    (other : e ∈ s.table) (same : tp.router = e.router) : tp = e :=
  List.inj_on_of_nodup_map h.nodup mem other same

theorem map_router_map (table : List Entry) {f : Entry → Entry}
    (same : ∀ tp, (f tp).router = tp.router) :
    (table.map f).map Entry.router = table.map Entry.router := by
  have routers : Entry.router ∘ f = Entry.router := by
    funext tp
    exact same tp
  rw [List.map_map, routers]

theorem Agrees.pass {s : Rdisc} (h : Agrees s) (cond : Entry → Bool) (on : Bool) :
    Agrees (pass cond on s.table s.routes) := by
  refine ⟨?_, fun addr => ?_⟩
  · rw [pass_table, map_router_map]
    · exact h.nodup
    · intro tp
      split
      · rfl
      · rfl
  · rw [mem_pass_routes, pass_table, h.routes]
    constructor
    · rintro (⟨⟨tp, mem, here, rfl⟩, rfl⟩ | ⟨none, tp, mem, rfl, kernel⟩)
      · exact ⟨_, List.mem_map_of_mem mem, by rw [if_pos here]; exact ⟨rfl, rfl⟩⟩
      · have here : ¬ cond tp = true := fun here => none ⟨tp, mem, here, rfl⟩
        exact ⟨_, List.mem_map_of_mem mem, by rw [if_neg here]; exact ⟨rfl, kernel⟩⟩
    · rintro ⟨_, image, router, kernel⟩
      obtain ⟨tp, mem, rfl⟩ := List.mem_map.mp image
      by_cases here : cond tp = true
      · rw [if_pos here] at router kernel
        exact Or.inl ⟨⟨tp, mem, here, router⟩, kernel⟩
      · rw [if_neg here] at router kernel
        refine Or.inr ⟨?_, tp, mem, router, kernel⟩
        rintro ⟨e, old, yes, same⟩
        rw [h.eq_of_router old mem (same.trans router.symm)] at yes
        exact here yes

theorem withRouter_eq_map {table : List Entry} (nodup : (table.map Entry.router).Nodup)
    (addr : UInt32) (f : Entry → Entry) :
    withRouter addr f table = table.map fun tp => if tp.router = addr then f tp else tp := by
  induction table with
  | nil => rfl
  | cons tp table ih =>
      rw [List.map_cons, List.nodup_cons] at nodup
      rw [withRouter, List.map_cons]
      by_cases here : tp.router = addr
      · have rest : (table.map fun tp => if tp.router = addr then f tp else tp) = table.map id := by
          apply List.map_congr_left
          intro e mem
          rw [if_neg]
          · rfl
          · intro same
            apply nodup.1
            rw [here, ← same]
            exact List.mem_map_of_mem mem
        rw [if_pos here, if_pos here, rest, List.map_id]
      · rw [if_neg here, if_neg here, ih nodup.2]

theorem findRouter_some {table : List Entry} {addr : UInt32} {tp : Entry}
    (found : findRouter table addr = some tp) : tp ∈ table ∧ tp.router = addr := by
  refine ⟨List.mem_of_find?_eq_some found, ?_⟩
  have here := List.find?_some found
  exact of_decide_eq_true here

theorem findRouter_none {table : List Entry} {addr : UInt32} (none : findRouter table addr = none)
    {tp : Entry} (mem : tp ∈ table) : tp.router ≠ addr := by
  have other := List.find?_eq_none.mp none tp mem
  simpa using other

theorem Agrees.findRouter_eq {s : Rdisc} (h : Agrees s) {tp : Entry} (mem : tp ∈ s.table) :
    findRouter s.table tp.router = some tp := by
  cases found : findRouter s.table tp.router with
  | none => exact absurd rfl (findRouter_none found mem)
  | some e =>
      obtain ⟨inside, same⟩ := findRouter_some found
      rw [h.eq_of_router inside mem same]

theorem Agrees.switch_eq {s : Rdisc} (h : Agrees s) {tp : Entry} (mem : tp ∈ s.table)
    (on : Bool) :
    switch on tp.router s =
      RdiscTable.pass (fun e => e.router = tp.router) on s.table s.routes := by
  have routes : rtioctl on tp.router s.routes =
      (RdiscTable.pass (fun e => e.router = tp.router) on s.table s.routes).routes := by
    ext addr
    rw [mem_rtioctl, mem_pass_routes]
    by_cases same : addr = tp.router
    · have here : ∃ e ∈ s.table, decide (e.router = tp.router) = true ∧ e.router = addr :=
        ⟨tp, mem, decide_eq_true rfl, same.symm⟩
      simp only [same, if_true] at here ⊢
      simp only [here, true_and, not_true_eq_false, false_and, or_false]
    · have none : ¬ ∃ e ∈ s.table, decide (e.router = tp.router) = true ∧ e.router = addr := by
        rintro ⟨e, -, yes, rfl⟩
        exact same (of_decide_eq_true yes)
      rw [if_neg same]
      simp only [none, false_and, not_false_eq_true, true_and, false_or]
  unfold switch
  rw [routes, withRouter_eq_map h.nodup]
  have table := pass_table (fun e => e.router = tp.router) on s.table s.routes
  simp only [decide_eq_true_eq] at table
  rw [← table]

/-- `t` has the entries of `s` with the marks `bit`, and the routes to match. -/
structure Marked (bit : Entry → Bool) (s t : Rdisc) : Prop where
  table : t.table = s.table.map fun tp => tp.set (bit tp)
  agrees : Agrees t

theorem Marked.congr {b c : Entry → Bool} {s t : Rdisc} (h : Marked b s t)
    (same : ∀ tp ∈ s.table, b tp = c tp) : Marked c s t := by
  refine ⟨?_, h.agrees⟩
  rw [h.table]
  apply List.map_congr_left
  intro tp mem
  rw [same tp mem]

theorem Marked.trans {b c : Entry → Bool} {s t u : Rdisc} (h : Marked b s t)
    (next : Marked c t u) : Marked (fun tp => c (tp.set (b tp))) s u := by
  refine ⟨?_, next.agrees⟩
  rw [next.table, h.table, List.map_map]
  rfl

theorem Marked.maxPreference_eq {bit : Entry → Bool} {s t : Rdisc} (h : Marked bit s t) :
    maxPreference t.table = maxPreference s.table := by
  rw [h.table]
  apply maxPreference_map
  intro tp
  rfl

theorem Agrees.marked_pass {s : Rdisc} (h : Agrees s) (cond : Entry → Bool) (on : Bool) :
    Marked (fun tp => if cond tp then on else tp.inKernel) s
      (RdiscTable.pass cond on s.table s.routes) := by
  refine ⟨?_, h.pass cond on⟩
  rw [pass_table]
  apply List.map_congr_left
  intro tp _
  split
  · rfl
  · rfl

theorem Agrees.marked_self {s : Rdisc} (h : Agrees s) : Marked Entry.inKernel s s := by
  refine ⟨?_, h⟩
  symm
  exact List.map_id s.table

theorem Agrees.marked_ite {s t : Rdisc} {c : Prop} [Decidable c] {bit : Entry → Bool}
    (h : Agrees s) (taken : c → Marked bit s t) :
    Marked (fun tp => if c then bit tp else tp.inKernel) s (if c then t else s) := by
  by_cases here : c
  · simp only [here, if_true]
    exact taken here
  · simp only [here, if_false]
    exact h.marked_self

theorem Agrees.marked_addMax {s : Rdisc} (h : Agrees s) :
    Marked (fun tp => if maxPreference s.table ≠ INELIGIBLE_PREF ∧
      tp.preference = maxPreference s.table then true else tp.inKernel) s (addMax s) := by
  unfold addMax
  apply (h.marked_ite fun _ => h.marked_pass _ true).congr
  intro tp _
  cases tp.inKernel with
  | true => simp
  | false => simp [ite_and]

theorem Agrees.marked_delBelow {s : Rdisc} (h : Agrees s) :
    Marked (fun tp => if tp.preference < maxPreference s.table then false else tp.inKernel) s
      (delBelow s) := by
  unfold delBelow
  apply (h.marked_pass _ false).congr
  intro tp _
  cases tp.inKernel with
  | true => simp
  | false => simp

theorem Agrees.marked_switchRouter {s : Rdisc} (h : Agrees s) (best : Bool) {tp : Entry}
    (mem : tp ∈ s.table) :
    Marked (fun e =>
        if e.router = tp.router then
          if tp.preference = INELIGIBLE_PREF then false
          else if best = false ∨ tp.preference = maxPreference s.table then true
          else e.inKernel
        else e.inKernel)
      s (switchRouter best tp.router tp.preference s) := by
  have one : ∀ on, Marked (fun e => if e.router = tp.router then on else e.inKernel) s
      (switch on tp.router s) := by
    intro on
    rw [h.switch_eq mem on]
    apply (h.marked_pass _ on).congr
    intro e _
    simp only [decide_eq_true_eq]
  have self : ∀ e ∈ s.table, e.router = tp.router → e.inKernel = tp.inKernel := by
    intro e inside same
    rw [h.eq_of_router inside mem same]
  have mark : marked tp.router s = tp.inKernel := by
    unfold marked
    rw [h.findRouter_eq mem, Option.any_some]
  unfold switchRouter
  by_cases ineligible : tp.preference = INELIGIBLE_PREF
  · have skip : ¬ (¬ marked tp.router s = true ∧
        (¬ best = true ∨ tp.preference = maxPreference s.table) ∧
          tp.preference ≠ INELIGIBLE_PREF) := fun all => all.2.2 ineligible
    rw [if_neg skip]
    apply (h.marked_ite fun _ => one false).congr
    intro e inside
    by_cases same : e.router = tp.router
    · simp [same, ineligible, mark, self e inside same]
    · simp [same]
  · dsimp only
    rw [if_neg fun both => ineligible both.1]
    apply (h.marked_ite fun _ => one true).congr
    intro e inside
    by_cases same : e.router = tp.router
    · simp only [same, ineligible, mark, self e inside same, if_true, if_false, ne_eq,
        not_false_eq_true, and_true, Bool.not_eq_true]
      cases tp.inKernel with
      | true => simp
      | false => simp
    · simp [same]

/-! ### The entry of an advertised router -/

theorem Agrees.map {s : Rdisc} (h : Agrees s) {f : Entry → Entry}
    (router : ∀ tp, (f tp).router = tp.router) (mark : ∀ tp, (f tp).inKernel = tp.inKernel) :
    Agrees ⟨s.table.map f, s.routes⟩ := by
  refine ⟨?_, fun addr => ?_⟩
  · rw [map_router_map s.table router]
    exact h.nodup
  · rw [h.routes]
    simp only [List.mem_map, exists_exists_and_eq_and, router, mark]

theorem Agrees.cons {s : Rdisc} (h : Agrees s) {tp : Entry}
    (fresh : ∀ e ∈ s.table, e.router ≠ tp.router) (mark : tp.inKernel = false) :
    Agrees ⟨tp :: s.table, s.routes⟩ := by
  refine ⟨?_, fun addr => ?_⟩
  · rw [List.map_cons, List.nodup_cons]
    refine ⟨fun mem => ?_, h.nodup⟩
    obtain ⟨e, inside, same⟩ := List.mem_map.mp mem
    exact fresh e inside same
  · rw [h.routes]
    simp [mark]

/-- What `enlist` does to the table and its flags. -/
structure Enlisted (table after : List Entry) (tp : Entry) (up down : Bool) : Prop where
  mem : tp ∈ after
  others : ∀ e, e.router ≠ tp.router → (e ∈ after ↔ e ∈ table)
  before :
    (∃ old ∈ table, old.router = tp.router ∧ tp.inKernel = old.inKernel ∧
      (down = true ↔ old.preference > tp.preference ∧ old.preference = maxPreference table) ∧
      (up = true ↔ down = false ∧ tp.preference > old.preference)) ∨
    ((∀ e ∈ table, e.router ≠ tp.router) ∧ tp.inKernel = false ∧ down = false ∧
      (up = true ↔ tp.preference > maxPreference table))

theorem Agrees.enlisted {s : Rdisc} (h : Agrees s) (router : UInt32) (preference ttl : Int32) :
    ∃ tp, tp.router = router ∧ tp.preference = preference ∧
      Agrees ⟨(enlist s.table router preference ttl).1, s.routes⟩ ∧
      Enlisted s.table (enlist s.table router preference ttl).1 tp
        (enlist s.table router preference ttl).2.1 (enlist s.table router preference ttl).2.2 := by
  unfold enlist
  cases found : findRouter s.table router with
  | some old =>
      obtain ⟨inside, rfl⟩ := findRouter_some found
      dsimp only
      rw [withRouter_eq_map h.nodup]
      refine ⟨{ old with preference := preference, remainingTime := ttl }, rfl, rfl, ?_, ?_, ?_, ?_⟩
      · apply h.map
        · intro tp
          split
          · rfl
          · rfl
        · intro tp
          split
          · rfl
          · rfl
      · exact List.mem_map.mpr ⟨old, inside, if_pos rfl⟩
      · intro e other
        constructor
        · intro mem
          obtain ⟨tp, here, rfl⟩ := List.mem_map.mp mem
          by_cases same : tp.router = old.router
          · rw [if_pos same] at other
            exact absurd same other
          · rw [if_neg same]
            exact here
        · intro mem
          exact List.mem_map.mpr ⟨e, mem, if_neg other⟩
      · left
        refine ⟨old, inside, rfl, rfl, ?_, ?_⟩
        · simp only [decide_eq_true_eq]
        · simp only [decide_eq_true_eq, decide_eq_false_iff_not]
  | none =>
      have fresh : ∀ e ∈ s.table, e.router ≠ router := fun e mem => findRouter_none found mem
      refine ⟨⟨router, preference, ttl, false⟩, rfl, rfl, h.cons fresh rfl, List.mem_cons_self, ?_,
        Or.inr ⟨fresh, rfl, rfl, ?_⟩⟩
      · intro e other
        rw [List.mem_cons]
        constructor
        · rintro (rfl | mem)
          · exact absurd rfl other
          · exact mem
        · exact Or.inr
      · simp

section Flags

variable {table after : List Entry} {tp : Entry} {up down : Bool}

/-- A greater maximum can only come from the entry itself. -/
theorem Enlisted.eq_of_gt (h : Enlisted table after tp up down)
    (unique : ∀ e ∈ after, e.router = tp.router → e = tp)
    (more : maxPreference table < maxPreference after) : tp.preference = maxPreference after := by
  rcases maxPreference_reached after with none | ⟨e, mem, eq⟩
  · have low := ineligible_le (maxPreference table)
    grind
  · by_cases same : e.router = tp.router
    · rw [← unique e mem same]
      exact eq
    · have bound := preference_le ((h.others e same).mp mem)
      grind

theorem Enlisted.up_of_gt (h : Enlisted table after tp up down)
    (unique : ∀ e ∈ after, e.router = tp.router → e = tp)
    (more : maxPreference table < maxPreference after) : up = true := by
  have top := h.eq_of_gt unique more
  rcases h.before with ⟨old, mem, -, -, falls, rises⟩ | ⟨-, -, -, rises⟩
  · have bound := preference_le mem
    rw [rises]
    constructor
    · cases down with
      | false => rfl
      | true =>
          have less := (falls.mp rfl).1
          grind
    · grind
  · rw [rises, top]
    exact more

theorem Enlisted.down_of_lt (h : Enlisted table after tp up down)
    (unique : ∀ e ∈ table, ∀ f ∈ table, e.router = f.router → e = f)
    (less : maxPreference after < maxPreference table) : down = true := by
  have kept : ∀ e ∈ table, e.preference = maxPreference table → e.router = tp.router := by
    intro e mem eq
    by_contra other
    have bound := preference_le ((h.others e other).mpr mem)
    grind
  rcases maxPreference_reached table with none | ⟨e, mem, eq⟩
  · have low := ineligible_le (maxPreference after)
    grind
  · rcases h.before with ⟨old, inside, router, -, falls, -⟩ | ⟨fresh, -, -, -⟩
    · have same : e = old := unique e mem old inside ((kept e mem eq).trans router.symm)
      have bound := preference_le h.mem
      rw [falls, ← same, eq]
      exact ⟨by grind, rfl⟩
    · exact absurd (kept e mem eq) (fresh e mem)

theorem Enlisted.down_of_mark (h : Enlisted table after tp up down)
    (unique : ∀ e ∈ after, e.router = tp.router → e = tp)
    (marks : ∀ e ∈ table, e.inKernel = true → e.preference = maxPreference table)
    (mark : tp.inKernel = true) (less : tp.preference < maxPreference after) : down = true := by
  rcases h.before with ⟨old, mem, -, same, falls, -⟩ | ⟨-, unmarked, -, -⟩
  · have top := marks old mem (same ▸ mark)
    have bound : maxPreference after ≤ maxPreference table := by
      by_contra more
      have here := h.eq_of_gt unique (Int32.not_le.mp more)
      grind
    rw [falls]
    exact ⟨by grind, top⟩
  · rw [unmarked] at mark
    exact absurd mark Bool.false_ne_true

end Flags

/-! ### The marks are those of the preferred routers -/

def Preferred (best : Bool) (table : List Entry) : Prop :=
  ∀ tp ∈ table, tp.inKernel = true ↔
    tp.preference ≠ INELIGIBLE_PREF ∧ (best = true → tp.preference = maxPreference table)

theorem Marked.preferred {bit : Entry → Bool} {s t : Rdisc} (h : Marked bit s t) {best : Bool}
    (settled : ∀ tp ∈ s.table, bit tp = true ↔
      tp.preference ≠ INELIGIBLE_PREF ∧ (best = true → tp.preference = maxPreference s.table)) :
    Preferred best t.table := by
  intro tp mem
  rw [h.table] at mem
  obtain ⟨e, inside, rfl⟩ := List.mem_map.mp mem
  rw [h.maxPreference_eq, set_preference, set_inKernel]
  exact settled e inside

/-- The marks after the two passes of `record_router`, from those before them. -/
def passed (best up down : Bool) (max preference : Int32) (mark : Bool) : Bool :=
  let mark := if best ∧ down then
    if max ≠ INELIGIBLE_PREF ∧ preference = max then true else mark else mark
  if best ∧ (up ∨ down) then if preference < max then false else mark else mark

theorem Agrees.marked_passes {s : Rdisc} (h : Agrees s) (best : Bool) {tp : Entry}
    (mem : tp ∈ s.table) (up down : Bool) :
    let first := switchRouter best tp.router tp.preference s
    let second := if best ∧ down then addMax first else first
    Marked (fun e => passed best up down (maxPreference s.table) e.preference
        (if e.router = tp.router then
          if tp.preference = INELIGIBLE_PREF then false
          else if best = false ∨ tp.preference = maxPreference s.table then true
          else e.inKernel
        else e.inKernel))
      s (if best ∧ (up ∨ down) then delBelow second else second) := by
  intro first second
  have one := h.marked_switchRouter best mem
  have two := one.agrees.marked_ite (c := best ∧ down) fun _ => one.agrees.marked_addMax
  have three := two.agrees.marked_ite (c := best ∧ (up ∨ down))
    fun _ => two.agrees.marked_delBelow
  rw [two.maxPreference_eq, one.maxPreference_eq] at three
  rw [one.maxPreference_eq] at two
  exact one.trans (two.trans three)

/-- Another router: it had its mark if it was at the old maximum, which has not
gone up without `changed_up` or down without `changed_down`. -/
theorem passed_other {best up down mark : Bool} {old max preference : Int32}
    (before : mark = true ↔
      preference ≠ INELIGIBLE_PREF ∧ (best = true → preference = old))
    (below : preference ≤ old) (le : preference ≤ max)
    (rises : old < max → up = true) (falls : max < old → down = true) :
    passed best up down max preference mark = true ↔
      preference ≠ INELIGIBLE_PREF ∧ (best = true → preference = max) := by
  unfold passed
  cases best with
  | false => simpa using before
  | true => grind

theorem passed_self {best up down mark : Bool} {max preference : Int32}
    (le : preference ≤ max)
    (falls : best = true → mark = true → preference < max → down = true) :
    passed best up down max preference
      (if preference = INELIGIBLE_PREF then false
        else if best = false ∨ preference = max then true else mark) = true ↔
      preference ≠ INELIGIBLE_PREF ∧ (best = true → preference = max) := by
  unfold passed
  cases best with
  | false => simp
  | true => grind

theorem Agrees.recordRouter {s : Rdisc} (h : Agrees s) {best : Bool}
    (preferred : Preferred best s.table) (router : UInt32) (preference ttl : Int32) :
    Agrees (recordRouter best s router preference ttl) ∧
      Preferred best (RdiscTable.recordRouter best s router preference ttl).table := by
  unfold RdiscTable.recordRouter
  dsimp only
  generalize (if ttl < 4 then INELIGIBLE_PREF else preference) = preference
  obtain ⟨tp, rfl, rfl, agrees, enlisted⟩ := h.enlisted router preference ttl
  generalize enlist s.table tp.router tp.preference ttl = result at agrees enlisted ⊢
  obtain ⟨table, up, down⟩ := result
  have unique : ∀ e ∈ table, e.router = tp.router → e = tp :=
    fun e mem same => agrees.eq_of_router mem enlisted.mem same
  have marked := agrees.marked_passes best enlisted.mem up down
  refine ⟨marked.agrees, marked.preferred fun e mem => ?_⟩
  dsimp only at mem ⊢
  by_cases same : e.router = tp.router
  · rw [unique e mem same, if_pos rfl]
    apply passed_self (preference_le enlisted.mem)
    intro on mark less
    exact enlisted.down_of_mark unique (fun e old yes => ((preferred e old).mp yes).2 on) mark less
  · have old := (enlisted.others e same).mp mem
    rw [if_neg same]
    exact passed_other (preferred e old) (preference_le old) (preference_le mem)
      (enlisted.up_of_gt unique)
      (enlisted.down_of_lt fun e one f two => h.eq_of_router one two)

/-! ### Routers that are no longer advertised -/

theorem expire_eq (best : Bool) (time max : Int32) (table : List Entry) (routes : Finset UInt32) :
    (expire best time max table routes).1.table =
        (table.map (Entry.age time)).filter (fun tp => ¬ tp.expired) ∧
      (∀ addr, addr ∈ (expire best time max table routes).1.routes ↔ addr ∈ routes ∧
        ∀ tp ∈ table.map (Entry.age time), tp.expired → tp.inKernel = true → tp.router ≠ addr) ∧
      ((expire best time max table routes).2 = true ↔ best = true ∧
        ∃ tp ∈ table.map (Entry.age time), tp.expired ∧ tp.preference = max) := by
  induction table generalizing routes with
  | nil => simp [expire]
  | cons tp table ih =>
      have mark : (tp.age time).inKernel = tp.inKernel := rfl
      have router : (tp.age time).router = tp.router := rfl
      have preference : (tp.age time).preference = tp.preference := rfl
      rw [expire, List.map_cons]
      by_cases gone : (tp.age time).expired
      · obtain ⟨left, off, again⟩ :=
          ih (if tp.inKernel then rtioctl false tp.router routes else routes)
        rw [if_pos gone, List.filter_cons_of_neg (by simpa using gone)]
        refine ⟨left, fun addr => ?_, ?_⟩
        · rw [off, List.forall_mem_cons, mark, router]
          by_cases kernel : tp.inKernel = true
          · rw [if_pos kernel, mem_rtioctl]
            by_cases same : addr = tp.router
            · simp [same, gone, kernel]
            · simp [same, gone, kernel, Ne.symm same]
          · simp [kernel]
        · simp only [Bool.or_eq_true, Bool.and_eq_true, decide_eq_true_eq, again, List.mem_cons,
            exists_eq_or_imp, gone, preference, true_and]
          exact and_or_left.symm
      · obtain ⟨left, off, again⟩ := ih routes
        rw [if_neg gone, List.filter_cons_of_pos (by simpa using gone)]
        refine ⟨?_, fun addr => ?_, ?_⟩
        · dsimp only
          rw [left]
        · dsimp only
          rw [off, List.forall_mem_cons]
          simp [gone]
        · dsimp only
          rw [again]
          simp [gone]

theorem Agrees.expire {s : Rdisc} (h : Agrees s) (best : Bool) (time max : Int32) :
    Agrees (expire best time max s.table s.routes).1 := by
  have aged : Agrees ⟨s.table.map (Entry.age time), s.routes⟩ :=
    h.map (fun _ => rfl) (fun _ => rfl)
  obtain ⟨left, off, -⟩ := expire_eq best time max s.table s.routes
  refine ⟨?_, fun addr => ?_⟩
  · rw [left]
    exact aged.nodup.sublist (List.filter_sublist.map Entry.router)
  · rw [off, aged.routes, left]
    constructor
    · rintro ⟨⟨tp, mem, rfl, mark⟩, none⟩
      have here : ¬ tp.expired := fun gone => none tp mem gone mark rfl
      exact ⟨tp, List.mem_filter.mpr ⟨mem, by simpa using here⟩, rfl, mark⟩
    · rintro ⟨tp, mem, rfl, mark⟩
      obtain ⟨inside, here⟩ := List.mem_filter.mp mem
      refine ⟨⟨tp, inside, rfl, mark⟩, fun e other gone _ same => ?_⟩
      rw [aged.eq_of_router other inside same] at gone
      simp [gone] at here

theorem Preferred.aged {best : Bool} {table : List Entry} (h : Preferred best table)
    (time : Int32) : Preferred best (table.map (Entry.age time)) := by
  intro tp mem
  obtain ⟨e, inside, rfl⟩ := List.mem_map.mp mem
  have same : maxPreference (table.map (Entry.age time)) = maxPreference table :=
    maxPreference_map table fun _ => rfl
  rw [same]
  exact h e inside

theorem Agrees.ageTable {s : Rdisc} (h : Agrees s) {best : Bool}
    (preferred : Preferred best s.table) (time : Int32) :
    Agrees (ageTable best s time) ∧ Preferred best (RdiscTable.ageTable best s time).table := by
  have aged := preferred.aged time
  have agrees := h.expire best time (maxPreference s.table)
  obtain ⟨left, -, again⟩ := expire_eq best time (maxPreference s.table) s.table s.routes
  have same : maxPreference (s.table.map (Entry.age time)) = maxPreference s.table :=
    maxPreference_map s.table fun _ => rfl
  unfold RdiscTable.ageTable
  dsimp only
  generalize RdiscTable.expire best time (maxPreference s.table) s.table s.routes = result at *
  obtain ⟨t, recalculate⟩ := result
  dsimp only at left again agrees ⊢
  rw [← same] at again
  generalize s.table.map (Entry.age time) = table at *
  have inside : ∀ tp ∈ t.table, tp ∈ table := by
    intro tp mem
    rw [left] at mem
    exact List.mem_of_mem_filter mem
  cases recalculate with
  | true =>
      have on : best = true := (again.mp rfl).1
      rw [if_pos rfl]
      have marked := agrees.marked_addMax
      refine ⟨marked.agrees, marked.preferred fun tp mem => ?_⟩
      have before := aged tp (inside tp mem)
      have high := preference_le mem
      have low := maxPreference_mono inside
      grind
  | false =>
      rw [if_neg Bool.false_ne_true]
      refine ⟨agrees, fun tp mem => ?_⟩
      rw [aged tp (inside tp mem)]
      apply and_congr_right
      intro eligible
      apply imp_congr_right
      intro on
      have stay : ∀ tp ∈ table, tp.preference = maxPreference table → tp ∈ t.table := by
        intro tp mem eq
        have stays : ¬ tp.expired := fun gone =>
          Bool.false_ne_true (again.mpr ⟨on, tp, mem, gone, eq⟩)
        rw [left]
        exact List.mem_filter.mpr ⟨mem, by simpa using stays⟩
      have top : maxPreference t.table = maxPreference table :=
        maxPreference_eq_of_subset inside stay
      rw [top]

theorem mem_discardTable (table : List Entry) (routes : Finset UInt32) (addr : UInt32) :
    addr ∈ table.foldl
        (fun routes tp => if tp.inKernel then rtioctl false tp.router routes else routes) routes ↔
      addr ∈ routes ∧ ∀ tp ∈ table, tp.inKernel = true → tp.router ≠ addr := by
  induction table generalizing routes with
  | nil => simp
  | cons tp table ih =>
      rw [List.foldl_cons, ih, List.forall_mem_cons]
      by_cases mark : tp.inKernel = true
      · rw [if_pos mark, mem_rtioctl]
        by_cases same : addr = tp.router
        · simp [same, mark]
        · simp [same, mark, Ne.symm same]
      · simp [mark]

theorem Agrees.discardTable {s : Rdisc} (h : Agrees s) : (discardTable s).routes = ∅ := by
  ext addr
  unfold RdiscTable.discardTable
  rw [mem_discardTable, h.routes]
  constructor
  · rintro ⟨⟨tp, mem, rfl, mark⟩, none⟩
    exact absurd rfl (none tp mem mark)
  · intro mem
    exact absurd mem (Finset.notMem_empty addr)

/-! ### Whole runs -/

theorem agrees_step (best : Bool) (s : Rdisc) (call : Call)
    (h : Agrees s ∧ Preferred best s.table) :
    Agrees (step best s call) ∧ Preferred best (step best s call).table := by
  cases call with
  | recordRouter router preference ttl => exact h.1.recordRouter h.2 router preference ttl
  | ageTable time => exact h.1.ageTable h.2 time
  | discardTable =>
      refine ⟨⟨List.nodup_nil, fun addr => ?_⟩, fun tp mem => absurd mem List.not_mem_nil⟩
      simp only [step]
      rw [h.1.discardTable]
      constructor
      · intro mem
        exact absurd mem (Finset.notMem_empty addr)
      · rintro ⟨tp, mem, -⟩
        exact absurd mem List.not_mem_nil

theorem eq_maxPreference {table : List Entry} {tp : Entry} (mem : tp ∈ table) :
    tp.preference = maxPreference table ↔ ∀ other ∈ table, other.preference ≤ tp.preference := by
  constructor
  · intro top other inside
    rw [top]
    exact preference_le inside
  · exact fun every => Int32.le_antisymm (preference_le mem) (maxPreference_le every)

/-- After every run no router is entered twice, the routes are those of the
marked entries, the marked entries are the preferred ones, and `discard_table`
leaves no route behind. -/
theorem router_table (best : Bool) (calls : List Call) :
    let s := run (step best) ⟨[], ∅⟩ calls
    (s.table.map Entry.router).Nodup ∧
      (∀ addr, addr ∈ s.routes ↔ ∃ tp ∈ s.table, tp.router = addr ∧ tp.inKernel = true) ∧
      (∀ tp ∈ s.table, tp.inKernel = true ↔ tp.preference ≠ INELIGIBLE_PREF ∧
        (best = true → ∀ other ∈ s.table, other.preference ≤ tp.preference)) ∧
      (discardTable s).table = [] ∧ (discardTable s).routes = ∅ := by
  intro s
  have start : Agrees ⟨[], ∅⟩ ∧ Preferred best [] :=
    ⟨⟨List.nodup_nil, fun addr => by simp⟩, fun tp mem => absurd mem List.not_mem_nil⟩
  obtain ⟨agrees, preferred⟩ :=
    run_invariant (I := fun s => Agrees s ∧ Preferred best s.table) (agrees_step best) start calls
  refine ⟨agrees.nodup, agrees.routes, fun tp mem => ?_, rfl, agrees.discardTable⟩
  rw [preferred tp mem, eq_maxPreference mem]

/-- The better router expires, and the route goes back to the other one. -/
example :
    (run (step true) ⟨[], ∅⟩ [.recordRouter 1 5 1800, .recordRouter 2 7 600]).routes = {2} ∧
      (run (step true) ⟨[], ∅⟩
        [.recordRouter 1 5 1800, .recordRouter 2 7 600, .ageTable 600]).routes = {1} := by
  decide

end Baseliner.RdiscTable
