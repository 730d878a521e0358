import Mathlib.Data.Fintype.Basic
import Mathlib.Data.List.GetD
import Mathlib.Order.Basic
import Baseliner.StableSelection

/-! The charges of the MG benchmark. In `zran3` every thread keeps the ten largest and the ten
smallest values of its planes, in lists that `bubble` keeps in order; then the threads agree on
one value after the other, the first thread with the best value in front. -/

namespace Baseliner.MgCharges

open StableSelection

variable {α : Type*} [LinearOrder α]

section Search

structure Candidate (α : Type*) where
  ten : α
  j1 : ℕ
  j2 : ℕ
  j3 : ℕ

def Candidate.place (c : Candidate α) : ℕ × ℕ × ℕ := (c.j1, c.j2, c.j3)

/-- `.gt.` among the largest values, of `ind` 1, and `.lt.` among the smallest. -/
def beats (ind : Fin 2) (x y : α) : Bool := if ind = 1 then x > y else x < y

/-- The first entry moves up among the others to where it belongs. -/
def bubble (ind : Fin 2) (a : Candidate α) : List (Candidate α) → List (Candidate α)
  | [] => [a]
  | b :: ten => if beats ind a.ten b.ten then b :: bubble ind a ten else a :: b :: ten

def consider (ind : Fin 2) (ten : List (Candidate α)) (z : Candidate α) : List (Candidate α) :=
  match ten with
  | [] => []
  | first :: rest => if beats ind z.ten first.ten then bubble ind z rest else ten

def noCandidate (zero one : α) (ind : Fin 2) : Candidate α :=
  ⟨if ind = 1 then zero else one, 0, 0, 0⟩

def points (z : ℕ → ℕ → ℕ → α) (n1 n2 : ℕ) (planes : List ℕ) : List (Candidate α) :=
  planes.flatMap fun i3 => (List.range' 2 (n2 - 2)).flatMap fun i2 =>
    (List.range' 2 (n1 - 2)).map fun i1 => ⟨z i1 i2 i3, i1, i2, i3⟩

/-- The list of a thread behind its planes; that of the other index is not read for it. -/
def search (ind : Fin 2) (mm : ℕ) (none : Candidate α) (points : List (Candidate α)) :
    List (Candidate α) := points.foldl (consider ind) (List.replicate mm none)

end Search

section Merge

structure Merge where
  i1 : ℕ → ℕ
  jg : ℕ → ℕ × ℕ × ℕ × ℕ

def ordered (ind : Fin 2) (ten : ℕ → ℕ → Candidate α) (none : Candidate α) (numThreads : ℕ)
    (i1 : ℕ → ℕ) (stale : ℕ) : α × ℕ :=
  (List.range numThreads).foldl
    (fun best myid =>
      if beats ind (ten myid (i1 myid)).ten best.1 then ((ten myid (i1 myid)).ten, myid) else best)
    (none.ten, stale)

def round (ind : Fin 2) (ten : ℕ → ℕ → Candidate α) (none : Candidate α) (numThreads : ℕ)
    (i : ℕ) (m : Merge) : Merge :=
  let myid := (ordered ind ten none numThreads m.i1 (m.jg i).1).2
  if myid < numThreads then
    { i1 := Function.update m.i1 myid (m.i1 myid - 1)
      jg := Function.update m.jg i (myid, (ten myid (m.i1 myid)).place) }
  else m

def merge (ind : Fin 2) (ten : ℕ → ℕ → Candidate α) (none : Candidate α) (numThreads : ℕ) :
    (i : ℕ) → Merge → Merge
  | 0, m => m
  | i + 1, m => merge ind ten none numThreads i (round ind ten none numThreads (i + 1) m)

def mm : ℕ := 10

/-- `jg` behind the parallel region, from what was in it before; `parts` are the planes of the
threads. -/
def selectCharges (zero one : α) (z : ℕ → ℕ → ℕ → α) (n1 n2 : ℕ) (parts : List (List ℕ))
    (jg : Fin 2 → ℕ → ℕ × ℕ × ℕ × ℕ) (ind : Fin 2) : ℕ → ℕ × ℕ × ℕ × ℕ :=
  let none := noCandidate zero one ind
  let ten := fun myid i =>
    (search ind mm none (points z n1 n2 (parts.getD myid []))).getD (i - 1) none
  (merge ind ten none parts.length mm ⟨fun _ => mm, jg ind⟩).jg

def charges (zero one : α) (z : ℕ → ℕ → ℕ → α) (n1 n2 : ℕ) (parts : List (List ℕ))
    (jg : Fin 2 → ℕ → ℕ × ℕ × ℕ × ℕ) (ind : Fin 2) : List (ℕ × ℕ × ℕ) :=
  (List.range mm).map fun k => (selectCharges zero one z n1 n2 parts jg ind (mm - k)).2

end Merge

section Order

variable {ind : Fin 2}

def notBehind (ind : Fin 2) (p q : Candidate α) : Bool := !beats ind q.ten p.ten

theorem ranks_notBehind (ind : Fin 2) :
    Ranks (notBehind ind : Candidate α → Candidate α → Bool) where
  trans := by
    intro a b c
    simp only [notBehind, beats]
    split_ifs
    · simp only [gt_iff_lt, Bool.not_eq_eq_eq_not, Bool.not_true, decide_eq_false_iff_not, not_lt]
      exact fun first second => second.trans first
    · simp only [Bool.not_eq_eq_eq_not, Bool.not_true, decide_eq_false_iff_not, not_lt]
      exact fun first second => first.trans second
  total := by
    intro a b
    simp only [notBehind, beats]
    split_ifs
    · simpa using le_total b.ten a.ten
    · simpa using le_total a.ten b.ten

theorem notBehind_eq_false {p q : Candidate α} :
    notBehind ind p q = false ↔ beats ind q.ten p.ten = true := by
  rw [notBehind, Bool.not_eq_false']

theorem notBehind_eq_true {p q : Candidate α} :
    notBehind ind p q = true ↔ beats ind q.ten p.ten = false := by
  rw [notBehind, Bool.not_eq_true']

end Order

section Kept

variable {ind : Fin 2} {x : Candidate α}

theorem bubble_append {front back : List (Candidate α)}
    (passed : ∀ b ∈ front, beats ind x.ten b.ten = true)
    (stops : ∀ b ∈ back, beats ind x.ten b.ten = false) :
    bubble ind x (front ++ back) = front ++ x :: back := by
  induction front with
  | nil =>
      cases back with
      | nil => rfl
      | cons b back =>
          rw [List.nil_append, bubble, if_neg (by rw [stops b (List.mem_cons_self ..)]; decide)]
          rfl
  | cons b front ih =>
      rw [List.forall_mem_cons] at passed
      rw [List.cons_append, bubble, if_pos passed.1, ih passed.2]
      rfl

theorem consider_take {m : ℕ} (some_ : 0 < m) {front back : List (Candidate α)}
    (enough : m ≤ (front ++ back).length)
    (stops : ∀ b ∈ front, beats ind x.ten b.ten = false)
    (passed : ∀ b ∈ back, beats ind x.ten b.ten = true) :
    consider ind ((front ++ back).take m).reverse x =
      ((front ++ x :: back).take m).reverse := by
  by_cases inside : m ≤ front.length
  · rw [List.take_append_of_le_length inside, List.take_append_of_le_length inside]
    cases kept : (front.take m).reverse with
    | nil => rfl
    | cons b rest =>
        have member : b ∈ front.take m := by
          rw [← List.mem_reverse, kept]
          exact List.mem_cons_self ..
        rw [consider]
        exact if_neg (by rw [stops b (List.mem_of_mem_take member)]; decide)
  · obtain ⟨k, more⟩ : ∃ k, m = front.length + (k + 1) := ⟨m - front.length - 1, by omega⟩
    subst more
    rw [List.length_append] at enough
    have last : k < back.length := by omega
    have evicted : (back.take (k + 1)).reverse = back[k] :: (back.take k).reverse := by
      rw [List.take_add_one, List.getElem?_eq_getElem last, List.reverse_append]
      rfl
    rw [List.take_length_add_append, List.reverse_append, evicted, List.cons_append, consider,
      if_pos (passed _ (List.getElem_mem last)), bubble_append, List.take_length_add_append,
      List.take_succ_cons, List.reverse_append, List.reverse_cons, List.append_assoc]
    · rfl
    · exact fun b member => passed b (List.mem_of_mem_take (List.mem_reverse.mp member))
    · exact fun b member => stops b (List.mem_reverse.mp member)

variable {none : Candidate α} {m : ℕ}

theorem search_eq (some_ : 0 < m) (points : List (Candidate α))
    (real : ∀ p ∈ points, beats ind p.ten none.ten = true) :
    search ind m none points =
      ((points.mergeSort (notBehind ind) ++ List.replicate m none).take m).reverse := by
  induction points using List.reverseRecOn with
  | nil => simp [search]
  | append_singleton points x ih =>
      have old : ∀ p ∈ points, beats ind p.ten none.ten = true :=
        fun p member => real p (List.mem_append_left _ member)
      obtain ⟨front, back, sorted, sorted', before, behind⟩ :=
        mergeSort_concat (ranks_notBehind ind) points x
      have step : search ind m none (points ++ [x]) =
          consider ind (search ind m none points) x := by
        rw [search, List.foldl_append]
        rfl
      rw [step, ih old, sorted, sorted', List.append_assoc, consider_take some_, List.append_assoc]
      · rfl
      · rw [List.length_append, List.length_append, List.length_replicate]
        omega
      · exact fun b member => notBehind_eq_true.mp (before b member)
      · intro b member
        rcases List.mem_append.mp member with later | sentinel
        · exact notBehind_eq_false.mp (behind b later)
        · rw [(List.mem_replicate.mp sentinel).2]
          exact real x (List.mem_append_right _ (List.mem_singleton_self x))

theorem search_getD (points : List (Candidate α))
    (real : ∀ p ∈ points, beats ind p.ten none.ten = true) {j : ℕ} (inside : j < m) :
    (search ind m none points).getD (m - j - 1) none =
      ((points.mergeSort (notBehind ind))[j]?).getD none := by
  rw [search_eq (by omega) points real]
  have length :
      ((points.mergeSort (notBehind ind) ++ List.replicate m none).take m).length = m := by
    rw [List.length_take, List.length_append, List.length_replicate]
    omega
  rw [List.getD_reverse _ (by rw [length]; omega), length, show m - 1 - (m - j - 1) = j by omega,
    List.getD_eq_getElem?_getD, List.getElem?_take_of_lt inside]
  by_cases real' : j < (points.mergeSort (notBehind ind)).length
  · rw [List.getElem?_append_left real']
  · rw [List.getElem?_append_right (by omega), List.getElem?_replicate, if_pos (by omega),
      List.getElem?_eq_none (by omega)]
    rfl

end Kept

section Rounds

variable {ind : Fin 2}

theorem beats_trans {x y z : α} (first : beats ind x y = true) (second : beats ind z y = false) :
    beats ind x z = true := by
  simp only [beats] at first second ⊢
  split_ifs at first second ⊢
  · simp only [gt_iff_lt, decide_eq_true_eq, decide_eq_false_iff_not, not_lt] at first second ⊢
    exact second.trans_lt first
  · simp only [decide_eq_true_eq, decide_eq_false_iff_not, not_lt] at first second ⊢
    exact first.trans_le second

theorem beats_asymm {x y : α} (first : beats ind x y = true) : beats ind y x = false := by
  simp only [beats] at first ⊢
  split_ifs at first ⊢
  · simp only [gt_iff_lt, decide_eq_true_eq, decide_eq_false_iff_not, not_lt] at first ⊢
    exact first.le
  · simp only [decide_eq_true_eq, decide_eq_false_iff_not, not_lt] at first ⊢
    exact first.le

theorem beats_irrefl (ind : Fin 2) (x : α) : beats ind x x = false := by
  simp [beats]

theorem not_beats_trans {x y z : α} (first : beats ind x y = false)
    (second : beats ind y z = false) : beats ind x z = false := by
  cases won : beats ind x z with
  | false => rfl
  | true => rw [← first, beats_trans won second]

def remaining (ind : Fin 2) (lists : List (List (Candidate α))) (t : ℕ) : List (Candidate α) :=
  (lists.getD t []).mergeSort (notBehind ind)

theorem remaining_cons {lists : List (List (Candidate α))} {t : ℕ} {best : Candidate α}
    {rest : List (Candidate α)} (sort : remaining ind lists t = best :: rest) :
    ∀ p ∈ lists.getD t [], beats ind p.ten best.ten = false :=
  fun p member => notBehind_eq_true.mp (first_best (ranks_notBehind ind) sort p member)

theorem mem_of_remaining {lists : List (List (Candidate α))} {t : ℕ} {best : Candidate α}
    {rest : List (Candidate α)} (sort : remaining ind lists t = best :: rest) :
    best ∈ lists.getD t [] := by
  rw [← @List.mem_mergeSort _ (notBehind ind), ← remaining, sort]
  exact List.mem_cons_self ..

theorem remaining_eq_nil {lists : List (List (Candidate α))} {t : ℕ} :
    remaining ind lists t = [] ↔ lists.getD t [] = [] := by
  rw [← List.length_eq_zero_iff, remaining, List.length_mergeSort, List.length_eq_zero_iff]

/-- The thread in front among the first `n`: its best point beats those of the threads before it,
and those behind it do not beat it. -/
structure Leads (ind : Fin 2) (lists : List (List (Candidate α))) (n t : ℕ) (best : Candidate α)
    (rest : List (Candidate α)) : Prop where
  inside : t < n
  sort : remaining ind lists t = best :: rest
  before : ∀ u < t, ∀ p ∈ lists.getD u [], beats ind best.ten p.ten = true
  behind : ∀ u < n, t < u → ∀ p ∈ lists.getD u [], beats ind p.ten best.ten = false

section Leader

variable {lists : List (List (Candidate α))} {n t : ℕ} {best : Candidate α}
  {rest : List (Candidate α)}

theorem Leads.stay (leads : Leads ind lists n t best rest)
    (worse : ∀ p ∈ lists.getD n [], beats ind p.ten best.ten = false) :
    Leads ind lists (n + 1) t best rest where
  inside := leads.inside.trans (Nat.lt_succ_self n)
  sort := leads.sort
  before := leads.before
  behind u less more := by
    rcases Nat.lt_succ_iff_lt_or_eq.mp less with before | rfl
    · exact leads.behind u before more
    · exact worse

theorem Leads.last (sort : remaining ind lists n = best :: rest)
    (better : ∀ u < n, ∀ p ∈ lists.getD u [], beats ind best.ten p.ten = true) :
    Leads ind lists (n + 1) n best rest where
  inside := Nat.lt_succ_self n
  sort := sort
  before := better
  behind u less more := by omega

theorem Leads.best_of_all (leads : Leads ind lists n t best rest) {u : ℕ} (inside : u < n) :
    ∀ p ∈ lists.getD u [], beats ind p.ten best.ten = false := by
  intro p member
  rcases lt_trichotomy u t with before | rfl | behind
  · exact beats_asymm (leads.before u before p member)
  · exact remaining_cons leads.sort p member
  · exact leads.behind u inside behind p member

end Leader

variable {ten : ℕ → ℕ → Candidate α} {none : Candidate α} {i1 : ℕ → ℕ}
  {lists : List (List (Candidate α))}

theorem ordered_spec (n stale : ℕ)
    (entries : ∀ t < n, ten t (i1 t) = ((remaining ind lists t)[0]?).getD none)
    (real : ∀ t < n, ∀ p ∈ lists.getD t [], beats ind p.ten none.ten = true) :
    ((∀ t < n, lists.getD t [] = []) ∧ ordered ind ten none n i1 stale = (none.ten, stale)) ∨
      ∃ t best rest, Leads ind lists n t best rest ∧
        ordered ind ten none n i1 stale = (best.ten, t) := by
  induction n with
  | zero => exact .inl ⟨fun t none => absurd none (Nat.not_lt_zero t), rfl⟩
  | succ n ih =>
      have step : ordered ind ten none (n + 1) i1 stale =
          if beats ind (ten n (i1 n)).ten (ordered ind ten none n i1 stale).1 then
            ((ten n (i1 n)).ten, n) else ordered ind ten none n i1 stale := by
        rw [ordered, List.range_succ, List.foldl_append]
        rfl
      have entry := entries n (Nat.lt_succ_self n)
      have own := real n (Nat.lt_succ_self n)
      rw [step, entry]
      have old := ih (fun t less => entries t (by omega)) fun t less => real t (by omega)
      cases sort : remaining ind lists n with
      | nil =>
          have empty := remaining_eq_nil.mp sort
          rcases old with ⟨none', same⟩ | ⟨t, best, rest, leads, same⟩
          · left
            rw [same]
            refine ⟨fun t less => ?_, if_neg (by simp [beats_irrefl])⟩
            rcases Nat.lt_succ_iff_lt_or_eq.mp less with before | rfl
            · exact none' t before
            · exact empty
          · have worse : beats ind none.ten best.ten = false :=
              beats_asymm (real t (leads.inside.trans (Nat.lt_succ_self n)) best
                (mem_of_remaining leads.sort))
            refine .inr ⟨t, best, rest, leads.stay fun p member => ?_, ?_⟩
            · rw [empty] at member
              cases member
            · rw [same]
              exact if_neg (by simp [worse])
      | cons first more =>
          have counts := own first (mem_of_remaining sort)
          rw [List.getElem?_cons_zero, Option.getD_some]
          right
          rcases old with ⟨none', same⟩ | ⟨t, best, rest, leads, same⟩
          · rw [same]
            refine ⟨n, first, more, .last sort fun u less p member => ?_, if_pos counts⟩
            rw [none' u less] at member
            cases member
          · rw [same]
            cases won : beats ind first.ten best.ten with
            | true =>
                exact ⟨n, first, more, .last sort fun u less p member =>
                  beats_trans won (leads.best_of_all less p member), if_pos rfl⟩
            | false =>
                exact ⟨t, best, rest, leads.stay fun p member =>
                  not_beats_trans (remaining_cons sort p member) won, if_neg (by decide)⟩

section Lists

omit [LinearOrder α] in
theorem mem_flatten_of_getD {t : ℕ} {p : Candidate α} (member : p ∈ lists.getD t []) :
    p ∈ lists.flatten := by
  by_cases inside : t < lists.length
  · rw [List.getD_eq_getElem _ _ inside] at member
    exact List.mem_flatten.mpr ⟨_, List.getElem_mem inside, member⟩
  · rw [List.getD_eq_default _ _ (by omega)] at member
    cases member

omit [LinearOrder α] in
theorem flatten_eq_nil (empty : ∀ t < lists.length, lists.getD t [] = []) : lists.flatten = [] := by
  rw [List.flatten_eq_nil_iff]
  intro l member
  obtain ⟨t, inside, rfl⟩ := List.getElem_of_mem member
  rw [← empty t inside, List.getD_eq_getElem _ _ inside]

variable {t : ℕ} {best : Candidate α} {rest l : List (Candidate α)}
  (leads : Leads ind lists lists.length t best rest)

include leads

theorem Leads.sorted : ∃ l, l.mergeSort (notBehind ind) = rest ∧
    lists.flatten.mergeSort (notBehind ind) =
      best :: (lists.set t l).flatten.mergeSort (notBehind ind) := by
  refine mergeSort_flatten (ranks_notBehind ind) leads.inside leads.sort
    (fun u less p member => notBehind_eq_false.mpr (leads.before u less p member)) ?_
  intro u more p member
  by_cases inside : u < lists.length
  · exact notBehind_eq_true.mpr (leads.behind u inside more p member)
  · rw [List.getD_eq_default _ _ (by omega)] at member
    cases member

theorem Leads.entries (sort : l.mergeSort (notBehind ind) = rest) {k : ℕ}
    (entries : ∀ u < lists.length, ∀ j < k + 1,
      ten u (i1 u - j) = ((remaining ind lists u)[j]?).getD none) :
    ∀ u < (lists.set t l).length, ∀ j < k, ten u (Function.update i1 t (i1 t - 1) u - j) =
      ((remaining ind (lists.set t l) u)[j]?).getD none := by
  intro u inside j less
  rw [List.length_set] at inside
  by_cases own : u = t
  · subst own
    have entry := entries u inside (j + 1) (Nat.succ_lt_succ less)
    rw [leads.sort, List.getElem?_cons_succ] at entry
    rw [Function.update_self, remaining, List.getD_eq_getElem _ _ (by simpa using inside),
      List.getElem_set_self, sort, ← entry, Nat.sub_sub, Nat.add_comm 1 j]
  · rw [Function.update_of_ne own, entries u inside j (by omega), remaining, remaining,
      List.getD_eq_getElem _ _ inside, List.getD_eq_getElem _ _ (by simpa using inside),
      List.getElem_set_ne (Ne.symm own)]

end Lists

/-- The rounds from `k` down to 1 give away the first `k` points in order. -/
theorem merge_spec (k : ℕ) (m : Merge)
    (entries : ∀ t < lists.length, ∀ j < k,
      ten t (m.i1 t - j) = ((remaining ind lists t)[j]?).getD none)
    (real : ∀ p ∈ lists.flatten, beats ind p.ten none.ten = true)
    (enough : k ≤ lists.flatten.length) :
    (∀ i, k < i → (merge ind ten none lists.length k m).jg i = m.jg i) ∧
      ∀ j < k, ((lists.flatten.mergeSort (notBehind ind))[j]?).map Candidate.place =
        some ((merge ind ten none lists.length k m).jg (k - j)).2 := by
  induction k generalizing lists m with
  | zero => exact ⟨fun _ _ => rfl, fun j less => absurd less (Nat.not_lt_zero j)⟩
  | succ k ih =>
      rcases @ordered_spec _ _ ind ten none m.i1 lists lists.length (m.jg (k + 1)).1
          (fun t less => entries t less 0 (Nat.zero_lt_succ k))
          (fun t _ p member => real p (mem_flatten_of_getD member)) with
        ⟨empty, _⟩ | ⟨t, best, rest, leads, found⟩
      · rw [flatten_eq_nil empty] at enough
        cases enough
      · obtain ⟨l, sort, sorted⟩ := leads.sorted
        have taken : ten t (m.i1 t) = best := by
          have entry := entries t leads.inside 0 (Nat.zero_lt_succ k)
          rwa [leads.sort] at entry
        have step : round ind ten none lists.length (k + 1) m =
            ⟨Function.update m.i1 t (m.i1 t - 1),
              Function.update m.jg (k + 1) (t, best.place)⟩ := by
          rw [round, found]
          dsimp only
          rw [if_pos leads.inside, taken]
        have real' : ∀ p ∈ (lists.set t l).flatten, beats ind p.ten none.ten = true := by
          intro p member
          refine real p ?_
          rw [← @List.mem_mergeSort _ (notBehind ind), sorted]
          exact List.mem_cons_of_mem _ (List.mem_mergeSort.mpr member)
        have enough' : k ≤ (lists.set t l).flatten.length := by
          have lengths := congrArg List.length sorted
          rw [List.length_mergeSort, List.length_cons, List.length_mergeSort] at lengths
          omega
        obtain ⟨kept, given⟩ := ih ⟨Function.update m.i1 t (m.i1 t - 1),
          Function.update m.jg (k + 1) (t, best.place)⟩ (leads.entries sort entries) real' enough'
        rw [List.length_set] at kept given
        rw [merge, step, sorted]
        refine ⟨fun i more => ?_, fun j less => ?_⟩
        · rw [kept i (by omega)]
          exact Function.update_of_ne (by omega) ..
        · cases j with
          | zero =>
              rw [Nat.sub_zero, kept (k + 1) (Nat.lt_succ_self k)]
              dsimp only
              rw [Function.update_self]
              rfl
          | succ j =>
              rw [Nat.add_sub_add_right, ← given j (by omega)]
              rfl

end Rounds

section Charges

variable {zero one : α} {z : ℕ → ℕ → ℕ → α} {n1 n2 : ℕ}

omit [LinearOrder α] in
theorem flatten_points (parts : List (List ℕ)) :
    (parts.map (points z n1 n2)).flatten = points z n1 n2 parts.flatten := by
  induction parts with
  | nil => rfl
  | cons planes parts ih =>
      rw [List.map_cons, List.flatten_cons, ih, List.flatten_cons, points, points, points,
        List.flatMap_append]

omit [LinearOrder α] in
theorem mem_points {planes : List ℕ} {p : Candidate α} (member : p ∈ points z n1 n2 planes) :
    p.j1 ∈ List.range' 2 (n1 - 2) ∧ p.j2 ∈ List.range' 2 (n2 - 2) ∧ p.j3 ∈ planes ∧
      p.ten = z p.j1 p.j2 p.j3 := by
  simp only [points, List.mem_flatMap, List.mem_map] at member
  obtain ⟨i3, h3, i2, h2, i1, h1, rfl⟩ := member
  exact ⟨h1, h2, h3, rfl⟩

omit [LinearOrder α] in
theorem length_points (planes : List ℕ) :
    (points z n1 n2 planes).length = planes.length * ((n2 - 2) * (n1 - 2)) := by
  simp [points, List.length_flatMap]

theorem charges_eq (parts : List (List ℕ))
    (between : ∀ i1 ∈ List.range' 2 (n1 - 2), ∀ i2 ∈ List.range' 2 (n2 - 2), ∀ i3 ∈ parts.flatten,
      zero < z i1 i2 i3 ∧ z i1 i2 i3 < one)
    (enough : mm ≤ (points z n1 n2 parts.flatten).length) (jg : Fin 2 → ℕ → ℕ × ℕ × ℕ × ℕ)
    (ind : Fin 2) :
    charges zero one z n1 n2 parts jg ind =
      (((points z n1 n2 parts.flatten).mergeSort (notBehind ind)).take mm).map
        Candidate.place := by
  have real : ∀ p ∈ points z n1 n2 parts.flatten,
      beats ind p.ten (noCandidate zero one ind).ten = true := by
    intro p member
    obtain ⟨h1, h2, h3, value⟩ := mem_points member
    obtain ⟨low, high⟩ := between _ h1 _ h2 _ h3
    rw [← value] at low high
    simp only [beats, noCandidate]
    split_ifs <;> simpa
  have length : (parts.map (points z n1 n2)).length = parts.length := List.length_map _
  have own {t : ℕ} (inside : t < parts.length) :
      (parts.map (points z n1 n2)).getD t [] = points z n1 n2 (parts.getD t []) := by
    rw [List.getD_eq_getElem _ _ (by rwa [length]), List.getElem_map,
      List.getD_eq_getElem _ _ inside]
  obtain ⟨_, given⟩ := @merge_spec _ _ ind (fun myid i =>
      (search ind mm (noCandidate zero one ind) (points z n1 n2 (parts.getD myid []))).getD (i - 1)
        (noCandidate zero one ind)) (noCandidate zero one ind) (parts.map (points z n1 n2)) mm
    ⟨fun _ => mm, jg ind⟩ (by
      intro t inside j less
      rw [length] at inside
      rw [remaining, own inside]
      refine search_getD _ (fun p member => real p ?_) less
      rw [← flatten_points]
      refine List.mem_flatten.mpr ⟨_, List.mem_map_of_mem ?_, member⟩
      rw [List.getD_eq_getElem _ _ inside]
      exact List.getElem_mem inside)
    (by rwa [flatten_points]) (by rwa [flatten_points])
  rw [flatten_points, length] at given
  refine List.ext_getElem? ?_
  intro j
  rw [charges, List.getElem?_map, List.getElem?_map]
  by_cases less : j < mm
  · rw [List.getElem?_range less, List.getElem?_take_of_lt less, given j less]
    rfl
  · rw [List.getElem?_eq_none (by simpa using less), List.getElem?_eq_none (by
      rw [List.length_take]
      omega)]
    rfl

/-- The charges are those of one thread, the first ten points by value and then in the order of
the scan, whatever planes the threads have. -/
theorem charges_independent (zero one : α) (z : ℕ → ℕ → ℕ → α) (n1 n2 n3 : ℕ)
    (between : ∀ i1 ∈ List.range' 2 (n1 - 2), ∀ i2 ∈ List.range' 2 (n2 - 2),
      ∀ i3 ∈ List.range' 2 (n3 - 2), zero < z i1 i2 i3 ∧ z i1 i2 i3 < one)
    (enough : 10 ≤ (n1 - 2) * (n2 - 2) * (n3 - 2)) (parts : List (List ℕ))
    (contiguous : parts.flatten = List.range' 2 (n3 - 2))
    (jg jg' : Fin 2 → ℕ → ℕ × ℕ × ℕ × ℕ) (ind : Fin 2) :
    charges zero one z n1 n2 parts jg ind =
        charges zero one z n1 n2 [List.range' 2 (n3 - 2)] jg' ind ∧
      charges zero one z n1 n2 parts jg ind =
        (((points z n1 n2 (List.range' 2 (n3 - 2))).mergeSort (notBehind ind)).take 10).map
          Candidate.place := by
  have many : mm ≤ (points z n1 n2 (List.range' 2 (n3 - 2))).length := by
    rw [length_points, List.length_range', mm]
    calc 10 ≤ (n1 - 2) * (n2 - 2) * (n3 - 2) := enough
      _ = (n3 - 2) * ((n2 - 2) * (n1 - 2)) := by rw [Nat.mul_comm (n1 - 2), Nat.mul_comm]
  have own := charges_eq parts (by rwa [contiguous]) (by rwa [contiguous]) jg ind
  have alone := charges_eq [List.range' 2 (n3 - 2)] (by simpa using between) (by simpa using many)
    jg' ind
  rw [contiguous] at own
  rw [List.flatten_singleton] at alone
  exact ⟨own.trans alone.symm, own⟩

def equalValues (i1 _ i3 : ℕ) : ℕ := 1 + (i1 + i3) % 3

theorem charges_independent_six :
    charges 0 4 equalValues 4 3 [[2, 3, 4], [], [5, 6, 7]] (fun _ _ => (0, 0, 0, 0)) 1 =
      charges 0 4 equalValues 4 3 [List.range' 2 (8 - 2)] (fun _ _ => (7, 0, 0, 0)) 1 :=
  (charges_independent 0 4 equalValues 4 3 8 (by decide) (by decide) [[2, 3, 4], [], [5, 6, 7]]
    (by decide) (fun _ _ => (0, 0, 0, 0)) (fun _ _ => (7, 0, 0, 0)) 1).1

end Charges

end Baseliner.MgCharges
