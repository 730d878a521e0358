import Mathlib.Data.List.Nodup
import Mathlib.Logic.Function.Basic
import Mathlib.Tactic.Tauto

/-! Loops over the entries of a family in which a pass reads and writes its own entry only. -/

namespace Baseliner.OwnEntries

variable {ι α : Type*} [DecidableEq ι]

def sweep (entries : List ι) (f : ι → α → α) (s : ι → α) : ι → α :=
  entries.foldl (fun s e => Function.update s e (f e (s e))) s

theorem sweep_apply {entries : List ι} (once : entries.Nodup) (f : ι → α → α) (s : ι → α)
    (e : ι) : sweep entries f s e = if e ∈ entries then f e (s e) else s e := by
  induction entries generalizing s with
  | nil => rfl
  | cons first entries ih =>
    obtain ⟨fresh, once⟩ := List.nodup_cons.mp once
    change sweep entries f (Function.update s first (f first (s first))) e = _
    rw [ih once]
    obtain rfl | ne := eq_or_ne e first
    · rw [if_neg fresh, if_pos List.mem_cons_self, Function.update_self]
    · rw [Function.update_of_ne ne]
      simp [ne]

theorem sweeps_apply {entries : List ι} (once : entries.Nodup) (loops : List (ι → α → α))
    (s : ι → α) (e : ι) :
    loops.foldl (fun s f => sweep entries f s) s e =
      if e ∈ entries then loops.foldl (fun a f => f e a) (s e) else s e := by
  induction loops generalizing s with
  | nil => simp
  | cons f loops ih =>
    rw [List.foldl_cons, List.foldl_cons, ih, sweep_apply once]
    split_ifs <;> rfl

theorem sweep_flatten (groups : List (List ι)) (f : ι → α → α) (s : ι → α) :
    sweep groups.flatten f s = groups.foldl (fun s entries => sweep entries f s) s := by
  induction groups generalizing s with
  | nil => rfl
  | cons entries groups ih =>
    rw [List.flatten_cons, List.foldl_cons, ← ih, sweep, List.foldl_append]
    rfl

theorem sweep_flatMap {β : Type*} (groups : List β) (entries : β → List ι) (f : ι → α → α)
    (s : ι → α) : sweep (groups.flatMap entries) f s =
      groups.foldl (fun s b => sweep (entries b) f s) s := by
  rw [List.flatMap_def, sweep_flatten, List.foldl_map]

theorem sweep_congr {entries : List ι} {f f' : ι → α → α}
    (h : ∀ e ∈ entries, ∀ a, f e a = f' e a) (s : ι → α) : sweep entries f s = sweep entries f' s :=
  List.foldl_ext _ _ _ fun s e mem => by rw [h e mem]

omit [DecidableEq ι] in
theorem nodup_flatMap_of_key {β : Type*} {l : List β} {f : β → List ι} (key : ι → β)
    (once : l.Nodup) (own : ∀ a ∈ l, (f a).Nodup) (keyed : ∀ a ∈ l, ∀ b ∈ f a, key b = a) :
    (l.flatMap f).Nodup := by
  refine List.nodup_flatMap.mpr ⟨own, once.imp_of_mem fun {a a'} mem mem' ne => ?_⟩
  intro b hb hb'
  exact ne ((keyed a mem b hb).symm.trans (keyed a' mem' b hb'))

/-! ### Copying -/

/-- Entries are copied one after another, to the first of each pair from the second. -/
def copy (moves : List (ι × ι)) (s : ι → α) : ι → α :=
  moves.foldl (fun s m => Function.update s m.1 (s m.2)) s

/-- Every copy is taken from one of the entries `R` or from one that has been copied before. -/
def Supplied (R : ι → Prop) : List (ι × ι) → Prop
  | [] => True
  | m :: moves => R m.2 ∧ Supplied (fun e => R e ∨ e = m.1) moves

omit [DecidableEq ι] in
theorem Supplied.mono {R R' : ι → Prop} (le : ∀ e, R e → R' e) {moves : List (ι × ι)}
    (h : Supplied R moves) : Supplied R' moves := by
  induction moves generalizing R R' with
  | nil => exact trivial
  | cons m moves ih => exact ⟨le _ h.1, ih (fun e => Or.imp_left (le e)) h.2⟩

omit [DecidableEq ι] in
theorem supplied_of_forall {R : ι → Prop} {moves : List (ι × ι)} (h : ∀ m ∈ moves, R m.2) :
    Supplied R moves := by
  induction moves generalizing R with
  | nil => exact trivial
  | cons m moves ih =>
    exact ⟨h m List.mem_cons_self, ih fun m' mem => .inl (h m' (List.mem_cons_of_mem _ mem))⟩

omit [DecidableEq ι] in
theorem Supplied.append {R : ι → Prop} {moves moves' : List (ι × ι)} (h : Supplied R moves)
    (h' : Supplied (fun e => R e ∨ ∃ m ∈ moves, e = m.1) moves') :
    Supplied R (moves ++ moves') := by
  induction moves generalizing R with
  | nil => exact h'.mono fun e => by simp
  | cons m moves ih =>
    refine ⟨h.1, ih h.2 (h'.mono fun e => ?_)⟩
    simp only [List.mem_cons, exists_eq_or_imp]
    tauto

omit [DecidableEq ι] in
theorem supplied_flatMap {β : Type*} {R : ι → Prop} {l : List β} {moves : β → List (ι × ι)}
    (h : ∀ b ∈ l, Supplied R (moves b)) : Supplied R (l.flatMap moves) := by
  induction l with
  | nil => exact trivial
  | cons b l ih =>
    refine (h b List.mem_cons_self).append ((ih fun b' mem => h b' ?_).mono fun e => .inl)
    exact List.mem_cons_of_mem _ mem

theorem copy_agrees {g : ι → α} {R : ι → Prop} {moves : List (ι × ι)} {s : ι → α}
    (supplied : Supplied R moves) (same : ∀ m ∈ moves, g m.1 = g m.2) (h : ∀ e, R e → s e = g e)
    {e : ι} (reached : R e ∨ ∃ m ∈ moves, e = m.1) : copy moves s e = g e := by
  induction moves generalizing R s with
  | nil => exact h e (by simpa using reached)
  | cons m moves ih =>
    refine ih (s := Function.update s m.1 (s m.2)) supplied.2
      (fun m' mem => same m' (List.mem_cons_of_mem _ mem)) (fun e' known => ?_) ?_
    · obtain rfl | ne := eq_or_ne e' m.1
      · rw [Function.update_self, h _ supplied.1, same m List.mem_cons_self]
      · rw [Function.update_of_ne ne]
        exact h e' (known.resolve_right ne)
    · simp only [List.mem_cons, exists_eq_or_imp] at reached
      tauto

/-! ### Adding -/

def addTo [Add α] (values : List (ι × α)) (s : ι → α) : ι → α :=
  values.foldl (fun s v => Function.update s v.1 (s v.1 + v.2)) s

theorem addTo_eq_sweep [Add α] {g : ι → α} {values : List (ι × α)} (h : ∀ v ∈ values, v.2 = g v.1)
    (s : ι → α) : addTo values s = sweep (values.map Prod.fst) (fun e a => a + g e) s := by
  induction values generalizing s with
  | nil => rfl
  | cons v values ih =>
    have first : Function.update s v.1 (s v.1 + v.2) = Function.update s v.1 (s v.1 + g v.1) := by
      rw [h v List.mem_cons_self]
    exact (ih (fun v' mem => h v' (List.mem_cons_of_mem _ mem)) _).trans
      (congrArg (sweep (values.map Prod.fst) fun e a => a + g e) first)

theorem addTo_flatMap [Add α] {β : Type*} (groups : List β) (values : β → List (ι × α))
    (s : ι → α) : addTo (groups.flatMap values) s =
      groups.foldl (fun s b => addTo (values b) s) s :=
  List.foldl_flatMap

/-! ### Loops over regions -/

omit [DecidableEq ι] in
/-- A loop in which every pass replaces the entries of a region of its own, from what they held
before the loop. -/
theorem foldlM_regions {β : Type*} {f : (ι → α) → β → Option (ι → α)} {r : β → ι → Prop}
    {v a : ι → α} {l : List β}
    (apart : l.Pairwise fun b b' => ∀ e, r b e → ¬ r b' e)
    (one : ∀ b ∈ l, ∀ s : ι → α, (∀ e, r b e → s e = a e) →
      ∃ s', f s b = some s' ∧ (∀ e, r b e → s' e = v e) ∧
        ∀ e, ¬ r b e → s' e = s e)
    {s : ι → α} (fresh : ∀ b ∈ l, ∀ e, r b e → s e = a e) :
    ∃ s', l.foldlM f s = some s' ∧ ∀ e,
      ((∃ b ∈ l, r b e) → s' e = v e) ∧
        ((∀ b ∈ l, ¬ r b e) → s' e = s e) := by
  induction l generalizing s with
  | nil => exact ⟨s, rfl, fun e => ⟨fun h => by simp at h, fun _ => rfl⟩⟩
  | cons b l ih =>
    obtain ⟨others, apart⟩ := List.pairwise_cons.mp apart
    obtain ⟨s₁, ran, own, rest⟩ := one b List.mem_cons_self s (fresh b List.mem_cons_self)
    obtain ⟨s₂, ran', result⟩ := ih apart (fun b' mem => one b' (List.mem_cons_of_mem _ mem))
      (s := s₁) fun b' mem e inside => by
        rw [rest e fun first => others b' mem e first inside]
        exact fresh b' (List.mem_cons_of_mem _ mem) e inside
    refine ⟨s₂, ?_, fun e => ⟨fun ⟨b', mem, inside⟩ => ?_, fun outside => ?_⟩⟩
    · rw [List.foldlM_cons, ran]
      exact ran'
    · obtain rfl | mem := List.mem_cons.mp mem
      · -- the later passes leave the region of the first one alone
        rw [(result e).2 fun b'' mem => others b'' mem e inside, own e inside]
      · exact (result e).1 ⟨b', mem, inside⟩
    · rw [(result e).2 fun b' mem => outside b' (List.mem_cons_of_mem _ mem),
        rest e (outside b List.mem_cons_self)]

end Baseliner.OwnEntries
