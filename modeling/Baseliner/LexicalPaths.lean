import Mathlib.Data.List.Basic
import Baseliner.SegmentedNames

/-! Paths as strings over any alphabet, with a separator and a dot. A path is cut
into names at the separators, and resolved without looking at a file system:
empty names and single dots are dropped, two dots go back to the directory
before. Above the root nothing is left, above a relative start the two dots stay.

A path is inside a directory when it resolves to the directory followed by names
that do not go back. -/

namespace Baseliner.LexicalPaths

open SegmentedNames

variable {α : Type*} [DecidableEq α]

def components (sep : α) : List α → List (List α)
  | [] => [[]]
  | c :: rest =>
      if c = sep then [] :: components sep rest
      else
        match components sep rest with
        | [] => [[c]]
        | name :: names => (c :: name) :: names

def Stays (dot : α) (name : List α) : Prop := name = [] ∨ name = [dot]

instance (dot : α) (name : List α) : Decidable (Stays dot name) :=
  inferInstanceAs (Decidable (_ ∨ _))

/-- From a directory to the one that `name` stands for in it. -/
def enter (dot : α) (absolute : Bool) (dir : List (List α)) (name : List α) : List (List α) :=
  if Stays dot name then dir
  else if name = [dot, dot] then
    if dir = [] then if absolute then [] else [name]
    else if dir.getLast? = some [dot, dot] then dir ++ [name]
    else dir.dropLast
  else dir ++ [name]

/-- Whether the path starts at the root, and the names it resolves to. -/
def resolve (sep dot : α) (path : List α) : Bool × List (List α) :=
  let absolute : Bool := path.head? = some sep
  (absolute, (components sep path).foldl (enter dot absolute) [])

def Inside (sep dot : α) (dir path : List α) : Prop :=
  (resolve sep dot path).1 = (resolve sep dot dir).1 ∧
    ∃ rest, (resolve sep dot path).2 = (resolve sep dot dir).2 ++ rest ∧ [dot, dot] ∉ rest

/-! ### Names -/

theorem components_ne_nil (sep : α) (path : List α) : components sep path ≠ [] := by
  cases path with
  | nil => simp [components]
  | cons c rest =>
      rw [components]
      split
      · simp
      · split
        · simp
        · simp

theorem components_append (sep : α) (dir name : List α) :
    components sep (dir ++ sep :: name) = components sep dir ++ components sep name := by
  induction dir with
  | nil => simp [components]
  | cons c dir ih =>
      rw [List.cons_append, components, components, ih]
      by_cases here : c = sep
      · rw [if_pos here, if_pos here]
        rfl
      · rw [if_neg here, if_neg here]
        cases parts : components sep dir with
        | nil => exact absurd parts (components_ne_nil sep dir)
        | cons first rest => rfl

theorem joinSegments_components (sep : α) (path : List α) :
    joinSegments sep (components sep path) = path := by
  induction path with
  | nil => rfl
  | cons c path ih =>
      rw [components]
      cases parts : components sep path with
      | nil => exact absurd parts (components_ne_nil sep path)
      | cons first rest =>
          rw [parts] at ih
          by_cases here : c = sep
          · rw [if_pos here, joinSegments, ih, here]
            rfl
          · rw [if_neg here]
            cases rest with
            | nil =>
                rw [joinSegments] at ih ⊢
                rw [ih]
            | cons second rest =>
                rw [joinSegments] at ih ⊢
                rw [← ih]
                rfl

/-- A name that is not the last one is followed by a separator, and preceded by one
unless it is the first. -/
theorem exists_split_of_components {sep : α} {path name next : List α}
    {front back : List (List α)} (cut : components sep path = front ++ name :: next :: back) :
    ∃ before after, path = before ++ name ++ sep :: after ∧
      (before = [] ∨ ∃ start, before = start ++ [sep]) := by
  have whole := joinSegments_components sep path
  rw [cut] at whole
  have tail : joinSegments sep (name :: next :: back) =
      name ++ sep :: joinSegments sep (next :: back) := rfl
  cases front with
  | nil =>
      refine ⟨[], joinSegments sep (next :: back), ?_, Or.inl rfl⟩
      rw [← whole, List.nil_append, tail, List.nil_append]
  | cons first front =>
      rw [joinSegments_append (by simp) (by simp), tail] at whole
      refine ⟨joinSegments sep (first :: front) ++ [sep], joinSegments sep (next :: back), ?_,
        Or.inr ⟨_, rfl⟩⟩
      rw [← whole]
      simp

/-! ### Going down and going back -/

def proper (dot : α) (names : List (List α)) : List (List α) :=
  names.filter fun name => ¬ Stays dot name

theorem foldl_enter {dot : α} (absolute : Bool) (dir : List (List α)) {names : List (List α)}
    (down : [dot, dot] ∉ names) :
    names.foldl (enter dot absolute) dir = dir ++ proper dot names := by
  induction names generalizing dir with
  | nil => simp [proper]
  | cons name names ih =>
      rw [List.mem_cons, not_or] at down
      rw [List.foldl_cons, ih _ down.2]
      unfold enter proper
      by_cases stays : Stays dot name
      · simp [stays]
      · simp [stays, Ne.symm down.1]

theorem proper_eq_nil_iff {dot : α} {names : List (List α)} :
    proper dot names = [] ↔ ∀ name ∈ names, Stays dot name := by
  unfold proper
  rw [List.filter_eq_nil_iff]
  simp only [decide_eq_true_eq, not_not]

theorem notMem_proper {dot : α} {names : List (List α)} (down : [dot, dot] ∉ names) :
    [dot, dot] ∉ proper dot names := fun mem => down (List.mem_of_mem_filter mem)

def Escapes (dot : α) (names : List (List α)) : Prop :=
  ∃ front, names = front ++ [[dot, dot]] ∧ ∀ name ∈ front, Stays dot name

theorem enter_back_inside_iff {dot : α} {absolute : Bool} {dir : List (List α)} :
    (∃ rest, enter dot absolute dir [dot, dot] = dir ++ rest ∧ [dot, dot] ∉ rest) ↔
      absolute = true ∧ dir = [] := by
  have back : ¬ Stays dot [dot, dot] := by simp [Stays]
  unfold enter
  rw [if_neg back, if_pos rfl]
  by_cases root : dir = []
  · subst root
    cases absolute with
    | true => simp
    | false => simp
  · simp only [root, and_false, iff_false, if_false]
    rintro ⟨rest, eq, down⟩
    split at eq
    · have same : rest = [[dot, dot]] := List.append_cancel_left eq.symm
      rw [same] at down
      exact down List.mem_cons_self
    · have shorter := congrArg List.length eq
      have some := List.length_pos_iff.mpr root
      rw [List.length_dropLast, List.length_append] at shorter
      omega

theorem escapes_append_iff {dot : α} {front : List (List α)} {last : List α} :
    Escapes dot (front ++ [last]) ↔ last = [dot, dot] ∧ proper dot front = [] := by
  rw [proper_eq_nil_iff]
  constructor
  · rintro ⟨names, eq, stay⟩
    obtain ⟨rfl, same⟩ := List.append_inj' eq rfl
    exact ⟨List.singleton_inj.mp same, stay⟩
  · rintro ⟨rfl, stay⟩
    exact ⟨front, rfl, stay⟩

theorem enter_back {dot : α} (absolute : Bool) (dir : List (List α)) {names : List (List α)}
    (some : names ≠ []) (down : [dot, dot] ∉ names) :
    enter dot absolute (dir ++ names) [dot, dot] = dir ++ names.dropLast := by
  have back : ¬ Stays dot [dot, dot] := by simp [Stays]
  have below : dir ++ names ≠ [] := by simp [some]
  have last : (dir ++ names).getLast? ≠ Option.some [dot, dot] := by
    rw [List.getLast?_append_of_ne_nil dir some]
    intro eq
    exact down (List.mem_of_getLast? eq)
  unfold enter
  rw [if_neg back, if_pos rfl, if_neg below, if_neg last, List.dropLast_append_of_ne_nil some]

/-- A path in which only the last name may go back is inside, unless it escapes
from a directory other than the root. -/
theorem foldl_inside_iff {dot : α} {absolute : Bool} (dir : List (List α))
    {front : List (List α)} {last : List α} (down : [dot, dot] ∉ front) :
    (∃ rest, (front ++ [last]).foldl (enter dot absolute) dir = dir ++ rest ∧
        [dot, dot] ∉ rest) ↔
      (absolute = true ∧ dir = []) ∨ ¬ Escapes dot (front ++ [last]) := by
  rw [escapes_append_iff]
  by_cases back : last = [dot, dot]
  · subst back
    rw [List.foldl_append, foldl_enter absolute dir down, List.foldl_cons, List.foldl_nil]
    by_cases none : proper dot front = []
    · rw [none, List.append_nil, enter_back_inside_iff]
      simp
    · have inner := notMem_proper down
      rw [enter_back absolute dir none inner]
      refine ⟨fun _ => Or.inr fun escapes => none escapes.2, fun _ => ⟨_, rfl, fun mem => ?_⟩⟩
      exact inner (List.mem_of_mem_dropLast mem)
  · have plain : [dot, dot] ∉ front ++ [last] := by
      simp [down, Ne.symm back]
    rw [foldl_enter absolute dir plain]
    exact ⟨fun _ => Or.inr fun escapes => back escapes.1,
      fun _ => ⟨_, rfl, notMem_proper plain⟩⟩

theorem inside_append_iff {sep dot : α} {dir name : List α} (some : dir ≠ [])
    {front : List (List α)} {last : List α} (names : components sep name = front ++ [last])
    (down : [dot, dot] ∉ front) :
    Inside sep dot dir (dir ++ sep :: name) ↔
      resolve sep dot dir = (true, []) ∨ ¬ Escapes dot (components sep name) := by
  have start : (dir ++ sep :: name).head? = dir.head? := by
    cases dir with
    | nil => exact absurd rfl some
    | cons c dir => rfl
  unfold Inside resolve
  dsimp only
  rw [start, components_append, List.foldl_append, names, foldl_inside_iff _ down,
    Prod.mk.injEq]
  simp

end Baseliner.LexicalPaths
