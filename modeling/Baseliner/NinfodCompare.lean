import Baseliner.NinfodEncode

/-! `compare_dnsname` over names of any bytes: the bytes it reads on the way, and what it
answers for two names that `encode_dnsname` has made. -/

namespace Baseliner.Ninfod

def Access.inside (slen nlen : Nat) : Access → Prop
  | subject i => 0 ≤ i ∧ i < slen
  | nodename i => 0 ≤ i ∧ i < nlen

section Trace

variable {s0 n0 : Memory} {slen nlen : Nat}

theorem compared_inside {s n : Int} {count : Nat} (low : 0 ≤ s ∧ 0 ≤ n)
    (high : s + count ≤ slen ∧ n + count ≤ nlen) :
    ∀ a ∈ compared s n count, a.inside slen nlen := by
  intro a member
  rcases List.mem_append.mp member with here | here
  · obtain ⟨k, inside, rfl⟩ := List.mem_map.mp here
    rw [List.mem_range] at inside
    exact ⟨by omega, by omega⟩
  · obtain ⟨k, inside, rfl⟩ := List.mem_map.mp here
    rw [List.mem_range] at inside
    exact ⟨by omega, by omega⟩

end Trace

section Boundaries

def Short (ls : List (List UInt8)) : Prop := ∀ l ∈ ls, l ≠ [] ∧ l.length < 0x40

/-- Place `n` of the name `b` is where a label starts, or the zeros behind the labels. -/
def AtLabel (b : List UInt8) (n : Int) : Prop :=
  ∃ pre ls dot, b = pre ++ (wire ls ++ terminator dot) ∧ Short ls ∧ n = pre.length

variable {b : List UInt8} {n : Int}

theorem schar_zero : schar 0 = 0 := by decide

theorem read_label (pre label rest : List UInt8) (short : label.length < 0x40) :
    schar (memoryOf (pre ++ UInt8.ofNat label.length :: (label ++ rest)) pre.length) =
      label.length := by
  rw [memoryOf_boundary]
  exact schar_ofNat short

theorem read_terminator (pre : List UInt8) (dot : Bool) :
    memoryOf (pre ++ terminator dot) pre.length = 0 := by
  rw [memoryOf_boundary]
  cases dot <;> rfl

theorem AtLabel.spec (h : AtLabel b n) : 0 ≤ n ∧ n < b.length ∧
    0 ≤ schar (memoryOf b n) ∧ schar (memoryOf b n) < 0x40 ∧
    n + schar (memoryOf b n) + 1 ≤ b.length ∧
    (schar (memoryOf b n) = 0 → n = b.length - 1 ∨ n + 1 = b.length - 1) ∧
    (0 < schar (memoryOf b n) → AtLabel b (n + schar (memoryOf b n) + 1)) := by
  obtain ⟨pre, ls, dot, rfl, short, rfl⟩ := h
  cases ls with
  | nil =>
      rw [wire_nil, List.nil_append, read_terminator, schar_zero]
      refine ⟨by omega, ?_, by omega, by omega, ?_, fun _ => ?_, fun pos => absurd pos (by omega)⟩
      all_goals
        rw [List.length_append]
        cases dot <;> simp [terminator] <;> omega
  | cons l ls =>
      obtain ⟨nonempty, fits⟩ := short l (List.mem_cons_self ..)
      have size := List.length_pos_of_ne_nil nonempty
      have text : pre ++ (wire (l :: ls) ++ terminator dot) =
          pre ++ UInt8.ofNat l.length :: (l ++ (wire ls ++ terminator dot)) := by
        rw [wire_cons, List.cons_append, List.append_assoc]
      have length : (pre ++ (wire (l :: ls) ++ terminator dot)).length =
          pre.length + (1 + l.length + (wire ls ++ terminator dot).length) := by
        rw [text]
        simp only [List.length_append, List.length_cons]
        omega
      have behind : 0 < (wire ls ++ terminator dot).length := by
        rw [List.length_append]
        cases dot <;> simp [terminator]
      rw [length, text, read_label pre l _ fits]
      refine ⟨by omega, by omega, by omega, by omega, by omega, fun zero => by omega, fun _ => ?_⟩
      refine ⟨pre ++ UInt8.ofNat l.length :: l, ls, dot, ?_,
        fun l member => short l (List.mem_cons_of_mem _ member), ?_⟩
      · simp
      · simp only [List.length_append, List.length_cons]
        omega

end Boundaries

section Reads

/-- From place `s` the bytes of the subject, each taken as a signed length, lead to the end of
the subject or to a byte that ends the comparison, and not out of the subject. -/
inductive Leads (s0 : Memory) (slen : Nat) : Int → Prop
  | behind : Leads s0 slen slen
  | ends (s : Int) (inside : 0 ≤ s ∧ s < slen)
      (last : schar (s0 s) = 0 ∨ 0x40 ≤ schar (s0 s) ∨ slen < s + schar (s0 s) + 1) :
      Leads s0 slen s
  | step (s : Int) (inside : 0 ≤ s ∧ s < slen) (next : Leads s0 slen (s + schar (s0 s) + 1)) :
      Leads s0 slen s

variable {s0 : Memory} {slen : Nat} {b : List UInt8}

theorem seen_inside {s n : Int} (name : AtLabel b n) (inside : 0 ≤ s ∧ s < slen) (long : Prop)
    [Decidable long] : ∀ a ∈ (Access.subject s :: if long then [] else [.nodename n]),
      a.inside slen b.length := by
  intro a member
  rcases List.mem_cons.mp member with rfl | more
  · exact inside
  · split_ifs at more
    · exact absurd more List.not_mem_nil
    · rw [List.mem_singleton.mp more]
      exact ⟨name.spec.1, name.spec.2.1⟩

theorem compareTrace_ends {s n : Int} (name : AtLabel b n) (inside : 0 ≤ s ∧ s < slen)
    (last : schar (s0 s) = 0 ∨ 0x40 ≤ schar (s0 s) ∨ slen < s + schar (s0 s) + 1)
    (done : Bool) (retcode : Int) : ∃ r seen, (∀ a ∈ seen, a.inside slen b.length) ∧
      ∀ fuel, compareTrace s0 slen (memoryOf b) b.length (fuel + 1) s n done retcode =
        (some r, seen) := by
  obtain ⟨-, high, -, small, room, -, -⟩ := name.spec
  have seen := seen_inside name inside (0x40 ≤ schar (s0 s))
  by_cases long : 0x40 ≤ schar (s0 s)
  · refine ⟨-1, _, seen, fun fuel => ?_⟩
    rw [compareTrace, if_pos ⟨inside.2, high⟩]
    exact if_pos (.inl long)
  by_cases beyond : slen < s + schar (s0 s) + 1
  · refine ⟨-1, _, seen, fun fuel => ?_⟩
    rw [compareTrace, if_pos ⟨inside.2, high⟩]
    simp only
    rw [if_neg (by omega), if_pos (.inl beyond)]
  have zero : schar (s0 s) = 0 := by omega
  by_cases whole : s = slen - 1 ∨ s + 1 = slen - 1
  · refine ⟨retcode, _, seen, fun fuel => ?_⟩
    rw [compareTrace, if_pos ⟨inside.2, high⟩]
    simp only
    rw [if_neg (by omega), if_neg (by omega), if_pos zero]
    rcases whole with here | next
    · rw [if_pos here]
    · rw [if_neg (by omega), if_pos next]
  · refine ⟨-1, _, seen, fun fuel => ?_⟩
    rw [compareTrace, if_pos ⟨inside.2, high⟩]
    simp only
    rw [if_neg (by omega), if_neg (by omega), if_pos zero, if_neg (by omega), if_neg (by omega)]

/-- A round that has read `seen` and goes on behind the label of the subject. -/
def GoesOn (s0 : Memory) (slen : Nat) (b : List UInt8) (s n : Int) (done : Bool) (retcode : Int)
    (n' : Int) (done' : Bool) (retcode' : Int) (seen : List Access) : Prop :=
  ∀ fuel, compareTrace s0 slen (memoryOf b) b.length (fuel + 1) s n done retcode =
    let run := compareTrace s0 slen (memoryOf b) b.length fuel (s + schar (s0 s) + 1) n' done'
      retcode'
    (run.1, seen ++ run.2)

theorem compareTrace_step {s n : Int} (name : AtLabel b n) (inside : 0 ≤ s ∧ s < slen)
    (more : ¬ (schar (s0 s) = 0 ∨ 0x40 ≤ schar (s0 s) ∨ slen < s + schar (s0 s) + 1))
    (done : Bool) (retcode : Int) : ∃ n' done' retcode' seen, AtLabel b n' ∧
      (∀ a ∈ seen, a.inside slen b.length) ∧
      GoesOn s0 slen b s n done retcode n' done' retcode' seen := by
  obtain ⟨low, high, nonneg, small, room, ending, next⟩ := name.spec
  have here : s < slen ∧ n < b.length := ⟨inside.2, high⟩
  have zero : schar (s0 s) ≠ 0 := fun h => more (.inl h)
  have long : ¬ (0x40 ≤ schar (s0 s) ∨ 0x40 ≤ schar (memoryOf b n)) := by omega
  have beyond : ¬ ((slen : Int) < s + schar (s0 s) + 1 ∨
      (b.length : Int) < n + schar (memoryOf b n) + 1) := by omega
  have seen : ∀ a ∈ (Access.subject s ::
      if 0x40 ≤ schar (s0 s) then [] else [.nodename n]) ++ [], a.inside slen b.length := by
    rw [List.append_nil]
    exact seen_inside name inside _
  by_cases frozen : done = true
  · refine ⟨n, true, retcode, _, name, seen, fun fuel => ?_⟩
    rw [compareTrace, if_pos here]
    simp only
    rw [if_neg long, if_neg beyond, if_neg zero, if_pos frozen]
  by_cases finished : schar (memoryOf b n) = 0
  · by_cases last : n = b.length - 1
    · refine ⟨n, true, retcode, _, name, seen, fun fuel => ?_⟩
      rw [compareTrace, if_pos here]
      simp only
      rw [if_neg long, if_neg beyond, if_neg zero, if_neg frozen, if_pos finished, if_pos last]
    · have truncated := (ending finished).resolve_left last
      refine ⟨n, true, 1, _, name, seen, fun fuel => ?_⟩
      rw [compareTrace, if_pos here]
      simp only
      rw [if_neg long, if_neg beyond, if_neg zero, if_neg frozen, if_pos finished, if_neg last,
        if_pos truncated]
  by_cases unequal : schar (s0 s) ≠ schar (memoryOf b n)
  · refine ⟨n, true, 1, _, name, seen, fun fuel => ?_⟩
    rw [compareTrace, if_pos here]
    simp only
    rw [if_neg long, if_neg beyond, if_neg zero, if_neg frozen, if_neg finished, if_pos unequal]
  -- labels of one length, which `memcmp` reads as a whole
  have same := not_not.mp unequal
  have both : ∀ a ∈ (Access.subject s :: if 0x40 ≤ schar (s0 s) then [] else [.nodename n]) ++
      compared (s + 1) (n + 1) (schar (s0 s)).toNat, a.inside slen b.length := by
    intro a member
    rcases List.mem_append.mp member with first | text
    · exact seen_inside name inside _ a first
    · exact compared_inside ⟨by omega, by omega⟩ ⟨by omega, by omega⟩ a text
  by_cases equal : ((List.range (schar (s0 s)).toNat).all fun k : Nat =>
      s0 (s + 1 + k) == memoryOf b (n + 1 + k)) = true
  · refine ⟨n + schar (memoryOf b n) + 1, false, retcode, _, next (by omega), both,
      fun fuel => ?_⟩
    rw [compareTrace, if_pos here]
    simp only
    rw [if_neg long, if_neg beyond, if_neg zero, if_neg frozen, if_neg finished, if_neg unequal,
      if_neg (by omega), if_pos equal]
  · refine ⟨n, true, 1, _, name, both, fun fuel => ?_⟩
    rw [compareTrace, if_pos here]
    simp only
    rw [if_neg long, if_neg beyond, if_neg zero, if_neg frozen, if_neg finished, if_neg unequal,
      if_neg (by omega), if_neg equal]

theorem compareTrace_behind {s n : Int} (behind : slen ≤ s) (done : Bool) (retcode : Int)
    (fuel : Nat) : compareTrace s0 slen (memoryOf b) b.length (fuel + 1) s n done retcode =
      (some retcode, []) := by
  rw [compareTrace, if_neg (by omega)]

/-- A subject whose lengths lead to an end is compared in finitely many rounds, and inside the
names. -/
theorem safe_of_leads {s : Int} (leads : Leads s0 slen s) {n : Int} (name : AtLabel b n)
    (done : Bool) (retcode : Int) :
    (∃ fuel r, (compareTrace s0 slen (memoryOf b) b.length fuel s n done retcode).1 = some r) ∧
      ∀ fuel, ∀ a ∈ (compareTrace s0 slen (memoryOf b) b.length fuel s n done retcode).2,
        a.inside slen b.length := by
  induction leads generalizing n done retcode with
  | behind =>
      have run := @compareTrace_behind s0 slen b slen n (Int.le_refl slen) done retcode
      refine ⟨⟨1, retcode, by rw [run]⟩, fun fuel a member => ?_⟩
      cases fuel with
      | zero => exact absurd member List.not_mem_nil
      | succ fuel =>
          rw [run] at member
          exact absurd member List.not_mem_nil
  | ends s inside last =>
      obtain ⟨r, seen, all, run⟩ := compareTrace_ends name inside last done retcode
      refine ⟨⟨1, r, by rw [run]⟩, fun fuel a member => ?_⟩
      cases fuel with
      | zero => exact absurd member List.not_mem_nil
      | succ fuel =>
          rw [run] at member
          exact all a member
  | step s inside next ih =>
      by_cases last : schar (s0 s) = 0 ∨ 0x40 ≤ schar (s0 s) ∨ slen < s + schar (s0 s) + 1
      · obtain ⟨r, seen, all, run⟩ := compareTrace_ends name inside last done retcode
        refine ⟨⟨1, r, by rw [run]⟩, fun fuel a member => ?_⟩
        cases fuel with
        | zero => exact absurd member List.not_mem_nil
        | succ fuel =>
            rw [run] at member
            exact all a member
      · obtain ⟨n', done', retcode', seen, name', all, run⟩ :=
          compareTrace_step name inside last done retcode
        obtain ⟨⟨fuel, r, answer⟩, later⟩ := ih name' done' retcode'
        refine ⟨⟨fuel + 1, r, by rw [run fuel]; exact answer⟩, fun fuel a member => ?_⟩
        cases fuel with
        | zero => exact absurd member List.not_mem_nil
        | succ fuel =>
            rw [run fuel] at member
            exact (List.mem_append.mp member).elim (all a) (later fuel a)

theorem mem_ite {c : Prop} [Decidable c] {a : Access} {x y : Option Int × List Access}
    (yes : a ∈ x.2) (no : a ∈ y.2) : a ∈ (if c then x else y).2 := by
  by_cases h : c
  · rwa [if_pos h]
  · rwa [if_neg h]

theorem subject_read {n0 : Memory} {nlen : Nat} {s n : Int} (here : s < slen ∧ n < nlen)
    (done : Bool) (retcode : Int) (fuel : Nat) :
    Access.subject s ∈ (compareTrace s0 slen n0 nlen (fuel + 1) s n done retcode).2 := by
  rw [compareTrace, if_pos here]
  extract_lets ls ln seen on
  have first : Access.subject s ∈ seen := List.mem_cons_self ..
  have goesOn (n : Int) (done : Bool) (retcode : Int) (more : List Access) :
      Access.subject s ∈ (on n done retcode more).2 :=
    List.mem_append_left _ (List.mem_append_left _ first)
  clear_value on seen
  refine mem_ite first (mem_ite first (mem_ite ?_ (mem_ite (goesOn ..) (mem_ite ?_ ?_))))
  · exact mem_ite first (mem_ite first first)
  · exact mem_ite (goesOn ..) (mem_ite (goesOn ..) first)
  · exact mem_ite (goesOn ..) (mem_ite (List.mem_append_left _ first)
      (mem_ite (goesOn ..) (goesOn ..)))

theorem leads_of_safe {fuel : Nat} {s n r : Int} {done : Bool} {retcode : Int}
    (name : AtLabel b n) (low : s ≤ slen)
    (answer : (compareTrace s0 slen (memoryOf b) b.length fuel s n done retcode).1 = some r)
    (all : ∀ a ∈ (compareTrace s0 slen (memoryOf b) b.length fuel s n done retcode).2,
      a.inside slen b.length) : Leads s0 slen s := by
  induction fuel generalizing s n done retcode with
  | zero => cases answer
  | succ fuel ih =>
      by_cases behind : slen ≤ s
      · obtain rfl : s = slen := by omega
        exact .behind
      have inside : 0 ≤ s ∧ s < slen := by
        exact all (.subject s) (subject_read ⟨by omega, name.spec.2.1⟩ done retcode fuel)
      by_cases last : schar (s0 s) = 0 ∨ 0x40 ≤ schar (s0 s) ∨ slen < s + schar (s0 s) + 1
      · exact .ends s inside last
      · obtain ⟨n', done', retcode', seen, name', -, run⟩ :=
          compareTrace_step name inside last done retcode
        rw [run fuel] at answer all
        exact .step s inside (ih name' (by omega) answer fun a member =>
          all a (List.mem_append_right _ member))

end Reads

section Safe

/-- The comparison comes to an end, and reads nothing but the two names. -/
def ComparesSafely (s : Memory) (slen : Nat) (b : List UInt8) : Prop :=
  (∃ fuel r, (compareRun fuel s slen (memoryOf b) b.length).1 = some r) ∧
    ∀ fuel, ∀ a ∈ (compareRun fuel s slen (memoryOf b) b.length).2, a.inside slen b.length

variable {name b : List UInt8} {buflen : Nat} {fqdn : Int}

theorem encodeDnsname_wire (made : encodeDnsname name buflen fqdn = some b) :
    b = [] ∨ ∃ ls dot, ls ≠ [] ∧ Short ls ∧ b = wire ls ++ terminator dot := by
  rw [encodeDnsname] at made
  split_ifs at made with empty bad
  · exact .inl (Option.some.inj made).symm
  · right
    cases labels : encodeLabels fqdn (name.splitOn DOT) with
    | none =>
        rw [labels] at made
        cases made
    | some found =>
        obtain ⟨body, fqdn'⟩ := found
        rw [labels] at made
        obtain ⟨ls, all, rfl, ends⟩ := encodeLabels_spec labels
        have short : Short (ls.map (List.map lowered)) := by
          intro l member
          obtain ⟨l, given, rfl⟩ := List.mem_map.mp member
          exact ⟨by simpa using (all l given).nonempty, by
            rw [List.length_map]
            exact (all l given).short⟩
        have more : ls ≠ [] := by
          rintro rfl
          rcases ends with ⟨split, -⟩ | ⟨split, -⟩
          · exact List.splitOn_ne_nil DOT name split
          · have joined := @List.intercalate_splitOn _ name _ _ DOT
            rw [split] at joined
            exact empty (by simp [← joined])
        simp only at made
        split_ifs at made with full dot dot
        · exact ⟨_, true, by simpa using more, short, by
            rw [← Option.some.inj made, List.append_nil]; rfl⟩
        · exact ⟨_, false, by simpa using more, short, by
            rw [← Option.some.inj made, List.append_assoc]; rfl⟩

theorem memoryOf_last {ls : List (List UInt8)} (dot : Bool) :
    memoryOf (wire ls ++ terminator dot) ((wire ls ++ terminator dot).length - 1) = 0 := by
  cases dot with
  | true =>
      have at_ := memoryOf_append (wire ls) [0] 0
      simpa [terminator] using at_
  | false =>
      have at_ := memoryOf_append (wire ls) [0, 0] 1
      have index : (((wire ls ++ [0, 0]).length : Nat) : Int) - 1 =
          (wire ls).length + (1 : Nat) := by
        simp only [List.length_append, List.length_cons, List.length_nil]
        omega
      rw [terminator, if_neg Bool.false_ne_true, index, at_]
      rfl

theorem simple_case (s : Memory) (slen : Nat) (b : List UInt8) :
    (slen = b.length ∧ (List.range slen).all (fun k : Nat => s k == memoryOf b k) = true) ↔
      (List.range slen).map (fun k : Nat => s k) = b := by
  have byte (k : Nat) (inside : k < b.length) : memoryOf b k = b[k] := by
    rw [memoryOf, if_neg (by omega), Int.toNat_natCast, List.getD_eq_getElem?_getD,
      List.getElem?_eq_getElem inside, Option.getD_some]
  constructor
  · rintro ⟨rfl, all⟩
    refine List.ext_getElem (by simp) fun k inside _ => ?_
    rw [List.length_map, List.length_range] at inside
    have same := List.all_eq_true.mp all k (List.mem_range.mpr inside)
    rw [List.getElem_map, List.getElem_range, beq_iff_eq.mp same, byte k inside]
  · rintro rfl
    rw [List.length_map, List.length_range]
    refine ⟨rfl, List.all_eq_true.mpr fun k inside => ?_⟩
    rw [List.mem_range] at inside
    rw [beq_iff_eq, byte k (by simpa using inside), List.getElem_map, List.getElem_range]

/-! The reads before the loop, and what the tests before it come to. -/

section Tests

variable {s n : Memory} {slen nlen : Nat} (one : 1 ≤ slen) (size : 1 ≤ nlen)

/-- The first `memcmp`, and the last bytes. -/
def simpleReads (slen nlen : Nat) : List Access := if slen = nlen then compared 0 0 slen else []

def endReads (s : Memory) (slen nlen : Nat) : List Access :=
  simpleReads slen nlen ++ .subject (slen - 1) ::
    if s (slen - 1) ≠ 0 then [] else [.nodename (nlen - 1)]

theorem simple_inside : ∀ a ∈ simpleReads slen nlen, a.inside slen nlen := by
  unfold simpleReads
  split_ifs with same
  · exact compared_inside ⟨Int.le_refl 0, Int.le_refl 0⟩ ⟨by omega, by omega⟩
  · exact fun a member => absurd member List.not_mem_nil

include one

theorem compareRun_equal (fuel : Nat)
    (test : slen = nlen ∧ (List.range slen).all (fun k : Nat => s k == n k) = true) :
    compareRun fuel s slen n nlen = (some 0, simpleReads slen nlen) := by
  rw [compareRun, if_neg (by omega)]
  simp only
  rw [if_pos test]
  rfl

include size

theorem ends_inside (s : Memory) : ∀ a ∈ endReads s slen nlen, a.inside slen nlen := by
  intro a member
  rcases List.mem_append.mp member with first | more
  · exact simple_inside a first
  · rcases List.mem_cons.mp more with rfl | other
    · exact ⟨by omega, by omega⟩
    · split_ifs at other
      · exact absurd other List.not_mem_nil
      · rw [List.mem_singleton.mp other]
        exact ⟨by omega, by omega⟩

theorem compareRun_open (fuel : Nat)
    (test : ¬ (slen = nlen ∧ (List.range slen).all (fun k : Nat => s k == n k) = true))
    (last : s (slen - 1) ≠ 0) :
    compareRun fuel s slen n nlen = (some (-1), endReads s slen nlen) := by
  rw [compareRun, if_neg (by omega)]
  simp only
  rw [if_neg test, if_pos (.inl last)]
  rfl

theorem compareRun_closed (fuel : Nat)
    (test : ¬ (slen = nlen ∧ (List.range slen).all (fun k : Nat => s k == n k) = true))
    (last : s (slen - 1) = 0) (last' : n (nlen - 1) = 0) :
    compareRun fuel s slen n nlen =
      ((compareTrace s slen n nlen fuel 0 0 false 0).1,
        endReads s slen nlen ++ (compareTrace s slen n nlen fuel 0 0 false 0).2) := by
  rw [compareRun, if_neg (by omega)]
  simp only
  rw [if_neg test, if_neg (not_or.mpr ⟨not_not.mpr last, not_not.mpr last'⟩)]
  rfl

end Tests

/-- The comparison of a subject is safe when the subject is the node name, when it does not
end in a zero, and when the lengths in it lead to an end; for no other subject. -/
theorem comparesSafely_iff (made : encodeDnsname name buflen fqdn = some b) (s : Memory)
    (slen : Nat) (one : 1 ≤ slen) : ComparesSafely s slen b ↔
      b = [] ∨ (List.range slen).map (fun k : Nat => s k) = b ∨ s (slen - 1) ≠ 0 ∨
        Leads s slen 0 := by
  rcases encodeDnsname_wire made with rfl | ⟨ls, dot, some, short, text⟩
  · refine ⟨fun _ => .inl rfl, fun _ => ⟨⟨0, -1, ?_⟩, fun fuel a member => ?_⟩⟩
    · rw [compareRun, if_pos (.inr Nat.zero_lt_one)]
    · rw [compareRun, if_pos (.inr Nat.zero_lt_one)] at member
      exact absurd member List.not_mem_nil
  have start : AtLabel b 0 := ⟨[], ls, dot, text, short, rfl⟩
  have size : 1 ≤ b.length := by have bound := start.spec; omega
  have last : memoryOf b (b.length - 1) = 0 := by rw [text]; exact memoryOf_last dot
  have some : b ≠ [] := List.ne_nil_of_length_pos size
  by_cases equal : (List.range slen).map (fun k : Nat => s k) = b
  · have run (fuel : Nat) := compareRun_equal one fuel ((simple_case s slen b).mpr equal)
    refine ⟨fun _ => .inr (.inl equal), fun _ => ⟨⟨0, 0, by rw [run]⟩, fun fuel a member => ?_⟩⟩
    rw [run] at member
    exact simple_inside a member
  have test : ¬ (slen = b.length ∧
      (List.range slen).all (fun k : Nat => s k == memoryOf b k) = true) :=
    fun h => equal ((simple_case s slen b).mp h)
  by_cases open_ : s (slen - 1) ≠ 0
  · have run (fuel : Nat) := compareRun_open one size fuel test open_
    refine ⟨fun _ => .inr (.inr (.inl open_)), fun _ => ⟨⟨0, -1, by rw [run]⟩,
      fun fuel a member => ?_⟩⟩
    rw [run] at member
    exact ends_inside one size s a member
  have run (fuel : Nat) := compareRun_closed one size fuel test (not_not.mp open_) last
  constructor
  · rintro ⟨⟨fuel, r, answer⟩, all⟩
    have reads := all fuel
    rw [run fuel] at answer reads
    exact .inr (.inr (.inr (leads_of_safe start (by omega) answer fun a member =>
      reads a (List.mem_append_right _ member))))
  · rintro (empty | same | unterminated | leads)
    · exact absurd empty some
    · exact absurd same equal
    · exact absurd unterminated open_
    · obtain ⟨⟨fuel, r, answer⟩, all⟩ := safe_of_leads leads start false 0
      refine ⟨⟨fuel, r, by rw [run fuel]; exact answer⟩, fun fuel a member => ?_⟩
      rw [run fuel] at member
      exact (List.mem_append.mp member).elim (ends_inside one size s a) (all fuel a)

theorem comparesSafely_one : ComparesSafely (memoryOf [1, 0x62, 0]) 3 [1, 0x61, 0, 0] :=
  have made : encodeDnsname [0x61] 255 0 = some [1, 0x61, 0, 0] := by decide
  (comparesSafely_iff made (memoryOf [1, 0x62, 0]) 3 (by decide)).mpr
    (.inr (.inr (.inr (.step 0 (by decide) (.ends 2 (by decide) (by decide))))))

/-- A first byte that is -1 as a signed length keeps the comparison where it is. -/
theorem compareDnsname_forever : encodeDnsname [0x61] 255 0 = some [1, 0x61, 0, 0] ∧
    ¬ ComparesSafely (memoryOf [0xff, 0]) 2 [1, 0x61, 0, 0] := by
  refine ⟨by decide, fun safe => ?_⟩
  have stays (fuel : Nat) :
      (compareTrace (memoryOf [0xff, 0]) 2 (memoryOf [1, 0x61, 0, 0]) 4 fuel 0 0 true 1).1 =
        none := by
    induction fuel with
    | zero => rfl
    | succ fuel ih => exact ih
  obtain ⟨⟨fuel, r, answer⟩, -⟩ := safe
  have run : (compareRun fuel (memoryOf [0xff, 0]) 2 (memoryOf [1, 0x61, 0, 0]) 4).1 = none := by
    cases fuel with
    | zero => rfl
    | succ fuel => exact stays fuel
  exact absurd (run.symm.trans answer) (by simp)

end Safe

section Decides

variable {ls ln : List (List UInt8)} {sdot ndot : Bool}

theorem compareLoop_round {s0 : Memory} {slen len : Nat} {b : List UInt8} {s n : Int}
    (hs : schar (s0 s) = len) (positive : 0 < len) (short : len < 0x40)
    (room : s + len + 1 ≤ slen) (name : AtLabel b n) (done : Bool) (retcode : Int) (fuel : Nat) :
    compareLoop s0 slen (memoryOf b) b.length (fuel + 1) s n done retcode =
      let on := compareLoop s0 slen (memoryOf b) b.length fuel (s + len + 1)
      if done then on n true retcode
      else if schar (memoryOf b n) = 0 then on n true (if n = b.length - 1 then retcode else 1)
      else if schar (memoryOf b n) ≠ len then on n true 1
      else if (List.range len).all fun k : Nat => s0 (s + 1 + k) == memoryOf b (n + 1 + k) then
        on (n + len + 1) false retcode
      else on n true 1 := by
  obtain ⟨low, high, nonneg, small, inside, ending, -⟩ := name.spec
  rw [compareLoop, compareTrace, hs]
  simp only [apply_ite Prod.fst]
  rw [if_pos ⟨by omega, high⟩, if_neg (by omega), if_neg (by omega), if_neg (by omega)]
  by_cases frozen : done = true
  · rw [if_pos frozen, if_pos frozen]
  rw [if_neg frozen, if_neg frozen]
  by_cases zero : schar (memoryOf b n) = 0
  · rw [if_pos zero, if_pos zero]
    by_cases last : n = b.length - 1
    · rw [if_pos last, if_pos last]
    · rw [if_neg last, if_pos ((ending zero).resolve_left last), if_neg last]
  rw [if_neg zero, if_neg zero]
  by_cases other : schar (memoryOf b n) ≠ len
  · rw [if_pos other.symm, if_pos other]
  · have same := not_not.mp other
    rw [same, if_neg (not_not.mpr rfl), if_neg (not_not.mpr rfl), if_neg (by omega),
      Int.toNat_natCast]

theorem compareLoop_terminator (pre : List UInt8) {b : List UInt8} {n : Int} (name : AtLabel b n)
    (done : Bool) (retcode : Int) (fuel : Nat) :
    compareLoop (memoryOf (pre ++ terminator sdot)) (pre ++ terminator sdot).length (memoryOf b)
      b.length (fuel + 1) pre.length n done retcode = some retcode := by
  obtain ⟨low, high, nonneg, small, inside, -, -⟩ := name.spec
  have size : (terminator sdot).length = 1 ∨ (terminator sdot).length = 2 := by
    cases sdot
    · exact .inr rfl
    · exact .inl rfl
  rw [compareLoop, compareTrace, read_terminator, schar_zero]
  simp only [apply_ite Prod.fst, List.length_append, Int.natCast_add]
  rw [if_pos ⟨by omega, high⟩, if_neg (by omega), if_neg (by omega), if_pos trivial]
  split_ifs with last truncated
  · rfl
  · rfl
  · omega

theorem read_front (pre l : List UInt8) (ls : List (List UInt8)) (t : List UInt8)
    (short : l.length < 0x40) :
    schar (memoryOf (pre ++ (wire (l :: ls) ++ t)) pre.length) = l.length ∧
      (pre.length : Int) + l.length + 1 ≤ (pre ++ (wire (l :: ls) ++ t)).length ∧
      ∀ k : Nat, k < l.length →
        memoryOf (pre ++ (wire (l :: ls) ++ t)) ((pre.length : Int) + 1 + k) = l.getD k 0 := by
  refine ⟨?_, ?_, fun k inside => ?_⟩
  · rw [memoryOf_boundary]
    exact schar_ofNat short
  · simp only [wire_cons, List.length_append, List.length_cons]
    omega
  · have index : (pre.length : Int) + 1 + k = pre.length + ((k + 1 : Nat) : Int) := by omega
    rw [index, memoryOf_append]
    simp [List.getElem?_append_left inside]

theorem behind_label (pre l : List UInt8) (ls : List (List UInt8)) (t : List UInt8) :
    pre ++ (wire (l :: ls) ++ t) = (pre ++ wire [l]) ++ (wire ls ++ t) ∧
      ((pre ++ wire [l]).length : Int) = pre.length + l.length + 1 := by
  refine ⟨by simp, ?_⟩
  simp only [wire_cons, wire_nil, List.length_append, List.length_cons, List.length_nil]
  omega

theorem compareLoop_frozen (short : Short ls) (pre : List UInt8) {b : List UInt8} {n : Int}
    (name : AtLabel b n) (retcode : Int) (fuel : Nat) (enough : ls.length < fuel) :
    compareLoop (memoryOf (pre ++ (wire ls ++ terminator sdot)))
      (pre ++ (wire ls ++ terminator sdot)).length (memoryOf b) b.length fuel pre.length n true
      retcode = some retcode := by
  obtain ⟨fuel, rfl⟩ : ∃ k, fuel = k + 1 := ⟨fuel - 1, by omega⟩
  induction ls generalizing pre fuel with
  | nil => exact compareLoop_terminator pre name true retcode fuel
  | cons l ls ih =>
      obtain ⟨nonempty, fits⟩ := short l (List.mem_cons_self ..)
      obtain ⟨len, room, -⟩ := read_front pre l ls (terminator sdot) fits
      obtain ⟨text, place⟩ := behind_label pre l ls (terminator sdot)
      rw [List.length_cons] at enough
      obtain ⟨fuel, rfl⟩ : ∃ k, fuel = k + 1 := ⟨fuel - 1, by omega⟩
      rw [compareLoop_round len (List.length_pos_of_ne_nil nonempty) fits room name]
      simp only [if_true]
      rw [text, ← place]
      exact ih (fun l member => short l (List.mem_cons_of_mem _ member)) _ fuel (by omega)

theorem all_bytes_iff {l m : List UInt8} {first second : Memory} {p : Int}
    (size : m.length = l.length)
    (bytes : ∀ k : Nat, k < l.length → first (p + 1 + k) = l.getD k 0)
    (bytes' : ∀ k : Nat, k < m.length → second (p + 1 + k) = m.getD k 0) :
    ((List.range l.length).all fun k : Nat => first (p + 1 + k) == second (p + 1 + k)) = true ↔
      l = m := by
  rw [List.all_eq_true]
  constructor
  · intro all
    refine List.ext_getElem size.symm fun k inside inside' => ?_
    have same := all k (List.mem_range.mpr inside)
    rw [bytes k inside, bytes' k inside', beq_iff_eq, List.getD_eq_getElem?_getD,
      List.getD_eq_getElem?_getD, List.getElem?_eq_getElem inside,
      List.getElem?_eq_getElem inside'] at same
    exact same
  · rintro rfl k member
    rw [bytes k (List.mem_range.mp member), bytes' k (List.mem_range.mp member), beq_self_eq_true]

theorem compareLoop_names (shortS : Short ls) (shortN : Short ln) (pre : List UInt8) (fuel : Nat)
    (enough : ls.length < fuel) : ∃ r,
    compareLoop (memoryOf (pre ++ (wire ls ++ terminator sdot)))
      (pre ++ (wire ls ++ terminator sdot)).length (memoryOf (pre ++ (wire ln ++ terminator ndot)))
      (pre ++ (wire ln ++ terminator ndot)).length fuel pre.length pre.length false 0 = some r ∧
    (r = 0 ↔ ls <+: ln ∨ ndot = true ∧ ln <+: ls) := by
  obtain ⟨fuel, rfl⟩ : ∃ k, fuel = k + 1 := ⟨fuel - 1, by omega⟩
  induction ls generalizing pre fuel ln with
  | nil =>
      exact ⟨0, compareLoop_terminator pre ⟨pre, ln, ndot, rfl, shortN, rfl⟩ false 0 fuel,
        iff_of_true rfl (.inl List.nil_prefix)⟩
  | cons l ls ih =>
      obtain ⟨nonempty, fits⟩ := shortS l (List.mem_cons_self ..)
      obtain ⟨len, room, bytes⟩ := read_front pre l ls (terminator sdot) fits
      obtain ⟨text, place⟩ := behind_label pre l ls (terminator sdot)
      have rest : Short ls := fun l member => shortS l (List.mem_cons_of_mem _ member)
      have name : AtLabel (pre ++ (wire ln ++ terminator ndot)) pre.length :=
        ⟨pre, ln, ndot, rfl, shortN, rfl⟩
      rw [List.length_cons] at enough
      obtain ⟨fuel, rfl⟩ : ∃ k, fuel = k + 1 := ⟨fuel - 1, by omega⟩
      have frozen (retcode : Int) : compareLoop (memoryOf (pre ++ (wire (l :: ls) ++
          terminator sdot))) (pre ++ (wire (l :: ls) ++ terminator sdot)).length
          (memoryOf (pre ++ (wire ln ++ terminator ndot)))
          (pre ++ (wire ln ++ terminator ndot)).length (fuel + 1) (pre.length + l.length + 1)
          pre.length true retcode = some retcode := by
        rw [text, ← place]
        exact compareLoop_frozen rest _ name retcode (fuel + 1) (by omega)
      rw [compareLoop_round len (List.length_pos_of_ne_nil nonempty) fits room name]
      simp only [Bool.false_eq_true, if_false, frozen]
      cases ln with
      | nil =>
          -- the labels of the node name are at their end
          have zero : schar (memoryOf (pre ++ (wire [] ++ terminator ndot)) pre.length) = 0 := by
            rw [wire_nil, List.nil_append, read_terminator, schar_zero]
          rw [if_pos zero]
          refine ⟨_, rfl, ?_⟩
          have place' : ((pre ++ terminator ndot).length : Int) - 1 =
              pre.length + ((terminator ndot).length - 1) := by
            rw [List.length_append]
            omega
          rw [wire_nil, List.nil_append, place']
          cases ndot <;> simp [terminator]
      | cons m ln =>
          obtain ⟨-, fitsN⟩ := shortN m (List.mem_cons_self ..)
          obtain ⟨lenN, roomN, bytesN⟩ := read_front pre m ln (terminator ndot) fitsN
          obtain ⟨textN, placeN⟩ := behind_label pre m ln (terminator ndot)
          have sizeN := List.length_pos_of_ne_nil (shortN m (List.mem_cons_self ..)).1
          rw [lenN, if_neg (by omega)]
          have differ (other : l ≠ m) :
              (1 : Int) = 0 ↔ l :: ls <+: m :: ln ∨ ndot = true ∧ m :: ln <+: l :: ls := by
            simp [List.cons_prefix_cons, other, other.symm]
          by_cases lengths : (m.length : Int) ≠ l.length
          · rw [if_pos lengths]
            exact ⟨1, rfl, differ (by rintro rfl; exact lengths rfl)⟩
          have size : m.length = l.length := by omega
          rw [if_neg lengths]
          have same := all_bytes_iff size bytes bytesN
          by_cases equal : l = m
          · rw [if_pos (same.mpr equal)]
            subst equal
            rw [text, textN, ← place]
            obtain ⟨r, run, iff⟩ := @ih ln rest
              (fun l member => shortN l (List.mem_cons_of_mem _ member)) (pre ++ wire [l]) fuel
              (by omega)
            refine ⟨r, run, iff.trans ?_⟩
            simp [List.cons_prefix_cons]
          · rw [if_neg fun all => equal (same.mp all)]
            exact ⟨1, rfl, differ equal⟩

/-- The answer for two names: zero when the labels of the subject are first labels of the node
name, and when a fully qualified node name has the first labels of the subject. -/
theorem compareDnsname_names (shortS : Short ls) (shortN : Short ln) (fuel : Nat)
    (enough : (wire ls ++ terminator sdot).length ≤ fuel) : ∃ r,
    compareDnsname fuel (memoryOf (wire ls ++ terminator sdot))
      (wire ls ++ terminator sdot).length (memoryOf (wire ln ++ terminator ndot))
      (wire ln ++ terminator ndot).length = some r ∧
    (r = 0 ↔ ls <+: ln ∨ ndot = true ∧ ln <+: ls) := by
  have behind (dot : Bool) : 0 < (terminator dot).length := by cases dot <;> decide
  have sizeS := behind sdot
  have sizeN := behind ndot
  rw [List.length_append] at enough
  have few := length_le_wire ls
  rw [compareDnsname, compareRun, if_neg (by simp only [List.length_append]; omega)]
  by_cases identical : (wire ls ++ terminator sdot).length = (wire ln ++ terminator ndot).length ∧
      (List.range (wire ls ++ terminator sdot).length).all (fun k : Nat =>
        memoryOf (wire ls ++ terminator sdot) k == memoryOf (wire ln ++ terminator ndot) k) = true
  · rw [if_pos identical]
    have self := (simple_case _ _ (wire ls ++ terminator sdot)).mp
      ⟨rfl, List.all_eq_true.mpr fun k _ => beq_self_eq_true _⟩
    have same := self.symm.trans ((simple_case _ _ _).mp identical)
    have many := decodeLabels_wire sdot shortS
      (show ls.length < ls.length + ln.length + 1 by omega)
    have manyN := decodeLabels_wire ndot shortN
      (show ln.length < ls.length + ln.length + 1 by omega)
    rw [same, manyN] at many
    simp only [Option.some.injEq, Prod.mk.injEq] at many
    obtain ⟨rfl, -⟩ := many
    exact ⟨0, rfl, iff_of_true rfl (.inl List.prefix_rfl)⟩
  · rw [if_neg identical, if_neg (not_or.mpr ⟨not_not.mpr (memoryOf_last sdot),
      not_not.mpr (memoryOf_last ndot)⟩)]
    exact compareLoop_names shortS shortN [] fuel (by omega)

/-- A name that `encode_dnsname` has made, and its labels; `dot` for a single zero behind
them. -/
structure Encoded (b : List UInt8) (labels : List (List UInt8)) (dot : Bool) : Prop where
  made : ∃ name buflen fqdn, encodeDnsname name buflen fqdn = some b
  some : b ≠ []
  read : decodeName b = Option.some (labels, dot)

/-- When subject and node name match: the labels are the same, or the subject is truncated and
the node name has more of them. -/
def Matches (ls : List (List UInt8)) (sdot : Bool) (ln : List (List UInt8)) : Prop :=
  ls = ln ∨ sdot = false ∧ ls <+: ln ∧ ls ≠ ln

theorem Encoded.spec {b : List UInt8} (h : Encoded b ls sdot) :
    Short ls ∧ b = wire ls ++ terminator sdot := by
  obtain ⟨name, buflen, fqdn, made⟩ := h.made
  obtain ⟨ls', dot, -, short, text⟩ := (encodeDnsname_wire made).resolve_left h.some
  have enough : ls'.length < (wire ls' ++ terminator dot).length := by
    have bound := length_le_wire ls'
    have behind : 0 < (terminator dot).length := by cases dot <;> decide
    rw [List.length_append]
    omega
  have read := h.read
  rw [decodeName, text, decodeLabels_wire dot short enough] at read
  simp only [Option.some.injEq, Prod.mk.injEq] at read
  obtain ⟨rfl, rfl⟩ := read
  exact ⟨short, text⟩

/-- The comparison decides whether two encoded names match, unless the one with fewer labels is
fully qualified and has the first labels of the other. -/
theorem compareDnsname_decides_iff {s n : List UInt8} (hs : Encoded s ls sdot)
    (hn : Encoded n ln ndot) (fuel : Nat) (enough : s.length ≤ fuel) : ∃ r,
    compareDnsname fuel (memoryOf s) s.length (memoryOf n) n.length = some r ∧
      ((r = 0 ↔ Matches ls sdot ln) ↔
        ¬ (sdot = true ∧ ls <+: ln ∧ ls ≠ ln) ∧ ¬ (ndot = true ∧ ln <+: ls ∧ ls ≠ ln)) := by
  obtain ⟨shortS, rfl⟩ := hs.spec
  obtain ⟨shortN, rfl⟩ := hn.spec
  obtain ⟨r, run, answer⟩ := @compareDnsname_names ls ln sdot ndot shortS shortN fuel enough
  refine ⟨r, run, ?_⟩
  rw [answer, Matches]
  by_cases same : ls = ln
  · subst same
    simp
  by_cases fewer : ls <+: ln
  · have notMore : ¬ ln <+: ls := fun more =>
      same (fewer.eq_of_length (Nat.le_antisymm fewer.length_le more.length_le))
    cases sdot <;> simp [same, fewer, notMore]
  · cases ndot <;> simp [same, fewer]

theorem compareDnsname_decides_truncated : ∃ r,
    compareDnsname 4 (memoryOf [1, 0x61, 0, 0]) 4 (memoryOf [1, 0x61, 1, 0x62, 0, 0]) 6 = some r ∧
      ((r = 0 ↔ Matches [[0x61]] false [[0x61], [0x62]]) ↔
        ¬ (false = true ∧ [[0x61]] <+: [[0x61], [(0x62 : UInt8)]] ∧
          [[0x61]] ≠ [[0x61], [(0x62 : UInt8)]]) ∧
        ¬ (false = true ∧ [[0x61], [0x62]] <+: [[(0x61 : UInt8)]] ∧
          [[0x61]] ≠ [[0x61], [(0x62 : UInt8)]])) :=
  compareDnsname_decides_iff
    ⟨⟨[0x61], 255, 0, by decide⟩, by decide, by decide⟩
    ⟨⟨[0x61, DOT, 0x62], 255, 0, by decide⟩, by decide, by decide⟩ 4 (by decide)

/-- The fully qualified `a.` against the name `a.b`. -/
theorem compareDnsname_short_subject : Encoded [1, 0x61, 0] [[0x61]] true ∧
    Encoded [1, 0x61, 1, 0x62, 0, 0] [[0x61], [0x62]] false ∧
    compareDnsname 3 (memoryOf [1, 0x61, 0]) 3 (memoryOf [1, 0x61, 1, 0x62, 0, 0]) 6 = some 0 ∧
    ¬ Matches [[0x61]] true [[0x61], [0x62]] := by
  refine ⟨⟨⟨[0x61, DOT], 255, 0, by decide⟩, by decide, by decide⟩,
    ⟨⟨[0x61, DOT, 0x62], 255, 0, by decide⟩, by decide, by decide⟩, by decide, ?_⟩
  rintro (same | ⟨no, -⟩)
  · exact absurd same (by decide)
  · cases no

theorem compareDnsname_same {ts tn : List UInt8} (hs : Terminator ts) (hn : Terminator tn)
    (ls : List (List UInt8)) (all : ∀ l ∈ ls, l ≠ [] ∧ l.length < 0x40) (fuel : Nat)
    (enough : (wire ls ++ ts).length ≤ fuel) :
    compareDnsname fuel (memoryOf (wire ls ++ ts)) (wire ls ++ ts).length
      (memoryOf (wire ls ++ tn)) (wire ls ++ tn).length = some 0 := by
  have shape (t : List UInt8) (h : Terminator t) : ∃ dot, t = terminator dot := by
    rcases h with rfl | rfl
    · exact ⟨true, rfl⟩
    · exact ⟨false, rfl⟩
  obtain ⟨sdot, rfl⟩ := shape ts hs
  obtain ⟨ndot, rfl⟩ := shape tn hn
  obtain ⟨r, run, answer⟩ := @compareDnsname_names ls ls sdot ndot all all fuel enough
  rw [run, answer.mpr (.inl List.prefix_rfl)]

end Decides

end Baseliner.Ninfod
