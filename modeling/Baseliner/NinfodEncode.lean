import Baseliner.NinfodName

/-! `encode_dnsname` store by store: the scan of the name with its one index, the bytes that
go to the buffer on the way, and the names that are accepted. -/

namespace Baseliner.Ninfod

abbrev Store := Nat × UInt8

def written (stores : List Store) (buf : Nat → UInt8) : Nat → UInt8 :=
  stores.foldl (fun buf s => Function.update buf s.1 s.2) buf

/-- `strchr`, as an offset. -/
def strchr (c : UInt8) : List UInt8 → Option Nat
  | [] => none
  | x :: rest => if x = c then some 0 else (strchr c rest).map (· + 1)

/-- The loop over the bytes of a label, with `left` of them to go: the stores, and whether
all of them passed. -/
def encodeBytes (name : List UInt8) (i llen : Nat) : Nat → List Store × Bool
  | 0 => ([], true)
  | left + 1 =>
      let ii := llen - (left + 1)
      let c := name.getD (i + ii) 0
      if labelByte llen ii c then
        let rest := encodeBytes name i llen left
        ((i + ii + 1, lowered c) :: rest.1, rest.2)
      else ([], false)

/-- The loop over the labels, for at most `fuel` rounds: the stores, and then `i` and `fqdn`
when it does not return -1. -/
def encodeFrom (name : List UInt8) : Nat → Nat → Int → Option (List Store × Option (Nat × Int))
  | 0, _, _ => none
  | fuel + 1, i, fqdn =>
      if name.length < i then some ([], some (i, fqdn))
      else
        let e := ((strchr DOT (name.drop i)).map (i + ·)).getD name.length
        let llen := e - i
        if llen = 0 then
          if name.getD e 0 ≠ 0 ∨ fqdn < 0 then some ([], none) else some ([], some (i, 1))
        else if 0x40 ≤ llen then some ([], none)
        else
          let bytes := encodeBytes name i llen llen
          if bytes.2 then
            (encodeFrom name fuel (i + (llen + 1)) fqdn).map fun next =>
              ((i, UInt8.ofNat llen) :: bytes.1 ++ next.1, next.2)
          else some ((i, UInt8.ofNat llen) :: bytes.1, none)

/-- `encode_dnsname` with its stores. -/
def encodeRun (name : List UInt8) (buflen : Nat) (fqdn : Int) : Option (List Store × Int) :=
  if name.length = 0 then some ([], 0)
  else if 255 < name.length ∨ buflen < name.length + 1 then some ([], -1)
  else match encodeFrom name (name.length + 2) 0 fqdn with
    | none => none
    | some (stores, none) => some (stores, -1)
    | some (stores, some (i, fqdn)) =>
        if buflen < i + 1 + (if 0 < fqdn then 0 else 1) then some (stores, -1)
        else if 0 < fqdn then some (stores ++ [(i, 0)], i + 1)
        else some (stores ++ [(i, 0), (i + 1, 0)], i + 2)

section Stores

def placed : Nat → List UInt8 → List Store
  | _, [] => []
  | i, c :: b => (i, c) :: placed (i + 1) b

@[simp] theorem placed_nil (i : Nat) : placed i [] = [] := rfl

@[simp] theorem placed_cons (i : Nat) (c : UInt8) (b : List UInt8) :
    placed i (c :: b) = (i, c) :: placed (i + 1) b := rfl

theorem placed_append (i : Nat) (a b : List UInt8) :
    placed i (a ++ b) = placed i a ++ placed (i + a.length) b := by
  induction a generalizing i with
  | nil => rfl
  | cons c a ih =>
      rw [List.cons_append, placed_cons, placed_cons, ih, List.length_cons, List.cons_append,
        Nat.add_right_comm, Nat.add_assoc]

theorem placed_bounds {i : Nat} {b : List UInt8} {s : Store} (h : s ∈ placed i b) :
    i ≤ s.1 ∧ s.1 < i + b.length := by
  induction b generalizing i with
  | nil => exact absurd h List.not_mem_nil
  | cons c b ih =>
      rw [List.length_cons]
      rcases List.mem_cons.mp h with rfl | later
      · exact ⟨Nat.le_refl i, by omega⟩
      · have bounds := ih later
        omega

theorem written_of_outside {stores : List Store} {i : Nat} (buf : Nat → UInt8)
    (h : ∀ s ∈ stores, s.1 ≠ i) : written stores buf i = buf i := by
  induction stores generalizing buf with
  | nil => rfl
  | cons s stores ih =>
      rw [written, List.foldl_cons, ← written, ih _ fun t ht => h t (List.mem_cons_of_mem s ht),
        Function.update_of_ne (h s (List.mem_cons_self ..)).symm]

theorem written_placed (i : Nat) (b : List UInt8) (buf : Nat → UInt8) :
    (List.range' i b.length).map (written (placed i b) buf) = b := by
  induction b generalizing i buf with
  | nil => rfl
  | cons c b ih =>
      have first : written (placed (i + 1) b) (Function.update buf i c) i = c := by
        rw [written_of_outside _ fun s hs => by have bounds := placed_bounds hs; omega,
          Function.update_self]
      rw [List.length_cons, List.range'_succ, List.map_cons, placed_cons, written, List.foldl_cons,
        ← written, first, ih]

end Stores

section Scan

theorem strchr_cases (c : UInt8) (l : List UInt8) :
    (c ∉ l ∧ strchr c l = none) ∨
      ∃ front back, l = front ++ c :: back ∧ c ∉ front ∧ strchr c l = some front.length := by
  induction l with
  | nil => exact .inl ⟨List.not_mem_nil, rfl⟩
  | cons x rest ih =>
      by_cases here : x = c
      · exact .inr ⟨[], rest, by rw [here, List.nil_append], List.not_mem_nil,
          by rw [strchr, if_pos here, List.length_nil]⟩
      · rw [strchr, if_neg here]
        rcases ih with ⟨absent, none⟩ | ⟨front, back, split, absent, found⟩
        · refine .inl ⟨?_, by rw [none, Option.map_none]⟩
          simpa [Ne.symm here] using absent
        · refine .inr ⟨x :: front, back, by rw [split, List.cons_append], ?_,
            by rw [found, Option.map_some, List.length_cons]⟩
          simpa [Ne.symm here] using absent

theorem encodeBytes_spec (pre label rest : List UInt8) (done left : Nat)
    (size : done + left = label.length) :
    (((label.drop done).zipIdx done).all (fun (c, ii) => labelByte label.length ii c) = true ∧
      encodeBytes (pre ++ (label ++ rest)) pre.length label.length left =
        (placed (pre.length + done + 1) ((label.drop done).map lowered), true)) ∨
    (((label.drop done).zipIdx done).all (fun (c, ii) => labelByte label.length ii c) = false ∧
      (encodeBytes (pre ++ (label ++ rest)) pre.length label.length left).2 = false ∧
      ∀ s ∈ (encodeBytes (pre ++ (label ++ rest)) pre.length label.length left).1,
        s.1 ≤ pre.length + label.length) := by
  induction left generalizing done with
  | zero =>
      have finished : label.drop done = [] := List.drop_eq_nil_of_le (by omega)
      exact .inl (by rw [finished]; exact ⟨rfl, rfl⟩)
  | succ left ih =>
      have inside : done < label.length := by omega
      have place : label.length - (left + 1) = done := by omega
      have byte : (pre ++ (label ++ rest)).getD (pre.length + done) 0 = label[done] := by
        rw [List.getD_eq_getElem?_getD, List.getElem?_append_right (Nat.le_add_right _ _),
          Nat.add_sub_cancel_left, List.getElem?_append_left inside,
          List.getElem?_eq_getElem inside, Option.getD_some]
      rw [List.drop_eq_getElem_cons inside, List.zipIdx_cons, List.all_cons, encodeBytes]
      simp only [place, byte]
      cases test : labelByte label.length done label[done] with
      | false =>
          refine .inr ⟨by rw [Bool.false_and], ?_⟩
          rw [if_neg Bool.false_ne_true]
          exact ⟨rfl, fun s hs => absurd hs List.not_mem_nil⟩
      | true =>
          rw [Bool.true_and, if_pos rfl, List.map_cons, placed_cons]
          rcases ih (done + 1) (by omega) with ⟨passed, stores⟩ | ⟨failed, no, bounds⟩
          · exact .inl ⟨passed, by rw [stores]; rfl⟩
          · refine .inr ⟨failed, no, fun s hs => ?_⟩
            rcases List.mem_cons.mp hs with rfl | later
            · simp only
              omega
            · exact bounds s later

/-- What a scan leaves: the encoded labels, one behind the other, or a failure inside the
name. -/
def Scanned (name : List UInt8) (i : Nat) (labels : Option (List UInt8 × Int)) :
    List Store × Option (Nat × Int) → Prop
  | (stores, some (j, fqdn)) => ∃ b, labels = some (b, fqdn) ∧ stores = placed i b ∧
      j = i + b.length ∧ j ≤ name.length + 1
  | (stores, none) => labels = none ∧ ∀ s ∈ stores, s.1 ≤ name.length

theorem Scanned.label {name label : List UInt8} {i : Nat} {labels : Option (List UInt8 × Int)}
    {run : List Store × Option (Nat × Int)} (within : i + label.length ≤ name.length)
    (scanned : Scanned name (i + (label.length + 1)) labels run) :
    Scanned name i (labels.map fun (buf, fqdn) => (wire [label.map lowered] ++ buf, fqdn))
      (placed i (wire [label.map lowered]) ++ run.1, run.2) := by
  have size : (wire [label.map lowered]).length = label.length + 1 := by simp
  obtain ⟨stores, end_⟩ := run
  cases end_ with
  | none =>
      obtain ⟨bad, bounds⟩ := scanned
      refine ⟨by rw [bad]; rfl, fun s hs => ?_⟩
      rcases List.mem_append.mp hs with here | later
      · have bound := placed_bounds here
        omega
      · exact bounds s later
  | some found =>
      obtain ⟨b, encoded, rfl, last, inside⟩ := scanned
      refine ⟨wire [label.map lowered] ++ b, by rw [encoded]; rfl, ?_, ?_, inside⟩
      · rw [placed_append, size]
      · rw [last, List.length_append, size, Nat.add_assoc]

variable {pre label rest : List UInt8}

theorem encodeFrom_end (pre : List UInt8) (fqdn : Int) (fuel : Nat) :
    ∃ run, encodeFrom pre (fuel + 1) pre.length fqdn = some run ∧
      Scanned pre pre.length (encodeLabels fqdn [[]]) run := by
  rw [encodeFrom, if_neg (Nat.lt_irrefl _)]
  simp only [List.drop_length, strchr, Option.map_none, Option.getD_none, Nat.sub_self, if_true]
  rw [List.getD_eq_getElem?_getD, List.getElem?_eq_none (Nat.le_refl _)]
  by_cases negative : fqdn < 0
  · rw [if_pos (.inr negative)]
    exact ⟨_, rfl, by simp [encodeLabels, negative], fun s hs => absurd hs List.not_mem_nil⟩
  · rw [if_neg (by simpa using negative)]
    exact ⟨_, rfl, [], by simp [encodeLabels, negative], rfl, rfl, Nat.le_succ _⟩

theorem encodeFrom_dot (pre back : List UInt8) (fqdn : Int) (fuel : Nat) :
    ∃ run, encodeFrom (pre ++ DOT :: back) (fuel + 1) pre.length fqdn = some run ∧
      Scanned (pre ++ DOT :: back) pre.length (encodeLabels fqdn ([] :: back.splitOn DOT)) run := by
  have dot : (pre ++ DOT :: back).getD pre.length 0 ≠ 0 := by
    rw [List.getD_eq_getElem?_getD, List.getElem?_append_right (Nat.le_refl _),
      Nat.sub_self, List.getElem?_cons_zero, Option.getD_some]
    decide
  have here : strchr DOT (DOT :: back) = some 0 := by rw [strchr, if_pos rfl]
  rw [encodeFrom, if_neg (by rw [List.length_append]; omega)]
  simp only [List.drop_left, here, Option.map_some, Option.getD_some, Nat.add_zero, Nat.sub_self,
    if_true]
  rw [if_pos (.inl dot)]
  refine ⟨_, rfl, ?_, fun s hs => absurd hs List.not_mem_nil⟩
  rw [encodeLabels, if_pos (.inl (List.splitOn_ne_nil DOT back))]

theorem encodeFrom_label (fqdn : Int) (fuel : Nat) (nonempty : label ≠ [])
    (found : ((strchr DOT (label ++ rest)).map (pre.length + ·)).getD
      (pre ++ (label ++ rest)).length = pre.length + label.length) :
    (encodeLabel label = none ∧ ∃ stores,
      encodeFrom (pre ++ (label ++ rest)) (fuel + 1) pre.length fqdn = some (stores, none) ∧
      ∀ s ∈ stores, s.1 ≤ (pre ++ (label ++ rest)).length) ∨
    (encodeLabel label = some (wire [label.map lowered]) ∧
      encodeFrom (pre ++ (label ++ rest)) (fuel + 1) pre.length fqdn =
        (encodeFrom (pre ++ (label ++ rest)) fuel (pre.length + (label.length + 1)) fqdn).map
          fun next => (placed pre.length (wire [label.map lowered]) ++ next.1, next.2)) := by
  have size := List.length_pos_of_ne_nil nonempty
  have inside : pre.length ≤ (pre ++ (label ++ rest)).length := by
    rw [List.length_append]
    omega
  have within : pre.length + label.length ≤ (pre ++ (label ++ rest)).length := by
    rw [List.length_append, List.length_append]
    omega
  rw [encodeFrom, if_neg (Nat.not_lt.mpr inside)]
  simp only [List.drop_left, found, Nat.add_sub_cancel_left]
  rw [if_neg (Nat.pos_iff_ne_zero.mp size), encodeLabel]
  by_cases long : 0x40 ≤ label.length
  · rw [if_pos long, if_pos long]
    exact .inl ⟨rfl, [], rfl, fun s hs => absurd hs List.not_mem_nil⟩
  · rw [if_neg long, if_neg long]
    rcases encodeBytes_spec pre label rest 0 label.length (Nat.zero_add _) with
      ⟨passed, stores⟩ | ⟨failed, no, bounds⟩
    · rw [List.drop_zero] at passed
      rw [if_pos passed, stores, if_pos rfl]
      refine .inr ⟨by simp, ?_⟩
      simp
    · rw [List.drop_zero] at failed
      rw [failed, if_neg Bool.false_ne_true, if_neg (by rw [no]; exact Bool.false_ne_true)]
      refine .inl ⟨rfl, _, rfl, fun s hs => ?_⟩
      rcases List.mem_cons.mp hs with rfl | later
      · exact inside
      · exact Nat.le_trans (bounds s later) within

theorem encodeLabels_cons {fqdn : Int} (nonempty : label ≠ []) (labels : List (List UInt8)) :
    encodeLabels fqdn (label :: labels) = (encodeLabel label).bind fun first =>
      (encodeLabels fqdn labels).map fun (buf, fqdn) => (first ++ buf, fqdn) := by
  obtain ⟨c, cs, rfl⟩ := List.exists_cons_of_ne_nil nonempty
  rw [encodeLabels]
  cases encodeLabel (c :: cs) with
  | none => rfl
  | some first => cases encodeLabels fqdn labels <;> rfl

theorem encodeFrom_spec (pre rest : List UInt8) (fqdn : Int) (fuel : Nat)
    (enough : rest.length + 2 ≤ fuel) :
    ∃ run, encodeFrom (pre ++ rest) fuel pre.length fqdn = some run ∧
      Scanned (pre ++ rest) pre.length (encodeLabels fqdn (rest.splitOn DOT)) run := by
  induction fuel generalizing pre rest with
  | zero => omega
  | succ fuel ih =>
      rcases strchr_cases DOT rest with ⟨absent, at_⟩ | ⟨front, back, rfl, absent, at_⟩
      · rw [List.splitOn_eq_singleton absent]
        by_cases empty : rest = []
        · subst empty
          rw [List.append_nil]
          exact encodeFrom_end pre fqdn fuel
        · have found : ((strchr DOT (rest ++ [])).map (pre.length + ·)).getD
              (pre ++ (rest ++ [])).length = pre.length + rest.length := by
            rw [List.append_nil, at_, Option.map_none, Option.getD_none, List.length_append]
          have round := encodeFrom_label fqdn fuel empty found
          rw [List.append_nil] at round
          rw [encodeLabels_cons empty]
          rcases round with ⟨bad, stores, run, bounds⟩ | ⟨good, run⟩
          · exact ⟨_, run, by rw [bad]; rfl, bounds⟩
          · -- the scan is behind the name now, the loop ends
            obtain ⟨fuel, rfl⟩ : ∃ k, fuel = k + 1 := ⟨fuel - 1, by
              have size := List.length_pos_of_ne_nil empty
              omega⟩
            rw [run, encodeFrom, if_pos (by rw [List.length_append]; omega), good]
            refine ⟨_, rfl, wire [rest.map lowered], by simp [encodeLabels], ?_, ?_, ?_⟩
            · rw [List.append_nil]
            · simp
            · rw [List.length_append, Nat.add_assoc]
      · rw [List.splitOn_append_cons_self_of_not_mem absent]
        by_cases empty : front = []
        · subst empty
          exact encodeFrom_dot pre back fqdn fuel
        · have found : ((strchr DOT (front ++ DOT :: back)).map (pre.length + ·)).getD
              (pre ++ (front ++ DOT :: back)).length = pre.length + front.length := by
            rw [at_, Option.map_some, Option.getD_some]
          have round := encodeFrom_label fqdn fuel empty found
          rw [encodeLabels_cons empty]
          rcases round with ⟨bad, stores, run, bounds⟩ | ⟨good, run⟩
          · exact ⟨_, run, by rw [bad]; rfl, bounds⟩
          · have step := ih (pre ++ (front ++ [DOT])) back (by
              rw [List.length_append, List.length_cons] at enough
              omega)
            have join : pre ++ (front ++ [DOT]) ++ back = pre ++ (front ++ DOT :: back) := by simp
            have moved : (pre ++ (front ++ [DOT])).length = pre.length + (front.length + 1) := by
              simp
            rw [join, moved] at step
            obtain ⟨next, same, scanned⟩ := step
            rw [run, same, good]
            refine ⟨_, rfl, scanned.label ?_⟩
            simp only [List.length_append, List.length_cons]
            omega

end Scan

section Run

/-- The stores of a run stay inside the buffer, and the bytes that it returns stand one
behind the other from the start of the buffer. -/
theorem encodeRun_spec (name : List UInt8) (buflen : Nat) (fqdn : Int) :
    ∃ stores ret, encodeRun name buflen fqdn = some (stores, ret) ∧
      (∀ s ∈ stores, s.1 < buflen) ∧
      (encodeDnsname name buflen fqdn = none ∧ ret = -1 ∨
        ∃ b, encodeDnsname name buflen fqdn = some b ∧ stores = placed 0 b ∧ ret = b.length) := by
  rw [encodeRun, encodeDnsname]
  by_cases empty : name.length = 0
  · rw [if_pos empty, if_pos empty]
    exact ⟨_, _, rfl, fun s hs => absurd hs List.not_mem_nil, .inr ⟨[], rfl, rfl, rfl⟩⟩
  rw [if_neg empty, if_neg empty]
  by_cases bad : 255 < name.length ∨ buflen < name.length + 1
  · rw [if_pos bad, if_pos bad]
    exact ⟨_, _, rfl, fun s hs => absurd hs List.not_mem_nil, .inl ⟨rfl, rfl⟩⟩
  rw [if_neg bad, if_neg bad]
  have run := encodeFrom_spec [] name fqdn (name.length + 2) (Nat.le_refl _)
  rw [List.nil_append, List.length_nil] at run
  obtain ⟨⟨stores, end_⟩, same, scanned⟩ := run
  rw [same]
  cases end_ with
  | none =>
      obtain ⟨labels, bounds⟩ := scanned
      rw [labels]
      exact ⟨_, _, rfl, fun s hs => by have bound := bounds s hs; omega, .inl ⟨rfl, rfl⟩⟩
  | some end_ =>
      obtain ⟨j, fqdn'⟩ := end_
      obtain ⟨b, labels, rfl, last, inside⟩ := scanned
      rw [Nat.zero_add] at last
      subst last
      rw [labels]
      simp only
      by_cases full : buflen < b.length + 1 + if 0 < fqdn' then 0 else 1
      · rw [if_pos full, if_pos full]
        refine ⟨_, _, rfl, fun s hs => ?_, .inl ⟨rfl, rfl⟩⟩
        have bound := placed_bounds hs
        omega
      · rw [if_neg full, if_neg full]
        by_cases dot : 0 < fqdn'
        · rw [if_pos dot] at full
          rw [if_pos dot, if_pos dot]
          have all : placed 0 b ++ [(b.length, 0)] = placed 0 (b ++ [0] ++ []) := by
            rw [placed_append, placed_append, Nat.zero_add]
            simp
          refine ⟨_, _, rfl, fun s hs => ?_, .inr ⟨_, rfl, all, by simp⟩⟩
          rw [all] at hs
          have bound := placed_bounds hs
          simp only [List.length_append, List.length_singleton, List.length_nil] at bound
          omega
        · rw [if_neg dot] at full
          rw [if_neg dot, if_neg dot]
          have all : placed 0 b ++ [(b.length, 0), (b.length + 1, 0)] =
              placed 0 (b ++ [0] ++ [0]) := by
            rw [placed_append, placed_append, Nat.zero_add]
            simp
          refine ⟨_, _, rfl, fun s hs => ?_, .inr ⟨_, rfl, all, by simp⟩⟩
          rw [all] at hs
          have bound := placed_bounds hs
          simp only [List.length_append, List.length_singleton] at bound
          omega

end Run

section Names

structure HostLabel (l : List UInt8) : Prop where
  nonempty : l ≠ []
  short : l.length ≤ 63
  bytes : ∀ c ∈ l, isalnum c = true ∨ c = HYPHEN
  first : ∀ c ∈ l.head?, isalnum c = true
  last : ∀ c ∈ l.getLast?, isalnum c = true

/-- A host name with its labels, and whether it ends in a dot. -/
structure IsHostName (name : List UInt8) (labels : List (List UInt8)) (dot : Bool) : Prop where
  size : 1 ≤ name.length ∧ name.length ≤ 255
  some : labels ≠ []
  each : ∀ l ∈ labels, HostLabel l
  text : name = [DOT].intercalate labels ++ if dot then [DOT] else []

def terminator (dot : Bool) : List UInt8 := if dot then [0] else [0, 0]

/-- Reads length-prefixed labels up to the zeros at the end; one zero is for a final dot. -/
def decodeLabels : Nat → List UInt8 → Option (List (List UInt8) × Bool)
  | 0, _ => none
  | _ + 1, [] => none
  | fuel + 1, c :: rest =>
      if c = 0 then
        if rest = [] then some ([], true) else if rest = [0] then some ([], false) else none
      else if c.toNat < 0x40 ∧ c.toNat ≤ rest.length then
        (decodeLabels fuel (rest.drop c.toNat)).map fun (labels, dot) =>
          (rest.take c.toNat :: labels, dot)
      else none

def decodeName (b : List UInt8) : Option (List (List UInt8) × Bool) := decodeLabels b.length b

theorem isascii_of_isalnum {c : UInt8} (h : isalnum c = true) : isascii c = true := by
  simp only [isalnum, isalpha, isupper, islower, isdigit, Bool.or_eq_true, decide_eq_true_eq,
    UInt8.le_iff_toNat_le, UInt8.reduceToNat] at h
  simp only [isascii, decide_eq_true_eq, UInt8.lt_iff_toNat_lt, UInt8.reduceToNat]
  omega

theorem labelByte_iff (llen ii : Nat) (c : UInt8) : labelByte llen ii c = true ↔
    isalnum c = true ∨ c = HYPHEN ∧ ii ≠ 0 ∧ ii ≠ llen - 1 := by
  have hyphen : isascii HYPHEN = true := by decide
  rw [labelByte, Bool.and_eq_true]
  split_ifs with edge
  · constructor
    · exact fun h => .inl h.2
    · rintro (h | ⟨-, notFirst, notLast⟩)
      · exact ⟨isascii_of_isalnum h, h⟩
      · exact (edge.elim notFirst notLast).elim
  · rw [Bool.or_eq_true, beq_iff_eq]
    constructor
    · rintro ⟨-, h | h⟩
      · exact .inl h
      · exact .inr ⟨h, not_or.mp edge⟩
    · rintro (h | ⟨rfl, -⟩)
      · exact ⟨isascii_of_isalnum h, .inl h⟩
      · exact ⟨hyphen, .inr rfl⟩

theorem encodeLabel_host {l : List UInt8} (nonempty : l ≠ []) :
    encodeLabel l = some (wire [l.map lowered]) ∧ HostLabel l ∨
      encodeLabel l = none ∧ ¬ HostLabel l := by
  have size := List.length_pos_of_ne_nil nonempty
  have passed : (l.zipIdx.all fun (c, ii) => labelByte l.length ii c) = true ↔
      ∀ (i : Nat) (h : i < l.length), isalnum l[i] = true ∨ l[i] = HYPHEN ∧ i ≠ 0 ∧
        i ≠ l.length - 1 := by
    rw [List.all_eq_true]
    constructor
    · intro all i h
      exact (labelByte_iff ..).mp (all (l[i], i) (by
        rw [List.mem_zipIdx_iff_getElem?]
        exact List.getElem?_eq_getElem h))
    · rintro all ⟨c, i⟩ member
      replace member : l[i]? = some c := List.mem_zipIdx_iff_getElem?.mp member
      obtain ⟨inside, rfl⟩ := List.getElem?_eq_some_iff.mp member
      exact (labelByte_iff ..).mpr (all i inside)
  rw [encodeLabel]
  split_ifs with long test
  · exact .inr ⟨rfl, fun host => absurd host.short (by omega)⟩
  · refine .inl ⟨by simp, nonempty, by omega, fun c member => ?_, fun c member => ?_,
      fun c member => ?_⟩
    · obtain ⟨i, inside, rfl⟩ := List.getElem_of_mem member
      exact (passed.mp test i inside).imp_right And.left
    · rw [List.head?_eq_getElem?, Option.mem_def, List.getElem?_eq_getElem size,
        Option.some.injEq] at member
      rw [← member]
      exact (passed.mp test 0 size).resolve_right fun inner => inner.2.1 rfl
    · rw [List.getLast?_eq_getElem?, Option.mem_def, List.getElem?_eq_getElem (by omega),
        Option.some.injEq] at member
      rw [← member]
      exact (passed.mp test _ (by omega)).resolve_right fun inner => inner.2.2 rfl
  · refine .inr ⟨rfl, fun host => test (passed.mpr fun i inside => ?_)⟩
    by_cases first : i = 0
    · subst first
      exact .inl (host.first _ (by rw [List.head?_eq_getElem?]; exact List.getElem?_eq_getElem _))
    by_cases last : i = l.length - 1
    · subst last
      exact .inl (host.last _ (by
        rw [List.getLast?_eq_getElem?]
        exact List.getElem?_eq_getElem _))
    · exact (host.bytes _ (List.getElem_mem inside)).imp_right fun h => ⟨h, first, last⟩

theorem encodeLabels_host {labels : List (List UInt8)} (each : ∀ l ∈ labels, HostLabel l)
    (dot : Bool) : encodeLabels 0 (labels ++ if dot then [[]] else []) =
      some (wire (labels.map (List.map lowered)), if dot then 1 else 0) := by
  induction labels with
  | nil => cases dot <;> rfl
  | cons l labels ih =>
      have host := each l (List.mem_cons_self ..)
      have first := (encodeLabel_host host.nonempty).resolve_right fun no => no.2 host
      rw [List.cons_append, encodeLabels_cons host.nonempty, first.1,
        ih fun l member => each l (List.mem_cons_of_mem _ member)]
      simp

theorem hostLabel_of_encodeLabels {fqdn : Int} {labels : List (List UInt8)}
    (h : encodeLabels fqdn labels ≠ none) : ∀ l ∈ labels, l ≠ [] → HostLabel l := by
  induction labels with
  | nil => exact fun l member => absurd member List.not_mem_nil
  | cons first labels ih =>
      intro l member nonempty
      by_cases empty : first = []
      · subst empty
        rw [encodeLabels] at h
        split_ifs at h with more
        · exact absurd rfl h
        · have last : labels = [] := not_not.mp fun some => more (.inl some)
          rw [last, List.mem_singleton] at member
          exact absurd member nonempty
      · rw [encodeLabels_cons empty] at h
        rcases encodeLabel_host empty with ⟨accepted, host⟩ | ⟨refused, -⟩
        · rcases List.mem_cons.mp member with rfl | later
          · exact host
          · refine ih (fun none => h ?_) l later nonempty
            rw [accepted, none]
            rfl
        · exact absurd (by rw [refused]; rfl) h

theorem length_wire_map (labels : List (List UInt8)) :
    (wire (labels.map (List.map lowered))).length = (wire labels).length := by
  induction labels with
  | nil => rfl
  | cons l labels ih =>
      rw [List.map_cons, wire_cons, wire_cons, List.length_cons, List.length_append, ih,
        List.length_map, List.length_cons, List.length_append]

theorem not_mem_dot {l : List UInt8} (h : HostLabel l) : DOT ∉ l := by
  intro member
  have one := h.bytes DOT member
  revert one
  decide

namespace IsHostName

variable {name : List UInt8} {labels labels' : List (List UInt8)} {dot dot' : Bool}

theorem splitOn (h : IsHostName name labels dot) :
    name.splitOn DOT = labels ++ if dot then [[]] else [] := by
  rw [h.text]
  cases dot with
  | false =>
      simp only [Bool.false_eq_true, if_false, List.append_nil]
      exact List.splitOn_intercalate DOT (fun l member => not_mem_dot (h.each l member)) h.some
  | true =>
      simp only [if_true]
      rw [← intercalate_append_nil h.some]
      refine List.splitOn_intercalate DOT (fun l member => ?_) (by simp)
      rcases List.mem_append.mp member with here | last
      · exact not_mem_dot (h.each l here)
      · rw [List.mem_singleton.mp last]
        exact List.not_mem_nil

theorem unique (h : IsHostName name labels dot) (h' : IsHostName name labels' dot') :
    labels = labels' ∧ dot = dot' := by
  have same := h.splitOn.symm.trans h'.splitOn
  have full (labels : List (List UInt8)) (each : ∀ l ∈ labels, HostLabel l)
      (front : List (List UInt8)) : labels ≠ front ++ [[]] := by
    rintro rfl
    exact (each [] (by simp)).nonempty rfl
  cases dot <;> cases dot' <;> simp only [Bool.false_eq_true, if_false, if_true,
    List.append_nil] at same
  · exact ⟨same, rfl⟩
  · exact (full labels h.each labels' same).elim
  · exact (full labels' h'.each labels same.symm).elim
  · exact ⟨List.append_cancel_right same, rfl⟩

theorem encodeDnsname_eq (h : IsHostName name labels dot) {buflen : Nat}
    (fits : (wire labels ++ terminator dot).length ≤ buflen) :
    encodeDnsname name buflen 0 = Option.some (wire (labels.map (List.map lowered)) ++
      terminator dot) := by
  have same := length_wire_map labels
  have room : name.length + 1 ≤ buflen := by
    have text := congrArg List.length h.text
    have joined := length_wire h.some
    cases dot <;> simp [terminator] at fits text <;> omega
  rw [encodeDnsname, if_neg (by have size := h.size; omega),
    if_neg (by have size := h.size; omega), h.splitOn, encodeLabels_host h.each]
  cases dot <;> simp [terminator] at fits ⊢ <;> omega

end IsHostName

theorem isHostName_of_encodeDnsname {name b : List UInt8} {buflen : Nat}
    (h : encodeDnsname name buflen 0 = some b) (accepted : b ≠ []) :
    ∃ labels dot, IsHostName name labels dot ∧
      b = wire (labels.map (List.map lowered)) ++ terminator dot ∧ b.length ≤ buflen := by
  obtain ⟨ls, more, all, ends, room⟩ := encodeDnsname_spec h accepted
  have size : 1 ≤ name.length ∧ name.length ≤ 255 := by
    rw [encodeDnsname] at h
    split_ifs at h with empty long
    · exact absurd (Option.some.inj h).symm accepted
    · omega
  have labels : encodeLabels 0 (name.splitOn DOT) ≠ none := by
    intro none
    rw [encodeDnsname, none] at h
    split_ifs at h with empty long
    exact absurd (Option.some.inj h).symm accepted
  have host := hostLabel_of_encodeLabels labels
  have joined := @List.intercalate_splitOn _ name _ _ DOT
  rcases ends with ⟨split, rfl⟩ | ⟨split, rfl⟩
  · rw [split] at joined host
    exact ⟨ls, false, ⟨size, more, fun l member => host l member (all l member).nonempty,
      by rw [joined]; simp⟩, rfl, room⟩
  · rw [split] at joined host
    refine ⟨ls, true, ⟨size, more, fun l member => host l (List.mem_append_left _ member)
      (all l member).nonempty, ?_⟩, rfl, room⟩
    rw [← joined, intercalate_append_nil more]
    rfl

theorem decodeLabels_wire {labels : List (List UInt8)} (dot : Bool)
    (each : ∀ l ∈ labels, l ≠ [] ∧ l.length < 0x40) {fuel : Nat} (enough : labels.length < fuel) :
    decodeLabels fuel (wire labels ++ terminator dot) = some (labels, dot) := by
  induction labels generalizing fuel with
  | nil =>
      obtain ⟨fuel, rfl⟩ : ∃ k, fuel = k + 1 := ⟨fuel - 1, by omega⟩
      cases dot <;> simp [decodeLabels, terminator]
  | cons l labels ih =>
      obtain ⟨fuel, rfl⟩ : ∃ k, fuel = k + 1 := ⟨fuel - 1, by omega⟩
      obtain ⟨nonempty, short⟩ := each l (List.mem_cons_self ..)
      have positive := List.length_pos_of_ne_nil nonempty
      have toNat : (UInt8.ofNat l.length).toNat = l.length :=
        UInt8.toNat_ofNat_of_lt' (by simp [UInt8.size]; omega)
      have some : UInt8.ofNat l.length ≠ 0 := by
        intro zero
        rw [zero] at toNat
        exact absurd toNat (by simp; omega)
      rw [wire_cons, List.cons_append, decodeLabels, if_neg some, toNat, List.append_assoc,
        if_pos ⟨short, by rw [List.length_append]; omega⟩, List.drop_left, List.take_left,
        ih (fun l member => each l (List.mem_cons_of_mem _ member)) (by
          rw [List.length_cons] at enough
          omega), Option.map_some]

/-- `encode_dnsname` writes inside the buffer, takes exactly the host names that fit, and
what it leaves reads as their labels in lower case. -/
theorem encodeRun_encoder (name : List UInt8) (buflen : Nat) :
    ∃ stores ret, encodeRun name buflen 0 = some (stores, ret) ∧
      (∀ s ∈ stores, s.1 < buflen) ∧
      (0 < ret ↔ ∃ labels dot, IsHostName name labels dot ∧
        (wire labels ++ terminator dot).length ≤ buflen) ∧
      ∀ labels dot, IsHostName name labels dot → 0 < ret → ∀ buf : Nat → UInt8,
        decodeName ((List.range ret.toNat).map (written stores buf)) =
          some (labels.map (List.map lowered), dot) := by
  obtain ⟨stores, ret, run, inside, answer⟩ := encodeRun_spec name buflen 0
  refine ⟨stores, ret, run, inside, ?_, ?_⟩
  · constructor
    · intro positive
      rcases answer with ⟨-, rfl⟩ | ⟨b, encoded, -, rfl⟩
      · omega
      · obtain ⟨labels, dot, host, rfl, room⟩ := isHostName_of_encodeDnsname encoded (by
          rintro rfl
          exact absurd positive (by decide))
        refine ⟨labels, dot, host, ?_⟩
        rw [List.length_append, length_wire_map] at room
        rwa [List.length_append]
    · rintro ⟨labels, dot, host, fits⟩
      rw [host.encodeDnsname_eq fits] at answer
      rcases answer with ⟨no, -⟩ | ⟨b, encoded, -, rfl⟩
      · cases no
      · obtain rfl := Option.some.inj encoded
        have behind : 0 < (terminator dot).length := by cases dot <;> decide
        rw [List.length_append]
        omega
  · intro labels dot host positive buf
    rcases answer with ⟨-, rfl⟩ | ⟨b, encoded, rfl, rfl⟩
    · omega
    · obtain ⟨labels', dot', host', rfl, -⟩ := isHostName_of_encodeDnsname encoded (by
        rintro rfl
        exact absurd positive (by decide))
      obtain ⟨rfl, rfl⟩ := host.unique host'
      rw [Int.toNat_natCast, List.range_eq_range', written_placed, decodeName]
      refine decodeLabels_wire dot (fun l member => ?_) ?_
      · obtain ⟨l, given, rfl⟩ := List.mem_map.mp member
        have one := host.each l given
        exact ⟨by simpa using one.nonempty, by
          rw [List.length_map]
          exact Nat.lt_succ_of_le one.short⟩
      · have bound := length_le_wire (labels.map (List.map lowered))
        rw [List.length_append]
        cases dot <;> simp [terminator] at bound ⊢ <;> omega

end Names

end Baseliner.Ninfod
