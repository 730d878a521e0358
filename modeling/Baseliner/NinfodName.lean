import Mathlib.Algebra.Order.Ring.Int
import Baseliner.NinfodAddrs

/-! Host names in `ninfod`: the label encoding of the node name, the comparison of
a subject with it, and the group of the name. Strings are the bytes before their
terminator; `char` is signed. -/

namespace Baseliner.Ninfod

open ByteOrder

def isascii (c : UInt8) : Bool := c < 0x80
def isupper (c : UInt8) : Bool := 0x41 ≤ c ∧ c ≤ 0x5a
def islower (c : UInt8) : Bool := 0x61 ≤ c ∧ c ≤ 0x7a
def isdigit (c : UInt8) : Bool := 0x30 ≤ c ∧ c ≤ 0x39
def isalpha (c : UInt8) : Bool := isupper c || islower c
def isalnum (c : UInt8) : Bool := isalpha c || isdigit c

def lowered (c : UInt8) : UInt8 := if isupper c then c + 0x20 else c

def DOT : UInt8 := 0x2e
def HYPHEN : UInt8 := 0x2d

def labelByte (llen ii : Nat) (c : UInt8) : Bool :=
  isascii c &&
    if ii = 0 ∨ ii = llen - 1 then isalpha c || isdigit c else isalnum c || c == HYPHEN

def encodeLabel (label : List UInt8) : Option (List UInt8) :=
  if 0x40 ≤ label.length then none
  else if label.zipIdx.all fun (c, ii) => labelByte label.length ii c then
    some (UInt8.ofNat label.length :: label.map lowered)
  else none

/-- The loop of `encode_dnsname` over the labels that `strchr` finds, with `fqdn`
as it leaves it. An empty label may only stand behind a trailing dot. -/
def encodeLabels (fqdn : Int) : List (List UInt8) → Option (List UInt8 × Int)
  | [] => some ([], fqdn)
  | [] :: rest => if rest ≠ [] ∨ fqdn < 0 then none else some ([], 1)
  | (c :: cs) :: rest => do
      let label ← encodeLabel (c :: cs)
      let (buf, fqdn) ← encodeLabels fqdn rest
      return (label ++ buf, fqdn)

/-- `encode_dnsname`; `none` is -1, otherwise the return value is the length. -/
def encodeDnsname (name : List UInt8) (buflen : Nat) (fqdn : Int) : Option (List UInt8) :=
  if name.length = 0 then some []
  else if 255 < name.length ∨ buflen < name.length + 1 then none
  else match encodeLabels fqdn (name.splitOn DOT) with
    | none => none
    | some (buf, fqdn) =>
        if buflen < buf.length + 1 + (if 0 < fqdn then 0 else 1) then none
        else some (buf ++ [0] ++ if 0 < fqdn then [] else [0])

def memoryOf (l : List UInt8) : Memory := fun i => if i < 0 then 0 else l.getD i.toNat 0

/-- A `char` in an expression. -/
def schar (c : UInt8) : Int := c.toInt8.toInt

inductive Access
  | subject (i : Int)
  | nodename (i : Int)

/-- The bytes that `memcmp` reads. -/
def compared (s n : Int) (count : Nat) : List Access :=
  (List.range count).map (fun k : Nat => .subject (s + k)) ++
    (List.range count).map fun k : Nat => .nodename (n + k)

/-- The loop of `compare_dnsname` with the bytes that it reads, for at most `fuel` rounds; `none`
while it is still running. The positions `s` and `n` are offsets from the two names. -/
def compareTrace (s0 : Memory) (slen : Nat) (n0 : Memory) (nlen : Nat) :
    Nat → Int → Int → Bool → Int → Option Int × List Access
  | 0, _, _, _, _ => (none, [])
  | fuel + 1, s, n, done, retcode =>
      if s < slen ∧ n < nlen then
        let ls := schar (s0 s)
        let ln := schar (n0 n)
        let seen : List Access := .subject s :: if 0x40 ≤ ls then [] else [.nodename n]
        let on (n : Int) (done : Bool) (retcode : Int) (more : List Access) :=
          let run := compareTrace s0 slen n0 nlen fuel (s + ls + 1) n done retcode
          (run.1, seen ++ more ++ run.2)
        if 0x40 ≤ ls ∨ 0x40 ≤ ln then (some (-1), seen)
        else if slen < s + ls + 1 ∨ nlen < n + ln + 1 then (some (-1), seen)
        else if ls = 0 then
          if s = slen - 1 then (some retcode, seen)
          else if s + 1 = slen - 1 then (some retcode, seen)
          else (some (-1), seen)
        else if done then on n true retcode []
        else if ln = 0 then
          if n = nlen - 1 then on n true retcode []
          else if n + 1 = nlen - 1 then on n true 1 []
          else (some (-1), seen)
        else if ls ≠ ln then on n true 1 []
        -- a negative count makes `memcmp` run out of the names
        else if ls < 0 then (none, seen ++ [.subject (s + 1 + ls)])
        else if (List.range ls.toNat).all fun k : Nat => s0 (s + 1 + k) == n0 (n + 1 + k) then
          on (n + ln + 1) false retcode (compared (s + 1) (n + 1) ls.toNat)
        else on n true 1 (compared (s + 1) (n + 1) ls.toNat)
      else (some retcode, [])

/-- `compare_dnsname` with the bytes that it reads. -/
def compareRun (fuel : Nat) (s : Memory) (slen : Nat) (n : Memory) (nlen : Nat) :
    Option Int × List Access :=
  if slen < 1 ∨ nlen < 1 then (some (-1), [])
  else
    let simple := if slen = nlen then compared 0 0 slen else []
    if slen = nlen ∧ (List.range slen).all (fun k : Nat => s k == n k) then (some 0, simple)
    else
      let seen := simple ++ .subject (slen - 1) ::
        if s (slen - 1) ≠ 0 then [] else [.nodename (nlen - 1)]
      if s (slen - 1) ≠ 0 ∨ n (nlen - 1) ≠ 0 then (some (-1), seen)
      else
        let run := compareTrace s slen n nlen fuel 0 0 false 0
        (run.1, seen ++ run.2)

abbrev compareLoop (s0 : Memory) (slen : Nat) (n0 : Memory) (nlen fuel : Nat) (s n : Int)
    (done : Bool) (retcode : Int) : Option Int :=
  (compareTrace s0 slen n0 nlen fuel s n done retcode).1

def compareDnsname (fuel : Nat) (s : Memory) (slen : Nat) (n : Memory) (nlen : Nat) : Option Int :=
  (compareRun fuel s slen n nlen).1

/-- `MD5_Final` writes sixteen bytes. -/
abbrev Digest := Fin 16 → UInt8

instance digestLength : NeZero 16 := ⟨by decide⟩

def nodeinfoGroup (md5 : List UInt8 → Digest) (dnsname : List UInt8) : In6Addr :=
  let digest := md5 (dnsname.take (dnsname.headD 0).toNat)
  ⟨0xff020000, 0, 2, be32 (memoryOf [digest 0, digest 1, digest 2, digest 3]) 0⟩

def MAX_DNSNAME_SIZE : Nat := 255

/-- The node name that `init_nodeinfo_nodename` sets up, empty when the host name is
not accepted. -/
def nodename (utsNodename : List UInt8) : List UInt8 :=
  (encodeDnsname utsNodename MAX_DNSNAME_SIZE 0).getD []

/-- `pr_nodeinfo_nodename`; `none` when the comparison does not come to an end. -/
def prNodeinfoNodename (fuel : Nat) (nodename : List UInt8) (heap : Heap) (p : PacketContext)
    (subject : Option Memory) (subjlen : Nat) (_flags : UInt32) (subjIf : Option Nat)
    (reply : Bool) : Option Checked :=
  let filled (subjIf : Option Nat) : Checked :=
    if reply then
      let replydatalen := if nodename.length ≠ 0 then 4 + nodename.length else 0
      ⟨0, { p with
          reply := { p.reply with
            niType := ICMP6_NI_REPLY, niCode := ICMP6_NI_SUCCESS, niCksum := 0,
            niQtype := ntohs NI_QTYPE_DNSNAME, niFlags := 0 }
          replydatalen := replydatalen
          replydata := if nodename.length ≠ 0 then
              (heap.block replydatalen).map fun b => blit (blit b 0 [0, 0, 0, 0]) 4 nodename
            else none }, subjIf⟩
    else ⟨0, p, subjIf⟩
  match subject with
  | none => some (filled subjIf)
  | some subject =>
      if nodename.length = 0 then some ⟨1, p, subjIf⟩
      else match compareDnsname fuel subject subjlen (memoryOf nodename) nodename.length with
        | none => none
        | some 0 => some (filled (subjIf.map fun _ => p.pktinfo.ipi6Ifindex))
        | some _ => some ⟨1, p, subjIf⟩

/-! Names as lists of labels. -/

def wire (labels : List (List UInt8)) : List UInt8 :=
  labels.flatMap fun label => UInt8.ofNat label.length :: label

@[simp] theorem wire_nil : wire [] = [] := rfl

@[simp] theorem wire_cons (label : List UInt8) (labels : List (List UInt8)) :
    wire (label :: labels) = UInt8.ofNat label.length :: (label ++ wire labels) := rfl

structure IsLabel (label : List UInt8) : Prop where
  nonempty : label ≠ []
  short : label.length < 0x40
  bytes : ∀ c ∈ label, isalnum c = true ∨ c = HYPHEN

theorem isLabel_of_encodeLabel {label buf : List UInt8} (nonempty : label ≠ [])
    (h : encodeLabel label = some buf) : IsLabel label ∧ buf = wire [label.map lowered] := by
  unfold encodeLabel at h
  split_ifs at h with long bytes
  simp only [Option.some.injEq] at h
  refine ⟨⟨nonempty, Nat.not_le.mp long, ?_⟩, by simp [← h]⟩
  intro c hc
  obtain ⟨i, hi, rfl⟩ := List.getElem_of_mem hc
  have mem : (label[i], i) ∈ label.zipIdx := by
    rw [List.mem_zipIdx_iff_getElem?]
    exact List.getElem?_eq_getElem hi
  have ok := List.all_eq_true.mp bytes _ mem
  simp only [labelByte, Bool.and_eq_true] at ok
  have test := ok.2
  split_ifs at test
  · exact .inl test
  · simpa using test

theorem encodeLabels_spec {fqdn fqdn' : Int} {labels : List (List UInt8)} {buf : List UInt8}
    (h : encodeLabels fqdn labels = some (buf, fqdn')) :
    ∃ ls, (∀ l ∈ ls, IsLabel l) ∧ buf = wire (ls.map (List.map lowered)) ∧
      ((labels = ls ∧ fqdn' = fqdn) ∨ (labels = ls ++ [[]] ∧ fqdn' = 1)) := by
  induction labels generalizing buf with
  | nil =>
      simp only [encodeLabels, Option.some.injEq, Prod.mk.injEq] at h
      exact ⟨[], by simp, by simp [← h.1], .inl ⟨rfl, h.2.symm⟩⟩
  | cons label rest ih =>
      cases label with
      | nil =>
          simp only [encodeLabels] at h
          split_ifs at h with bad
          simp only [Option.some.injEq, Prod.mk.injEq] at h
          have last : rest = [] := not_not.mp fun more => bad (.inl more)
          exact ⟨[], by simp, by simp [← h.1], .inr ⟨by simp [last], h.2.symm⟩⟩
      | cons c cs =>
          simp only [encodeLabels, Option.bind_eq_bind, Option.bind_eq_some_iff, Option.pure_def,
            Option.some.injEq, Prod.mk.injEq, Prod.exists] at h
          obtain ⟨first, accepted, tail, fqdn'', loop, rfl, rfl⟩ := h
          obtain ⟨isLabel, rfl⟩ := isLabel_of_encodeLabel (by simp) accepted
          obtain ⟨ls, all, rfl, ends⟩ := ih loop
          refine ⟨(c :: cs) :: ls, by simpa using ⟨isLabel, all⟩, by simp, ?_⟩
          rcases ends with ⟨rfl, same⟩ | ⟨rfl, one⟩
          · exact .inl ⟨rfl, same⟩
          · exact .inr ⟨rfl, one⟩

theorem encodeDnsname_spec {name buf : List UInt8} {buflen : Nat}
    (h : encodeDnsname name buflen 0 = some buf) (accepted : buf ≠ []) :
    ∃ ls, ls ≠ [] ∧ (∀ l ∈ ls, IsLabel l) ∧
      (name.splitOn DOT = ls ∧ buf = wire (ls.map (List.map lowered)) ++ [0, 0] ∨
        name.splitOn DOT = ls ++ [[]] ∧ buf = wire (ls.map (List.map lowered)) ++ [0]) ∧
      buf.length ≤ buflen := by
  unfold encodeDnsname at h
  split_ifs at h with empty long
  · exact absurd (Option.some.inj h).symm accepted
  cases loop : encodeLabels 0 (name.splitOn DOT) with
  | none => simp [loop] at h
  | some found =>
      obtain ⟨body, fqdn⟩ := found
      obtain ⟨ls, all, rfl, ends⟩ := encodeLabels_spec loop
      rw [loop] at h
      dsimp only at h
      rcases ends with ⟨split, rfl⟩ | ⟨split, rfl⟩
      · rw [if_neg (Int.lt_irrefl 0), if_neg (Int.lt_irrefl 0)] at h
        split_ifs at h with room
        have buf_eq := (Option.some.inj h).symm
        refine ⟨ls, ?_, all, .inl ⟨split, by simpa using buf_eq⟩, ?_⟩
        · rw [← split]
          exact List.splitOn_ne_nil DOT name
        · rw [buf_eq]
          simp only [List.length_append, List.length_singleton]
          omega
      · rw [if_pos Int.zero_lt_one, if_pos Int.zero_lt_one] at h
        split_ifs at h with room
        have buf_eq := (Option.some.inj h).symm
        refine ⟨ls, ?_, all, .inr ⟨split, by simpa using buf_eq⟩, ?_⟩
        · rintro rfl
          have joined := @List.intercalate_splitOn _ name _ _ DOT
          rw [split] at joined
          exact empty (by simp [← joined])
        · rw [buf_eq]
          simp only [List.length_append, List.length_singleton, List.length_nil]
          omega

theorem memoryOf_append (pre l : List UInt8) (k : Nat) :
    memoryOf (pre ++ l) (pre.length + k) = l.getD k 0 := by
  have positive : ¬ ((pre.length : Int) + k < 0) := by omega
  have index : ((pre.length : Int) + k).toNat = pre.length + k := by omega
  rw [memoryOf, if_neg positive, index, List.getD_eq_getElem?_getD, List.getD_eq_getElem?_getD,
    List.getElem?_append_right (Nat.le_add_right _ _), Nat.add_sub_cancel_left]

theorem schar_ofNat {n : Nat} (h : n < 0x40) : schar (UInt8.ofNat n) = n := by
  have all : ∀ n : Fin 0x40, schar (UInt8.ofNat n) = (n : Nat) := by decide
  exact all ⟨n, h⟩

theorem memoryOf_boundary (pre l : List UInt8) : memoryOf (pre ++ l) pre.length = l.getD 0 0 := by
  simpa using memoryOf_append pre l 0

def Terminator (t : List UInt8) : Prop := t = [0] ∨ t = [0, 0]

theorem length_le_wire (ls : List (List UInt8)) : ls.length ≤ (wire ls).length := by
  induction ls with
  | nil => simp
  | cons label rest ih =>
      simp only [wire_cons, List.length_cons, List.length_append]
      omega

theorem length_wire {ls : List (List UInt8)} (some : ls ≠ []) :
    (wire ls).length = ([DOT].intercalate ls).length + 1 := by
  induction ls with
  | nil => exact absurd rfl some
  | cons l rest ih =>
      cases rest with
      | nil => simp [List.intercalate]
      | cons m rest =>
          have tail := ih (by simp)
          rw [List.intercalate_cons_cons, wire_cons]
          simp only [List.length_cons, List.length_append, List.length_nil] at tail ⊢
          omega

theorem intercalate_append_nil {ls : List (List UInt8)} (some : ls ≠ []) :
    [DOT].intercalate (ls ++ [[]]) = [DOT].intercalate ls ++ [DOT] := by
  induction ls with
  | nil => exact absurd rfl some
  | cons l rest ih =>
      cases rest with
      | nil => simp
      | cons m rest =>
          have tail := ih (by simp)
          rw [List.cons_append, List.cons_append, List.intercalate_cons_cons,
            ← List.cons_append, tail, List.intercalate_cons_cons, List.append_assoc _ _ [DOT]]

end Baseliner.Ninfod
