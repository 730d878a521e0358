import Mathlib.Data.Fin.VecNotation
import Mathlib.Data.List.TakeWhile
import Baseliner.NinfodCompare

/-! The subject-name option of `ping -N`: from a host name it makes the subject of
the query and the group the query is sent to. `ninfod` joins the group of its own
name and compares the subject with it; both sides encode, fold and hash the name
on their own. -/

namespace Baseliner.Ping6SubjectName

open ByteOrder Ninfod

/-- What a build links to: `idn2_lookup_ul` (or `strdup`), `dn_comp` without
earlier names to point to, and MD5. -/
structure Libraries where
  idn : List UInt8 → Option (List UInt8)
  dnComp : List UInt8 → Nat → Option (List UInt8)
  md5 : List UInt8 → Digest

structure Niquery where
  niSubject : Option (List UInt8)
  niSubjectType : Int
  niGroup : Option (List UInt8)
  deriving DecidableEq, Repr

/-- Why the option is refused or `ping` exits. -/
inductive Refusal
  | subjectTypeConflict
  | idnEncoding
  | tooLongScope
  | outOfMemory
  | inappropriateName
  | tooLongResult
  deriving DecidableEq, Repr

def NI_SUBJ_NAME : Int := 1
def IFNAMSIZ : Nat := 16
def SCOPE_DELIMITER : UInt8 := 0x25
def COLON : UInt8 := 0x3a

def niquerySetSubjectType (q : Niquery) (type : Int) : Except Refusal Niquery :=
  if (0 ≤ q.niSubjectType ∧ q.niSubject.isSome) ∧ q.niSubjectType ≠ type then
    .error .subjectTypeConflict
  else .ok { q with niSubjectType := type }

def hexDigit (n : Nat) : UInt8 := if n < 10 then UInt8.ofNat (0x30 + n) else UInt8.ofNat (0x57 + n)

/-- `%02x`. -/
def hex2 (b : UInt8) : List UInt8 := [hexDigit (b.toNat / 16), hexDigit (b.toNat % 16)]

/-- `"ff02::2:"`. -/
def groupStart : List UInt8 := [0x66, 0x66, 0x30, 0x32, 0x3a, 0x3a, 0x32, 0x3a]

/-- The text of a group, with the scope that the name carried. -/
def groupText (digest : Digest) (scope : Option (List UInt8)) : List UInt8 :=
  groupStart ++ hex2 (digest 0) ++ hex2 (digest 1) ++
    COLON :: (hex2 (digest 2) ++ hex2 (digest 3)) ++ scope.elim [] fun s => SCOPE_DELIMITER :: s

/-- `niquery_option_subject_name_handler` with the `data` of the option: zero to
guess whether the name is fully qualified, negative when it is not. -/
def subjectNameHandler (lib : Libraries) (memory : Bool) (data : Int) (q : Niquery)
    (name : List UInt8) : Except Refusal Niquery :=
  match niquerySetSubjectType q NI_SUBJ_NAME with
  | .error e => .error e
  | .ok q =>
      match lib.idn name with
      | none => .error .idnEncoding
      | some whole =>
          let idn := whole.takeWhile (· ≠ SCOPE_DELIMITER)
          let scope := if SCOPE_DELIMITER ∈ whole then some (whole.drop (idn.length + 1)) else none
          if IFNAMSIZ ≤ (scope.getD []).length then .error .tooLongScope
          else if ¬ memory then .error .outOfMemory
          else
            let canonname := idn.map lowered
            let dots := idn.count DOT
            let fqdn : Int := if data = 0 then (if dots ≠ 0 then 1 else -1) else data
            let buflen := idn.length + 3 + 1
            match lib.dnComp canonname buflen with
            | none => .error .inappropriateName
            | some buf =>
                if buflen ≤ buf.length then .error .tooLongResult
                else
                  let digest := lib.md5 (buf.take (buf.headD 0).toNat)
                  .ok { q with
                    niGroup := some (groupText digest scope)
                    niSubject := some (buf ++ if fqdn < 0 then [0] else []) }

/-! Reading a group back: `inet_pton` for addresses in hexadecimal groups. -/

def hexValue (c : UInt8) : Option Nat :=
  if 0x30 ≤ c ∧ c ≤ 0x39 then some (c.toNat - 0x30)
  else if 0x61 ≤ c ∧ c ≤ 0x66 then some (c.toNat - 0x57)
  else if 0x41 ≤ c ∧ c ≤ 0x46 then some (c.toNat - 0x37)
  else none

def hexGroup (g : List UInt8) : Option Nat :=
  if g.length = 0 ∨ 4 < g.length then none
  else g.foldlM (fun v c => (hexValue c).map fun d => 16 * v + d) 0

def hexGroups (t : List UInt8) : Option (List Nat) :=
  if t.length = 0 then some [] else (t.splitOn COLON).mapM hexGroup

/-- What stands before and behind the first `::`. -/
def splitDouble : List UInt8 → Option (List UInt8 × List UInt8)
  | [] => none
  | [_] => none
  | a :: b :: rest =>
      if a = COLON ∧ b = COLON then some ([], rest)
      else (splitDouble (b :: rest)).map fun (l, r) => (a :: l, r)

def in6OfGroups : List Nat → Option In6Addr
  | [a, b, c, d, e, f, g, h] =>
      some ⟨UInt32.ofNat (a * 0x10000 + b), UInt32.ofNat (c * 0x10000 + d),
        UInt32.ofNat (e * 0x10000 + f), UInt32.ofNat (g * 0x10000 + h)⟩
  | _ => none

def inetPton6 (t : List UInt8) : Option In6Addr :=
  match splitDouble t with
  | none => (hexGroups t).bind in6OfGroups
  | some (l, r) =>
      (hexGroups l).bind fun l => (hexGroups r).bind fun r =>
        if l.length + r.length ≤ 7 then
          in6OfGroups (l ++ List.replicate (8 - (l.length + r.length)) 0 ++ r)
        else none

section Groups

theorem hexValue_hexDigit {n : Nat} (h : n < 16) : hexValue (hexDigit n) = some n := by
  have all : ∀ n : Fin 16, hexValue (hexDigit n) = some n.val := by decide
  exact all ⟨n, h⟩

theorem hexDigit_ne_colon {n : Nat} (h : n < 16) : hexDigit n ≠ COLON := by
  have all : ∀ n : Fin 16, hexDigit n.val ≠ COLON := by decide
  exact all ⟨n, h⟩

theorem hexGroup_hex2 (a b : UInt8) :
    hexGroup (hex2 a ++ hex2 b) = some (a.toNat * 0x100 + b.toNat) := by
  have ha := a.toNat_lt
  have hb := b.toNat_lt
  have a1 := hexValue_hexDigit (n := a.toNat / 16) (by omega)
  have a2 := hexValue_hexDigit (n := a.toNat % 16) (by omega)
  have b1 := hexValue_hexDigit (n := b.toNat / 16) (by omega)
  have b2 := hexValue_hexDigit (n := b.toNat % 16) (by omega)
  simp only [hexGroup, hex2, List.cons_append, List.nil_append, List.length_cons, List.length_nil,
    List.foldlM_cons, List.foldlM_nil, a1, a2, b1, b2, Option.map_some, Option.bind_eq_bind,
    Option.bind_some, Option.pure_def]
  rw [if_neg (by omega)]
  congr 1
  omega

theorem colon_not_mem_hex2 (a b : UInt8) : COLON ∉ hex2 a ++ hex2 b := by
  have ha := a.toNat_lt
  have hb := b.toNat_lt
  have a1 := hexDigit_ne_colon (n := a.toNat / 16) (by omega)
  have a2 := hexDigit_ne_colon (n := a.toNat % 16) (by omega)
  have b1 := hexDigit_ne_colon (n := b.toNat / 16) (by omega)
  have b2 := hexDigit_ne_colon (n := b.toNat % 16) (by omega)
  simp [hex2, a1.symm, a2.symm, b1.symm, b2.symm]

theorem be32_memoryOf (a b c d : UInt8) :
    be32 (memoryOf [a, b, c, d]) 0 =
      UInt32.ofNat ((a.toNat * 0x100 + b.toNat) * 0x10000 + (c.toNat * 0x100 + d.toNat)) := by
  have read : be32 (memoryOf [a, b, c, d]) 0 = long (load .big a b) (load .big c d) := rfl
  rw [read, long, toNat_load, toNat_load, word, word, Nat.mul_comm 256, Nat.mul_comm 256]

theorem inetPton6_groupText (md5 : List UInt8 → Digest) (buf : List UInt8) :
    inetPton6 (groupText (md5 (buf.take (buf.headD 0).toNat)) none) =
      some (nodeinfoGroup md5 buf) := by
  generalize hd : md5 (buf.take (buf.headD 0).toNat) = digest
  have text : groupText digest none =
      [0x66, 0x66, 0x30, 0x32] ++ COLON :: COLON :: ([0x32] ++ COLON ::
        ((hex2 (digest 0) ++ hex2 (digest 1)) ++
          COLON :: (hex2 (digest 2) ++ hex2 (digest 3)))) := by
    simp [groupText, groupStart, COLON]
  have double : splitDouble (groupText digest none) = some ([0x66, 0x66, 0x30, 0x32],
      [0x32] ++ COLON ::
        ((hex2 (digest 0) ++ hex2 (digest 1)) ++
          COLON :: (hex2 (digest 2) ++ hex2 (digest 3)))) := by
    rw [text]
    rfl
  have front : hexGroups [0x66, 0x66, 0x30, 0x32] = some [0xff02] := by decide
  have two : hexGroup [0x32] = some 2 := by decide
  have back : hexGroups ([0x32] ++ COLON ::
      ((hex2 (digest 0) ++ hex2 (digest 1)) ++ COLON :: (hex2 (digest 2) ++ hex2 (digest 3)))) =
      some [2, (digest 0).toNat * 0x100 + (digest 1).toNat,
        (digest 2).toNat * 0x100 + (digest 3).toNat] := by
    rw [hexGroups, if_neg (by simp),
      List.splitOn_append_cons_self_of_not_mem (by decide),
      List.splitOn_append_cons_self_of_not_mem (colon_not_mem_hex2 _ _),
      List.splitOn_eq_singleton (colon_not_mem_hex2 _ _)]
    simp [two, hexGroup_hex2]
  rw [inetPton6, double]
  simp only [front, back, Option.bind_some, nodeinfoGroup, hd, be32_memoryOf]
  rfl

end Groups

section Names

def bare (name : List UInt8) : List UInt8 :=
  if name.getLast? = some DOT then name.dropLast else name

def SameName (given host : List UInt8) : Prop := (bare given).map lowered = (bare host).map lowered

instance (given host : List UInt8) : Decidable (SameName given host) :=
  inferInstanceAs (Decidable (_ = _))

/-- `dn_comp` with no name to point to: each label behind its length, then the root. -/
def StandardDnComp (dnComp : List UInt8 → Nat → Option (List UInt8)) : Prop :=
  ∀ ls, ls ≠ [] → (∀ l ∈ ls, IsLabel l) → ∀ buflen, (wire ls).length + 1 ≤ buflen →
    (wire ls).length + 1 ≤ MAX_DNSNAME_SIZE →
    dnComp ([DOT].intercalate ls) buflen = some (wire ls ++ [0]) ∧
      dnComp ([DOT].intercalate ls ++ [DOT]) buflen = some (wire ls ++ [0])

variable {ls : List (List UInt8)}

theorem bare_append_dot (name : List UInt8) : bare (name ++ [DOT]) = name := by
  simp [bare]

theorem eq_bare_or (name : List UInt8) : name = bare name ∨ name = bare name ++ [DOT] := by
  by_cases dotted : name.getLast? = some DOT
  · refine .inr ?_
    rw [bare, if_pos dotted]
    exact (List.dropLast_append_getLast? DOT dotted).symm
  · exact .inl (by rw [bare, if_neg dotted])

theorem map_lowered_intercalate (ls : List (List UInt8)) :
    ([DOT].intercalate ls).map lowered = [DOT].intercalate (ls.map (List.map lowered)) := by
  have dot : lowered DOT = DOT := by decide
  induction ls with
  | nil => rfl
  | cons l rest ih =>
      cases rest with
      | nil => simp [List.intercalate]
      | cons m rest =>
          simp only [List.intercalate_cons_cons, List.map_append, List.map_cons, List.map_nil, dot,
            ih]

theorem getLast?_intercalate (some : ls ≠ []) (all : ∀ l ∈ ls, l ≠ [] ∧ DOT ∉ l) :
    ([DOT].intercalate ls).getLast? ≠ Option.some DOT := by
  induction ls with
  | nil => exact absurd rfl some
  | cons l rest ih =>
      cases rest with
      | nil =>
          intro last
          have mem := List.mem_of_getLast? last
          simp only [List.intercalate_singleton] at mem
          exact (all l (by simp)).2 mem
      | cons m rest =>
          have tail := ih (by simp) (fun l hl => all l (by simp [hl]))
          have more : [DOT].intercalate (m :: rest) ≠ [] := by
            have size := length_wire (List.cons_ne_nil m rest)
            have first := List.length_pos_of_ne_nil (all m (by simp)).1
            intro nil
            rw [nil, wire_cons] at size
            simp only [List.length_cons, List.length_append, List.length_nil] at size
            omega
          rw [List.intercalate_cons_cons, List.getLast?_append_of_ne_nil _ more]
          exact tail

theorem bytes_apart {c : UInt8} (h : isalnum c = true ∨ c = HYPHEN) :
    c ≠ DOT ∧ c ≠ SCOPE_DELIMITER ∧ (isalnum (lowered c) = true ∨ lowered c = HYPHEN) := by
  have all : ∀ n : Fin 256, (isalnum (UInt8.ofFin n) = true ∨ UInt8.ofFin n = HYPHEN) →
      UInt8.ofFin n ≠ DOT ∧ UInt8.ofFin n ≠ SCOPE_DELIMITER ∧
        (isalnum (lowered (UInt8.ofFin n)) = true ∨ lowered (UInt8.ofFin n) = HYPHEN) := by
    decide +kernel
  exact all c.toFin h

theorem isLabel_lowered {l : List UInt8} (h : IsLabel l) : IsLabel (l.map lowered) where
  nonempty := by simpa using h.nonempty
  short := by simpa using h.short
  bytes := by
    intro c hc
    obtain ⟨b, hb, rfl⟩ := List.mem_map.mp hc
    exact (bytes_apart (h.bytes b hb)).2.2

theorem accepted_spec {host : List UInt8} (accepted : nodename host ≠ []) :
    ∃ ls, ls ≠ [] ∧ (∀ l ∈ ls, IsLabel l) ∧ (bare host).map lowered = [DOT].intercalate ls ∧
      (wire ls).length + 1 ≤ MAX_DNSNAME_SIZE ∧
      ∃ t, Terminator t ∧ nodename host = wire ls ++ t := by
  cases encoded : encodeDnsname host MAX_DNSNAME_SIZE 0 with
  | none => simp [nodename, encoded] at accepted
  | some buf =>
      have name : nodename host = buf := by simp [nodename, encoded]
      rw [name] at accepted ⊢
      obtain ⟨ls, some, all, forms, size⟩ := encodeDnsname_spec encoded accepted
      have joined := @List.intercalate_splitOn _ host _ _ DOT
      have apart : ∀ l ∈ ls, l ≠ [] ∧ DOT ∉ l := by
        intro l hl
        refine ⟨(all l hl).nonempty, ?_⟩
        intro dot
        exact (bytes_apart ((all l hl).bytes DOT dot)).1 rfl
      refine ⟨ls.map (List.map lowered), by simpa using some, ?_, ?_, ?_, ?_⟩
      · intro l hl
        obtain ⟨m, hm, rfl⟩ := List.mem_map.mp hl
        exact isLabel_lowered (all m hm)
      · rw [← map_lowered_intercalate]
        rcases forms with ⟨split, -⟩ | ⟨split, -⟩
        · rw [split] at joined
          rw [← joined, bare, if_neg (getLast?_intercalate some apart)]
        · rw [split, intercalate_append_nil some] at joined
          rw [← joined, bare_append_dot]
      · rcases forms with ⟨-, rfl⟩ | ⟨-, rfl⟩
        · simp only [List.length_append, List.length_cons, List.length_nil] at size
          omega
        · simpa using size
      · rcases forms with ⟨-, rfl⟩ | ⟨-, rfl⟩
        · exact ⟨[0, 0], .inr rfl, rfl⟩
        · exact ⟨[0], .inl rfl, rfl⟩

/-- No byte of a name that folds to joined labels starts a scope. -/
theorem no_scope {name : List UInt8} (all : ∀ l ∈ ls, IsLabel l)
    (folded : name.map lowered = [DOT].intercalate ls ∨
      name.map lowered = [DOT].intercalate ls ++ [DOT]) : SCOPE_DELIMITER ∉ name := by
  intro mem
  have fold : lowered SCOPE_DELIMITER = SCOPE_DELIMITER := by decide
  have image : SCOPE_DELIMITER ∈ name.map lowered := fold ▸ List.mem_map_of_mem mem
  have dot : SCOPE_DELIMITER ≠ DOT := by decide
  have inside : SCOPE_DELIMITER ∈ [DOT].intercalate ls := by
    rcases folded with joined | joined
    · exact joined ▸ image
    · rw [joined] at image
      simpa [dot] using image
  clear folded image mem
  induction ls with
  | nil => simp at inside
  | cons l rest ih =>
      simp only [List.mem_cons, forall_eq_or_imp] at all
      have here : SCOPE_DELIMITER ∉ l :=
        fun hl => (bytes_apart (all.1.bytes _ hl)).2.1 rfl
      cases rest with
      | nil => exact here (by simpa using inside)
      | cons m rest =>
          rw [List.intercalate_cons_cons] at inside
          simp only [List.mem_append, List.mem_singleton, here, dot, false_or] at inside
          exact ih all.2 inside

theorem nodeinfoGroup_terminator (md5 : List UInt8 → Digest) (some : ls ≠ [])
    (all : ∀ l ∈ ls, IsLabel l) (t u : List UInt8) :
    nodeinfoGroup md5 (wire ls ++ t) = nodeinfoGroup md5 (wire ls ++ u) := by
  cases ls with
  | nil => exact absurd rfl some
  | cons l rest =>
      have short := (all l (by simp)).short
      have count : (UInt8.ofNat l.length).toNat ≤ (wire (l :: rest)).length := by
        have exact_ : (UInt8.ofNat l.length).toNat = l.length := by
          simp only [UInt8.toNat_ofNat']
          omega
        rw [exact_, wire_cons]
        simp only [List.length_cons, List.length_append]
        omega
      have hashed (v : List UInt8) :
          (wire (l :: rest) ++ v).take ((wire (l :: rest) ++ v).headD 0).toNat =
            (wire (l :: rest)).take (UInt8.ofNat l.length).toNat := by
        have head : (wire (l :: rest) ++ v).headD 0 = UInt8.ofNat l.length := rfl
        rw [head, List.take_append_of_le_length count]
      rw [nodeinfoGroup, nodeinfoGroup, hashed, hashed]

theorem subjectNameHandler_eq (lib : Libraries) (data : Int) (q : Niquery) (name : List UInt8)
    (free : q.niSubject.isSome = true → 0 ≤ q.niSubjectType → q.niSubjectType = NI_SUBJ_NAME)
    {whole buf : List UInt8} (idn : lib.idn name = some whole) (unscoped : SCOPE_DELIMITER ∉ whole)
    (compressed : lib.dnComp (whole.map lowered) (whole.length + 3 + 1) = some buf)
    (fits : buf.length < whole.length + 3 + 1) :
    ∃ tail : List UInt8, (tail = [] ∨ tail = [0]) ∧
      subjectNameHandler lib true data q name = .ok
        { niSubject := some (buf ++ tail)
          niSubjectType := NI_SUBJ_NAME
          niGroup := some (groupText (lib.md5 (buf.take (buf.headD 0).toNat)) none) } := by
  have kind : niquerySetSubjectType q NI_SUBJ_NAME =
      .ok { q with niSubjectType := NI_SUBJ_NAME } := by
    rw [niquerySetSubjectType, if_neg]
    rintro ⟨⟨type, subject⟩, other⟩
    exact other (free subject type)
  have idnName : whole.takeWhile (· ≠ SCOPE_DELIMITER) = whole := by
    refine List.takeWhile_eq_self_iff.mpr ?_
    intro c hc
    simp only [ne_eq, decide_eq_true_eq]
    rintro rfl
    exact unscoped hc
  refine ⟨if (if data = 0 then (if whole.count DOT ≠ 0 then 1 else -1) else data : Int) < 0
    then [0] else [], ?_, ?_⟩
  · split_ifs <;> simp
  · simp only [subjectNameHandler, kind, idn, idnName, unscoped, if_false, compressed,
      Nat.not_le.mpr fits, not_true_eq_false]
    rfl

/-- The option and `ninfod` agree on every host name that `ninfod` accepts, in any
letter case and with or without a trailing dot: the query goes to the group that
was joined, and its subject compares equal to the node name. -/
theorem subject_name_agrees (lib : Libraries) (standard : StandardDnComp lib.dnComp) (data : Int)
    (q : Niquery)
    (free : q.niSubject.isSome = true → 0 ≤ q.niSubjectType → q.niSubjectType = NI_SUBJ_NAME)
    (host given : List UInt8) (accepted : nodename host ≠ []) (same : SameName given host)
    (plain : ∃ whole, lib.idn given = some whole ∧ whole.map lowered = given.map lowered) :
    ∃ q' text subject, subjectNameHandler lib true data q given = .ok q' ∧
      q'.niGroup = some text ∧ q'.niSubject = some subject ∧
      inetPton6 text = some (nodeinfoGroup lib.md5 (nodename host)) ∧
      ∀ fuel, subject.length ≤ fuel →
        compareDnsname fuel (memoryOf subject) subject.length (memoryOf (nodename host))
          (nodename host).length = some 0 := by
  obtain ⟨ls, some, all, labels, size, t, ends, encoded⟩ := accepted_spec accepted
  obtain ⟨whole, idn, fold⟩ := plain
  have dot : lowered DOT = DOT := by decide
  have canon : whole.map lowered = [DOT].intercalate ls ∨
      whole.map lowered = [DOT].intercalate ls ++ [DOT] := by
    rw [fold]
    have body : (bare given).map lowered = [DOT].intercalate ls := same.trans labels
    rcases eq_bare_or given with plain | dotted
    · exact .inl (by rw [plain, body])
    · exact .inr (by rw [dotted, List.map_append, body, List.map_singleton, dot])
  have unscoped := no_scope all canon
  have length : (wire ls).length ≤ whole.length + 1 := by
    have joined := length_wire some
    have count : (whole.map lowered).length = whole.length := List.length_map _
    rcases canon with h | h
    · rw [h] at count
      omega
    · rw [h, List.length_append] at count
      omega
  have compressed : lib.dnComp (whole.map lowered) (whole.length + 3 + 1) =
      Option.some (wire ls ++ [0]) := by
    obtain ⟨short, long⟩ := standard ls some all (whole.length + 3 + 1) (by omega) size
    rcases canon with h | h
    · rw [h, short]
    · rw [h, long]
  obtain ⟨tail, tailEnds, handled⟩ := subjectNameHandler_eq lib data q given free idn unscoped
    compressed (by simp only [List.length_append, List.length_singleton]; omega)
  refine ⟨_, _, _, handled, rfl, rfl, ?_, ?_⟩
  · rw [inetPton6_groupText, encoded, nodeinfoGroup_terminator lib.md5 some all [0] t]
  · intro fuel enough
    have subject : Terminator ([0] ++ tail) := by
      rcases tailEnds with rfl | rfl
      · exact .inl rfl
      · exact .inr rfl
    have short : ∀ l ∈ ls, l ≠ [] ∧ l.length < 0x40 :=
      fun l hl => ⟨(all l hl).nonempty, (all l hl).short⟩
    rw [encoded, List.append_assoc] at *
    exact compareDnsname_same subject ends ls short fuel enough

/-- `dn_comp` on names without escapes. -/
def plainDnComp (name : List UInt8) (buflen : Nat) : Option (List UInt8) :=
  let ls := (bare name).splitOn DOT
  if (ls.all fun l => l.length ≠ 0 ∧ l.length < 0x40) ∧ (wire ls).length + 1 ≤ buflen then
    some (wire ls ++ [0])
  else none

theorem standard_plainDnComp : StandardDnComp plainDnComp := by
  intro ls some all buflen fits _
  have apart : ∀ l ∈ ls, l ≠ [] ∧ DOT ∉ l := by
    intro l hl
    refine ⟨(all l hl).nonempty, ?_⟩
    intro dot
    exact (bytes_apart ((all l hl).bytes DOT dot)).1 rfl
  have split : ([DOT].intercalate ls).splitOn DOT = ls :=
    List.splitOn_intercalate DOT (fun l hl => (apart l hl).2) some
  have sizes : (ls.all fun l => l.length ≠ 0 ∧ l.length < 0x40) = true := by
    rw [List.all_eq_true]
    intro l hl
    simpa using ⟨(all l hl).nonempty, (all l hl).short⟩
  have undotted : bare ([DOT].intercalate ls) = [DOT].intercalate ls := by
    rw [bare, if_neg (getLast?_intercalate some apart)]
  constructor
  · simp only [plainDnComp, undotted, split]
    exact if_pos ⟨sizes, fits⟩
  · simp only [plainDnComp, bare_append_dot, split]
    exact if_pos ⟨sizes, fits⟩

/-- `Host.example`, asked for as `HOST.Example.`; the digest is that of the
four bytes that both sides hash. -/
theorem subject_name_agrees_example :
    let lib : Libraries :=
      ⟨fun name => some (name.map lowered), plainDnComp, fun _ =>
        ![0x5b, 0x71, 0x14, 0xb9, 0xf8, 0xb7, 0xec, 0x0f, 0x8c, 0xce, 0x2d, 0xf9, 0x18, 0x12, 0x77,
          0x49]⟩
    let host : List UInt8 :=
      [0x48, 0x6f, 0x73, 0x74, 0x2e, 0x65, 0x78, 0x61, 0x6d, 0x70, 0x6c, 0x65]
    let given : List UInt8 :=
      [0x48, 0x4f, 0x53, 0x54, 0x2e, 0x45, 0x78, 0x61, 0x6d, 0x70, 0x6c, 0x65, 0x2e]
    ∃ q' text subject, subjectNameHandler lib true 0 ⟨none, -1, none⟩ given = .ok q' ∧
      q'.niGroup = some text ∧ q'.niSubject = some subject ∧
      inetPton6 text = some (nodeinfoGroup lib.md5 (nodename host)) ∧
      ∀ fuel, subject.length ≤ fuel →
        compareDnsname fuel (memoryOf subject) subject.length (memoryOf (nodename host))
          (nodename host).length = some 0 := by
  intro lib host given
  exact subject_name_agrees lib standard_plainDnComp 0 ⟨none, -1, none⟩ (by simp) host given
    (by decide) (by decide) ⟨given.map lowered, rfl, by decide⟩

end Names

end Baseliner.Ping6SubjectName
