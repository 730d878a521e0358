import Baseliner.DecimalText
import Baseliner.SegmentedNames

/-! The parameter file of the DC benchmark. `ParseParFile` looks for the keywords of `adcKeyword`
anywhere in a line and takes the first that it finds; what it assigns then is decided by a
`switch` over the keyword's place in the table. `WriteADCPar` writes six lines. A step that reads
behind the end of a line or leaves the file name unset is `none`. -/

namespace Baseliner.AdcParameters

open DecimalText SegmentedNames

def BlockSize : ℕ := 1024

@[ext] structure AdcPar where
  ndid : ℤ
  dim : ℤ
  mnum : ℤ
  tuplenum : ℤ
  inverseEndian : ℤ
  filename : List Char
  clss : Char
  deriving DecidableEq

def initADCpar : AdcPar := ⟨0, 5, 1, 100, 0, ['A', 'D', 'C'], 'U'⟩

def attrNum : List Char := ['a', 't', 't', 'r', 'N', 'u', 'm']
def measuresNum : List Char := ['m', 'e', 'a', 's', 'u', 'r', 'e', 's', 'N', 'u', 'm']
def tuplesNum : List Char := ['t', 'u', 'p', 'l', 'e', 's', 'N', 'u', 'm']
def INVERSE_ENDIAN : List Char :=
  ['I', 'N', 'V', 'E', 'R', 'S', 'E', '_', 'E', 'N', 'D', 'I', 'A', 'N']
def fileName : List Char := ['f', 'i', 'l', 'e', 'N', 'a', 'm', 'e']
def className : List Char := ['c', 'l', 'a', 's', 's']

def adcKeyword : List (List Char) :=
  [attrNum, measuresNum, tuplesNum, INVERSE_ENDIAN, fileName, className]

section Reading

/-- The pieces that `fgets` reads one after the other. -/
def chunks (chunk : List Char) : List Char → List (List Char)
  | [] => if chunk = [] then [] else [chunk]
  | c :: text =>
      if c = '\n' ∨ chunk.length + 1 = BlockSize - 1 then (chunk ++ [c]) :: chunks [] text
      else chunks (chunk ++ [c]) text

def firstKeyword (line : List Char) (i : ℕ) : List (List Char) → Option ℕ
  | [] => none
  | kwd :: rest => if kwd <:+: line then some i else firstKeyword line (i + 1) rest

/-- `line+strlen(kwd)+1`, when that is not behind the end of the string. -/
def behind (line kwd : List Char) : Option (List Char) :=
  if kwd.length < line.length then some (line.drop (kwd.length + 1)) else none

def scanLong (pos : List Char) (old : ℤ) : ℤ := (strtol pos).getD old

def scanInt (pos : List Char) (old : ℤ) : ℤ :=
  ((strtol pos).map fun x => x.bmod (2 ^ 32)).getD old

/-- The `switch`. The name is read into `strlen(pos)` bytes. -/
def assign (par : AdcPar) : ℕ → List Char → Option AdcPar
  | 0, pos => some { par with dim := scanInt pos par.dim }
  | 1, pos => some { par with mnum := scanInt pos par.mnum }
  | 2, pos => some { par with tuplenum := scanLong pos par.tuplenum }
  | 3, _ => some par
  | 4, pos => some { par with inverseEndian := scanInt pos par.inverseEndian }
  | 5, pos =>
      match words pos with
      | [] => none
      | name :: _ => if pos.length < name.length + 1 then none
          else some { par with filename := name }
  | 6, pos => some { par with clss := pos.headD par.clss }
  | _, _ => some par

def readLine (par : AdcPar) (line : List Char) : Option AdcPar :=
  if '#' ∈ line then some par
  else match firstKeyword line 0 adcKeyword with
    | none => some par
    | some i =>
        match behind line (adcKeyword.getD i []) with
        | none => if i = 3 then some par else none
        | some pos => assign par i pos

def readLines (par : AdcPar) : List (List Char) → Option AdcPar
  | [] => some par
  | line :: rest =>
      match readLine par line with
      | none => none
      | some par => readLines par rest

/-- `strchr` for a dot, and what is behind it. -/
def behindDot (s : List Char) : Option (List Char) :=
  match s.dropWhile (· ≠ '.') with
  | [] => none
  | _ :: s => some s

def readNdid (parfname : List Char) (par : AdcPar) : AdcPar :=
  match (behindDot parfname).bind behindDot with
  | none => par
  | some pos => { par with ndid := scanInt pos par.ndid }

def byClass (par : AdcPar) : AdcPar :=
  match par.clss with
  | 'S' => { par with dim := 5, mnum := 1, tuplenum := 1000 }
  | 'W' => { par with dim := 10, mnum := 1, tuplenum := 100000 }
  | 'A' => { par with dim := 15, mnum := 1, tuplenum := 1000000 }
  | 'B' => { par with dim := 20, mnum := 1, tuplenum := 10000000 }
  | _ => par

def parseParFile (parfname text : List Char) (par : AdcPar) : Option AdcPar :=
  (readLines (readNdid parfname par) (chunks [] text)).map byClass

end Reading

section Writing

def entry (key value : List Char) : List Char := key ++ '=' :: (value ++ ['\n'])

def writeADCPar (par : AdcPar) : List Char :=
  entry attrNum (decimal par.dim) ++ entry measuresNum (decimal par.mnum) ++
    entry tuplesNum (decimal par.tuplenum) ++ entry className [par.clss] ++
      entry INVERSE_ENDIAN (decimal par.inverseEndian) ++ entry fileName par.filename

inductive Setting where
  | dim (x : ℤ)
  | mnum (x : ℤ)
  | tuplenum (x : ℤ)
  | inverseEndian (x : ℤ)
  | filename (name : List Char)
  | clss (c : Char)

namespace Setting

/-- The line that `WriteADCPar` writes for the field. -/
def line : Setting → List Char
  | dim x => entry attrNum (decimal x)
  | mnum x => entry measuresNum (decimal x)
  | tuplenum x => entry tuplesNum (decimal x)
  | inverseEndian x => entry INVERSE_ENDIAN (decimal x)
  | filename name => entry fileName name
  | clss c => entry className [c]

def apply (par : AdcPar) : Setting → AdcPar
  | dim x => { par with dim := x }
  | mnum x => { par with mnum := x }
  | tuplenum x => { par with tuplenum := x }
  | inverseEndian x => { par with inverseEndian := x }
  | filename name => { par with filename := name }
  | clss c => { par with clss := c }

def IsInt (x : ℤ) : Prop := -2 ^ 31 ≤ x ∧ x < 2 ^ 31

instance (x : ℤ) : Decidable (IsInt x) := inferInstanceAs (Decidable (_ ∧ _))

/-- A value of the field's type; names have no blanks and no comment sign. -/
def Valid : Setting → Prop
  | dim x | mnum x | inverseEndian x => IsInt x
  | tuplenum x => -2 ^ 63 ≤ x ∧ x < 2 ^ 63
  | filename name => name ≠ [] ∧ ∀ c ∈ name, isSpace c = false ∧ c ≠ '#'
  | clss c => isSpace c = false ∧ c ≠ '#'

/-- The keys whose place in the table is that of their branch. -/
def InPlace : Setting → Prop
  | dim _ | mnum _ | tuplenum _ => True
  | _ => False

end Setting

end Writing

section Keywords

theorem firstKeyword_congr {line other : List Char} {kwds : List (List Char)} (i : ℕ)
    (same : ∀ kwd ∈ kwds, kwd <:+: line ↔ kwd <:+: other) :
    firstKeyword line i kwds = firstKeyword other i kwds := by
  induction kwds generalizing i with
  | nil => rfl
  | cons kwd rest ih =>
      rw [List.forall_mem_cons] at same
      rw [firstKeyword, firstKeyword, ih (i + 1) same.2]
      simp only [same.1]

theorem keywords_plain : ∀ kwd ∈ adcKeyword, '=' ∉ kwd ∧ '\n' ∉ kwd ∧ kwd ≠ [] := by decide

theorem infix_entry {kwd key value : List Char} (known : kwd ∈ adcKeyword) :
    kwd <:+: entry key value ↔ kwd <:+: key ∨ kwd <:+: value := by
  obtain ⟨equals, newline, some⟩ := keywords_plain kwd known
  rw [entry, infix_append_sep equals, infix_append_sep newline, List.infix_nil]
  simp only [some, or_false]

theorem firstKeyword_entry {key value : List Char}
    (plain : ∀ kwd ∈ adcKeyword, ¬ kwd <:+: value) :
    firstKeyword (entry key value) 0 adcKeyword = firstKeyword key 0 adcKeyword := by
  refine firstKeyword_congr 0 fun kwd known => ?_
  rw [infix_entry known]
  exact or_iff_left (plain kwd known)

theorem decimal_plain (x : ℤ) : ∀ kwd ∈ adcKeyword, ¬ kwd <:+: decimal x := by
  intro kwd known inside
  have letters : ∀ kwd ∈ adcKeyword, (kwd.any fun c => c ≠ '-' && !c.isDigit) = true := by decide
  obtain ⟨c, member, letter⟩ := List.any_eq_true.mp (letters kwd known)
  rw [Bool.and_eq_true, decide_eq_true_eq, Bool.not_eq_true'] at letter
  rcases mem_decimal (inside.subset member) with sign | number
  · exact letter.1 sign
  · rw [letter.2] at number
    cases number

theorem char_plain (c : Char) : ∀ kwd ∈ adcKeyword, ¬ kwd <:+: [c] := by
  intro kwd known inside
  have long : ∀ kwd ∈ adcKeyword, 1 < kwd.length := by decide
  have short := inside.length_le
  have := long kwd known
  rw [List.length_singleton] at short
  omega

theorem firstKeyword_fileName {line : List Char} (named : fileName <:+: line) :
    ∃ i ≤ 4, firstKeyword line 0 adcKeyword = some i := by
  simp only [adcKeyword, firstKeyword]
  split_ifs
  · exact ⟨0, by omega, rfl⟩
  · exact ⟨1, by omega, rfl⟩
  · exact ⟨2, by omega, rfl⟩
  · exact ⟨3, by omega, rfl⟩
  · exact ⟨4, by omega, rfl⟩

theorem firstKeyword_lt (line : List Char) {i : ℕ}
    (found : firstKeyword line 0 adcKeyword = some i) : i < 6 := by
  simp only [adcKeyword, firstKeyword] at found
  split_ifs at found <;> cases found <;> omega

end Keywords

section Lines

variable {par par' : AdcPar}

theorem behind_entry (key value : List Char) :
    behind (entry key value) key = some (value ++ ['\n']) := by
  rw [behind, entry, if_pos (by simp), List.drop_length_add_append]
  rfl

theorem readLine_entry {key value : List Char} {i : ℕ} (sign : '#' ∉ entry key value)
    (found : firstKeyword (entry key value) 0 adcKeyword = some i)
    (place : adcKeyword.getD i [] = key) :
    readLine par (entry key value) = assign par i (value ++ ['\n']) := by
  rw [readLine, if_neg sign, found]
  dsimp only
  rw [place, behind_entry]

theorem readLine_cases {line : List Char} (read : readLine par line = some par') :
    par' = par ∨ ∃ i pos, firstKeyword line 0 adcKeyword = some i ∧
      behind line (adcKeyword.getD i []) = some pos ∧ assign par i pos = some par' := by
  rw [readLine] at read
  split_ifs at read with sign
  · exact .inl (Option.some.inj read).symm
  · cases found : firstKeyword line 0 adcKeyword with
    | none =>
        rw [found] at read
        exact .inl (Option.some.inj read).symm
    | some i =>
        rw [found] at read
        dsimp only at read
        cases here : behind line (adcKeyword.getD i []) with
        | none =>
            rw [here] at read
            dsimp only at read
            split_ifs at read
            exact .inl (Option.some.inj read).symm
        | some pos =>
            rw [here] at read
            exact .inr ⟨i, pos, rfl, here, read⟩

theorem assign_keeps {i : ℕ} {pos : List Char} (done : assign par i pos = some par') :
    (i ≠ 4 → par'.inverseEndian = par.inverseEndian) ∧ (i ≠ 5 → par'.filename = par.filename) ∧
      (i ≠ 6 → par'.clss = par.clss) := by
  unfold assign at done
  split at done
  case h_6 =>
    split at done
    · cases done
    · split_ifs at done
      cases done
      simp
  all_goals
    cases done
    simp

theorem readLine_clss {line : List Char} (read : readLine par line = some par') :
    par'.clss = par.clss := by
  rcases readLine_cases read with rfl | ⟨i, pos, found, _, done⟩
  · rfl
  · have below := firstKeyword_lt line found
    exact (assign_keeps done).2.2 (by omega)

theorem readLine_filename {line : List Char} (read : readLine par line = some par') :
    par'.filename = par.filename ∨
      ¬ fileName <:+: line ∧ par'.filename.length + 6 ≤ line.length := by
  rcases readLine_cases read with rfl | ⟨i, pos, found, here, done⟩
  · exact .inl rfl
  · by_cases last : i = 5
    · subst last
      have unnamed : ¬ fileName <:+: line := fun named => by
        obtain ⟨j, most, other⟩ := firstKeyword_fileName named
        rw [found] at other
        cases other
        omega
      have length : pos.length + 6 = line.length := by
        rw [behind] at here
        split_ifs at here with inside
        obtain rfl := Option.some.inj here
        rw [List.length_drop]
        have key : (adcKeyword.getD 5 []).length = 5 := rfl
        omega
      rw [assign] at done
      split at done
      · cases done
      · split_ifs at done
        obtain rfl := Option.some.inj done
        exact .inr ⟨unnamed, by dsimp only; omega⟩
    · exact .inl ((assign_keeps done).2.1 last)

end Lines

section Settings

variable {par par' : AdcPar}

theorem noSign_entry {key value : List Char} (known : key ∈ adcKeyword) (sign : '#' ∉ value) :
    '#' ∉ entry key value := by
  have keys : ∀ kwd ∈ adcKeyword, '#' ∉ kwd := by decide
  simp [entry, keys key known, sign]

theorem noSign_decimal (x : ℤ) : '#' ∉ decimal x := fun member => by
  rcases mem_decimal member with same | digit
  · exact absurd same (by decide)
  · exact absurd digit (by decide)

theorem scan_decimal {x : ℤ} (low : -2 ^ 63 ≤ x) (high : x < 2 ^ 63) :
    strtol (decimal x ++ ['\n']) = some x :=
  strtol_decimal low high (ends_cons (by decide) [])

theorem scanInt_decimal {x : ℤ} (int : Setting.IsInt x) (old : ℤ) :
    scanInt (decimal x ++ ['\n']) old = x := by
  obtain ⟨low, high⟩ := int
  rw [scanInt, scan_decimal (by omega) (by omega)]
  exact Int.bmod_eq_of_le (by omega) (by omega)

theorem readLine_decimal {key : List Char} {i : ℕ} (known : key ∈ adcKeyword)
    (found : firstKeyword key 0 adcKeyword = some i) (place : adcKeyword.getD i [] = key) (x : ℤ) :
    readLine par (entry key (decimal x)) = assign par i (decimal x ++ ['\n']) :=
  readLine_entry (noSign_entry known (noSign_decimal x))
    (by rw [firstKeyword_entry (decimal_plain x), found]) place

theorem readLine_inPlace {s : Setting} (valid : s.Valid) (place : s.InPlace) :
    readLine par s.line = some (s.apply par) := by
  cases s with
  | dim x =>
      rw [Setting.line, @readLine_decimal par attrNum 0 (by decide) (by decide) rfl, assign,
        scanInt_decimal valid, Setting.apply]
  | mnum x =>
      rw [Setting.line, @readLine_decimal par measuresNum 1 (by decide) (by decide) rfl, assign,
        scanInt_decimal valid, Setting.apply]
  | tuplenum x =>
      rw [Setting.line, @readLine_decimal par tuplesNum 2 (by decide) (by decide) rfl, assign,
        scanLong, scan_decimal valid.1 valid.2, Setting.apply]
      rfl
  | inverseEndian x => exact place.elim
  | filename name => exact place.elim
  | clss c => exact place.elim

theorem readLine_inverseEndian (x : ℤ) :
    readLine par (Setting.inverseEndian x).line = some par := by
  rw [Setting.line, @readLine_decimal par INVERSE_ENDIAN 3 (by decide) (by decide) rfl, assign]

theorem readLine_class {c : Char} (valid : (Setting.clss c).Valid) :
    readLine par (Setting.clss c).line = some { par with filename := [c] } := by
  obtain ⟨solid, sign⟩ := valid
  have token : words ([c] ++ ['\n']) = [[c]] :=
    words_append (List.cons_ne_nil c []) (by simpa using solid) (by decide) []
  have found : firstKeyword (entry className [c]) 0 adcKeyword = some 5 := by
    rw [firstKeyword_entry (char_plain c)]
    decide
  rw [Setting.line, readLine_entry (noSign_entry (by decide) (by simpa using Ne.symm sign)) found
    rfl, assign, token]
  rfl

end Settings

section Runs

variable {par par' : AdcPar}

theorem readLines_append (par : AdcPar) (front back : List (List Char)) :
    readLines par (front ++ back) = (readLines par front).bind fun par => readLines par back := by
  induction front generalizing par with
  | nil => rfl
  | cons line front ih =>
      rw [List.cons_append, readLines, readLines]
      cases readLine par line with
      | none => rfl
      | some next => exact ih next

theorem readLines_keep {P : AdcPar → Prop} {lines : List (List Char)}
    (keep : ∀ line ∈ lines, ∀ par par', readLine par line = some par' → P par → P par')
    (read : readLines par lines = some par') (start : P par) : P par' := by
  induction lines generalizing par with
  | nil =>
      obtain rfl := Option.some.inj read
      exact start
  | cons line lines ih =>
      rw [List.forall_mem_cons] at keep
      rw [readLines] at read
      cases next : readLine par line with
      | none =>
          rw [next] at read
          cases read
      | some first =>
          rw [next] at read
          exact ih keep.2 read (keep.1 par first next start)

theorem readLines_inPlace {settings : List Setting} (valid : ∀ s ∈ settings, s.Valid)
    (place : ∀ s ∈ settings, s.InPlace) (par : AdcPar) :
    readLines par (settings.map Setting.line) = some (settings.foldl Setting.apply par) := by
  induction settings generalizing par with
  | nil => rfl
  | cons s settings ih =>
      rw [List.forall_mem_cons] at valid place
      rw [List.map_cons, readLines, readLine_inPlace valid.1 place.1]
      exact ih valid.2 place.2 (s.apply par)

theorem foldl_apply_const {β : Type} (field : AdcPar → β) (given : Setting → Option β)
    (apply : ∀ par s, field (Setting.apply par s) = (given s).getD (field par))
    {settings : List Setting} (set : ∃ s ∈ settings, (given s).isSome) :
    ∃ v, ∀ par, field (settings.foldl Setting.apply par) = v := by
  induction settings with
  | nil =>
      obtain ⟨s, member, _⟩ := set
      cases member
  | cons s settings ih =>
      by_cases later : ∃ s ∈ settings, (given s).isSome
      · obtain ⟨v, const⟩ := ih later
        exact ⟨v, fun par => const (Setting.apply par s)⟩
      · have last : (given s).isSome := by
          obtain ⟨t, member, value⟩ := set
          rcases List.mem_cons.mp member with rfl | rest
          · exact value
          · exact absurd ⟨t, rest, value⟩ later
        obtain ⟨v, value⟩ := Option.isSome_iff_exists.mp last
        have kept : ∀ par, field (settings.foldl Setting.apply par) = field par := by
          clear ih set
          induction settings with
          | nil => exact fun _ => rfl
          | cons t settings ih =>
              intro par
              have none : given t = none := by
                by_contra some
                exact later ⟨t, List.mem_cons_self, Option.isSome_iff_ne_none.mpr some⟩
              rw [List.foldl_cons, ih, apply, none]
              · rfl
              · rintro ⟨u, member, some⟩
                exact later ⟨u, List.mem_cons_of_mem t member, some⟩
        refine ⟨v, fun par => ?_⟩
        rw [List.foldl_cons, kept, apply, value]
        rfl

theorem not_set {β : Type} (field : AdcPar → β) (given : Setting → Option β)
    (apply : ∀ par s, field (Setting.apply par s) = (given s).getD (field par))
    (other : ∀ v, ∃ par, field par ≠ v) {settings : List Setting}
    (keep : ∀ s ∈ settings, ∀ par par', readLine par s.line = some par' →
      field par' = field par) (set : ∃ s ∈ settings, (given s).isSome) :
    ¬ ∀ par, readLines par (settings.map Setting.line) =
      some (settings.foldl Setting.apply par) := by
  intro right
  obtain ⟨v, const⟩ := foldl_apply_const field given apply set
  obtain ⟨par, differ⟩ := other v
  have kept : field (settings.foldl Setting.apply par) = field par := by
    refine readLines_keep (P := fun p => field p = field par) ?_ (right par) rfl
    intro line member first next read same
    obtain ⟨s, inside, rfl⟩ := List.mem_map.mp member
    rw [keep s inside first next read, same]
  exact differ (kept.symm.trans (const par))

end Runs

section Fields

variable {settings : List Setting}

theorem kept_of_inPlace {par par' : AdcPar} {s : Setting} (valid : s.Valid) (place : s.InPlace)
    (read : readLine par s.line = some par') :
    par'.filename = par.filename ∧ par'.inverseEndian = par.inverseEndian := by
  rw [readLine_inPlace valid place] at read
  obtain rfl := Option.some.inj read
  cases s with
  | dim x => exact ⟨rfl, rfl⟩
  | mnum x => exact ⟨rfl, rfl⟩
  | tuplenum x => exact ⟨rfl, rfl⟩
  | inverseEndian x => exact place.elim
  | filename name => exact place.elim
  | clss c => exact place.elim

theorem filename_kept {par par' : AdcPar} {s : Setting} (valid : s.Valid)
    (noClass : ∀ c, s ≠ .clss c) (read : readLine par s.line = some par') :
    par'.filename = par.filename := by
  cases s with
  | dim x => exact (kept_of_inPlace valid trivial read).1
  | mnum x => exact (kept_of_inPlace valid trivial read).1
  | tuplenum x => exact (kept_of_inPlace valid trivial read).1
  | inverseEndian x =>
      rw [readLine_inverseEndian] at read
      rw [Option.some.inj read]
  | filename name =>
      have named : fileName <:+: (Setting.filename name).line := by
        rw [Setting.line, infix_entry (by decide)]
        exact .inl List.infix_rfl
      rcases readLine_filename read with same | ⟨unnamed, _⟩
      · exact same
      · exact absurd named unnamed
  | clss c => exact absurd rfl (noClass c)

theorem readLines_iff (valid : ∀ s ∈ settings, s.Valid) :
    (∀ par, readLines par (settings.map Setting.line) =
        some (settings.foldl Setting.apply par)) ↔ ∀ s ∈ settings, s.InPlace := by
  refine ⟨fun right => ?_, fun place par => readLines_inPlace valid place par⟩
  have noClass : ∀ s ∈ settings, ∀ c, s ≠ .clss c := by
    rintro s member c rfl
    refine not_set AdcPar.clss (fun | .clss c => some c | _ => none) ?_ ?_ ?_ ?_ right
    · rintro par (_ | _ | _ | _ | _ | _) <;> rfl
    · intro v
      by_cases same : v = 'U'
      · exact ⟨{ initADCpar with clss := 'S' }, by rw [same]; decide⟩
      · exact ⟨initADCpar, fun equal => same equal.symm⟩
    · exact fun s _ par par' read => readLine_clss read
    · exact ⟨_, member, rfl⟩
  have noName : ∀ s ∈ settings, ∀ name, s ≠ .filename name := by
    rintro s member name rfl
    refine not_set AdcPar.filename (fun | .filename name => some name | _ => none) ?_ ?_ ?_ ?_
      right
    · rintro par (_ | _ | _ | _ | _ | _) <;> rfl
    · intro v
      exact ⟨{ initADCpar with filename := 'x' :: v }, List.cons_ne_self _ _⟩
    · exact fun s inside par par' read => filename_kept (valid s inside) (noClass s inside) read
    · exact ⟨_, member, rfl⟩
  have noFlag : ∀ s ∈ settings, ∀ x, s ≠ .inverseEndian x := by
    rintro s member x rfl
    refine not_set AdcPar.inverseEndian (fun | .inverseEndian x => some x | _ => none) ?_ ?_ ?_ ?_
      right
    · rintro par (_ | _ | _ | _ | _ | _) <;> rfl
    · intro v
      exact ⟨{ initADCpar with inverseEndian := v + 1 }, by dsimp only; omega⟩
    · intro s inside par par' read
      cases s with
      | inverseEndian x =>
          rw [readLine_inverseEndian] at read
          rw [Option.some.inj read]
      | filename name => exact absurd rfl (noName _ inside name)
      | clss c => exact absurd rfl (noClass _ inside c)
      | dim x => exact (kept_of_inPlace (valid _ inside) trivial read).2
      | mnum x => exact (kept_of_inPlace (valid _ inside) trivial read).2
      | tuplenum x => exact (kept_of_inPlace (valid _ inside) trivial read).2
    · exact ⟨_, member, rfl⟩
  intro s member
  cases s with
  | dim x => trivial
  | mnum x => trivial
  | tuplenum x => trivial
  | inverseEndian x => exact noFlag _ member x rfl
  | filename name => exact noName _ member name rfl
  | clss c => exact noClass _ member c rfl

end Fields

section Chunks

theorem chunks_line {chunk body : List Char} (newline : '\n' ∉ body)
    (fits : chunk.length + body.length + 1 < BlockSize) (text : List Char) :
    chunks chunk (body ++ '\n' :: text) = (chunk ++ body ++ ['\n']) :: chunks [] text := by
  induction body generalizing chunk with
  | nil => rw [List.nil_append, chunks, if_pos (.inl rfl), List.append_nil]
  | cons c body ih =>
      rw [List.mem_cons, not_or] at newline
      rw [List.length_cons] at fits
      rw [List.cons_append, chunks, if_neg, ih newline.2 (by rw [List.length_append]; simp; omega)]
      · simp
      · rintro (same | full)
        · exact newline.1 same.symm
        · omega

theorem chunks_spec (chunk text : List Char) :
    (chunks chunk text).flatten = chunk ++ text ∧
      ∀ first rest, chunks chunk text = first :: rest → chunk <+: first := by
  induction text generalizing chunk with
  | nil =>
      rw [chunks]
      split_ifs with empty
      · exact ⟨by rw [empty]; rfl, fun _ _ same => by cases same⟩
      · refine ⟨by simp, ?_⟩
        rintro first rest ⟨⟩
        exact List.prefix_rfl
  | cons c text ih =>
      rw [chunks]
      split_ifs
      · refine ⟨by rw [List.flatten_cons, (ih []).1]; simp, ?_⟩
        rintro first rest ⟨⟩
        exact List.prefix_append _ _
      · refine ⟨by rw [(ih _).1]; simp, fun first rest same => ?_⟩
        exact (List.prefix_append _ _).trans ((ih _).2 first rest same)

theorem chunks_start {chunk body : List Char} (newline : '\n' ∉ body)
    (fits : chunk.length + body.length + 1 < BlockSize) (text : List Char) :
    chunks chunk (body ++ text) = chunks (chunk ++ body) text := by
  induction body generalizing chunk with
  | nil => rw [List.nil_append, List.append_nil]
  | cons c body ih =>
      rw [List.mem_cons, not_or] at newline
      rw [List.length_cons] at fits
      rw [List.cons_append, chunks, if_neg, ih newline.2 (by rw [List.length_append]; simp; omega)]
      · simp
      · rintro (same | full)
        · exact newline.1 same.symm
        · omega

theorem chunks_entry {key value : List Char} (known : key ∈ adcKeyword) (newline : '\n' ∉ value)
    (short : value.length ≤ 1000) (text : List Char) :
    chunks [] (entry key value ++ text) = entry key value :: chunks [] text := by
  have length : ∀ kwd ∈ adcKeyword, kwd.length ≤ 14 := by decide
  have small := length key known
  have plain := (keywords_plain key known).2.1
  have body : entry key value ++ text = (key ++ '=' :: value) ++ '\n' :: text := by
    simp [entry]
  have inside : '\n' ∉ key ++ '=' :: value := by
    simp [plain, newline]
  have block : BlockSize = 1024 := rfl
  rw [body, chunks_line inside (by simp; omega)]
  simp [entry]

theorem newline_decimal (x : ℤ) : '\n' ∉ decimal x := fun member => by
  rcases mem_decimal member with same | digit
  · exact absurd same (by decide)
  · exact absurd digit (by decide)

theorem short_decimal {x : ℤ} (low : -2 ^ 63 ≤ x) (high : x < 2 ^ 63) :
    (decimal x).length ≤ 1000 :=
  (length_decimal (k := 20) (by decide) (by omega) (by omega)).trans (by decide)

theorem chunks_setting {s : Setting} (valid : s.Valid) (noName : ∀ name, s ≠ .filename name)
    (text : List Char) : chunks [] (s.line ++ text) = s.line :: chunks [] text := by
  cases s with
  | dim x =>
      obtain ⟨low, high⟩ := valid
      exact chunks_entry (by decide) (newline_decimal x) (short_decimal (by omega) (by omega)) text
  | mnum x =>
      obtain ⟨low, high⟩ := valid
      exact chunks_entry (by decide) (newline_decimal x) (short_decimal (by omega) (by omega)) text
  | tuplenum x =>
      exact chunks_entry (by decide) (newline_decimal x) (short_decimal valid.1 valid.2) text
  | inverseEndian x =>
      obtain ⟨low, high⟩ := valid
      exact chunks_entry (by decide) (newline_decimal x) (short_decimal (by omega) (by omega)) text
  | filename name => exact absurd rfl (noName name)
  | clss c =>
      refine chunks_entry (by decide) ?_ (by simp) text
      rw [List.mem_singleton]
      rintro rfl
      exact absurd valid.1 (by decide)

theorem chunks_settings {settings : List Setting} (valid : ∀ s ∈ settings, s.Valid)
    (noName : ∀ s ∈ settings, ∀ name, s ≠ .filename name) (text : List Char) :
    chunks [] (settings.flatMap Setting.line ++ text) =
      settings.map Setting.line ++ chunks [] text := by
  induction settings with
  | nil => rfl
  | cons s settings ih =>
      rw [List.forall_mem_cons] at valid noName
      rw [List.flatMap_cons, List.append_assoc, chunks_setting valid.1 noName.1,
        ih valid.2 noName.2, List.map_cons, List.cons_append]

/-- In the pieces of a line with a file name, the first has the keyword, and no other is longer
than the name by more than two characters. -/
theorem chunks_fileName {name : List Char} {line : List Char}
    (member : line ∈ chunks [] (entry fileName name)) :
    fileName <:+: line ∨ line.length ≤ name.length + 2 := by
  have key : fileName.length = 8 := rfl
  have start : chunks [] (entry fileName name) = chunks fileName ('=' :: (name ++ ['\n'])) :=
    chunks_start (by decide) (by decide) _
  have spec := chunks_spec fileName ('=' :: (name ++ ['\n']))
  rw [start] at member
  cases pieces : chunks fileName ('=' :: (name ++ ['\n'])) with
  | nil =>
      rw [pieces] at member
      cases member
  | cons first rest =>
      rw [pieces] at member spec
      have front := spec.2 first rest rfl
      rcases List.mem_cons.mp member with rfl | later
      · exact .inl front.isInfix
      · have total := congrArg List.length spec.1
        have inside := List.Sublist.length_le (List.sublist_flatten_of_mem later)
        have head := front.length_le
        simp only [List.flatten_cons, List.length_append, List.length_cons,
          List.length_nil] at total
        exact .inr (by omega)

end Chunks

section RoundTrip

/-- Parameters that `WriteADCPar` can be given, with the class `U`. -/
structure Plain (par : AdcPar) : Prop where
  dim : Setting.IsInt par.dim
  mnum : Setting.IsInt par.mnum
  tuplenum : -2 ^ 63 ≤ par.tuplenum ∧ par.tuplenum < 2 ^ 63
  inverseEndian : Setting.IsInt par.inverseEndian
  filename : par.filename ≠ [] ∧ ∀ c ∈ par.filename, isSpace c = false ∧ c ≠ '#'
  clss : par.clss = 'U'

/-- Everything but the number of the data set is what it was. -/
def Restored (parfname : List Char) (par : AdcPar) : Prop :=
  ∃ r, parseParFile parfname (writeADCPar par) initADCpar = some r ∧
    r = { par with ndid := r.ndid }

def frontSettings (par : AdcPar) : List Setting :=
  [.dim par.dim, .mnum par.mnum, .tuplenum par.tuplenum, .clss par.clss,
    .inverseEndian par.inverseEndian]

theorem writeADCPar_eq (par : AdcPar) : writeADCPar par =
    (frontSettings par).flatMap Setting.line ++ entry fileName par.filename := by
  simp [writeADCPar, frontSettings, Setting.line]

variable {par : AdcPar}

theorem Plain.frontValid (h : Plain par) : ∀ s ∈ frontSettings par, s.Valid := by
  simp only [frontSettings, List.forall_mem_cons, Setting.Valid, h.clss]
  exact ⟨h.dim, h.mnum, h.tuplenum, by decide, h.inverseEndian, by simp⟩

theorem Plain.readFront (h : Plain par) (start : AdcPar) :
    readLines start ((frontSettings par).map Setting.line) =
      some { start with
        dim := par.dim, mnum := par.mnum, tuplenum := par.tuplenum, filename := ['U'] } := by
  have clss : (Setting.clss 'U').Valid := by
    simp only [Setting.Valid]
    decide
  simp only [frontSettings, List.map_cons, List.map_nil, readLines, h.clss,
    readLine_inPlace (s := .dim par.dim) h.dim trivial,
    readLine_inPlace (s := .mnum par.mnum) h.mnum trivial,
    readLine_inPlace (s := .tuplenum par.tuplenum) h.tuplenum trivial, readLine_class clss,
    readLine_inverseEndian, Setting.apply]

theorem readNdid_eq (parfname : List Char) (par : AdcPar) :
    ∃ n, readNdid parfname par = { par with ndid := n } := by
  rw [readNdid]
  split
  · exact ⟨par.ndid, rfl⟩
  · exact ⟨_, rfl⟩

theorem Plain.parse_eq (h : Plain par) (parfname : List Char) : ∃ n,
    parseParFile parfname (writeADCPar par) initADCpar =
      (readLines ⟨n, par.dim, par.mnum, par.tuplenum, 0, ['U'], 'U'⟩
        (chunks [] (entry fileName par.filename))).map byClass := by
  obtain ⟨n, start⟩ := readNdid_eq parfname initADCpar
  have noName : ∀ s ∈ frontSettings par, ∀ name, s ≠ .filename name := by
    simp [frontSettings]
  refine ⟨n, ?_⟩
  rw [parseParFile, writeADCPar_eq, chunks_settings h.frontValid noName, readLines_append, start,
    h.readFront]
  rfl

theorem Plain.filename_eq (h : Plain par) {parfname : List Char} (back : Restored parfname par) :
    par.filename = ['U'] := by
  by_contra differ
  obtain ⟨r, parsed, same⟩ := back
  obtain ⟨n, parse⟩ := h.parse_eq parfname
  rw [parse] at parsed
  obtain ⟨last, read, rfl⟩ := Option.map_eq_some_iff.mp parsed
  have kept : last.filename ≠ par.filename := by
    refine readLines_keep (P := fun p => p.filename ≠ par.filename) ?_ read (Ne.symm differ)
    intro line member first next step other
    rcases readLine_filename step with same | ⟨unnamed, long⟩
    · rw [same]
      exact other
    · rcases chunks_fileName member with named | short
      · exact absurd named unnamed
      · intro equal
        rw [equal] at long
        omega
  have name : (byClass last).filename = last.filename := by
    unfold byClass
    split <;> rfl
  rw [name.symm, same] at kept
  exact kept rfl

theorem readLast (start : AdcPar) :
    readLines start (chunks [] (entry fileName ['U'])) = some start := by
  have whole : chunks [] (entry fileName ['U']) = [entry fileName ['U']] := by
    have line := @chunks_entry fileName ['U'] (by decide) (by decide) (by decide) []
    rwa [List.append_nil] at line
  have found : firstKeyword (entry fileName ['U']) 0 adcKeyword = some 4 := by
    rw [firstKeyword_entry (char_plain 'U')]
    decide
  rw [whole, readLines, readLine_entry (by decide) found rfl]
  rfl

theorem restored_iff (h : Plain par) (parfname : List Char) :
    Restored parfname par ↔ par.filename = ['U'] ∧ par.inverseEndian = 0 := by
  have parsed (name : par.filename = ['U']) : ∃ n,
      parseParFile parfname (writeADCPar par) initADCpar =
        some ⟨n, par.dim, par.mnum, par.tuplenum, 0, ['U'], 'U'⟩ := by
    obtain ⟨n, parse⟩ := h.parse_eq parfname
    rw [name, readLast] at parse
    exact ⟨n, parse⟩
  constructor
  · intro back
    have name := h.filename_eq back
    obtain ⟨n, parse⟩ := parsed name
    obtain ⟨r, again, same⟩ := back
    rw [parse] at again
    obtain rfl := Option.some.inj again
    exact ⟨name, (congrArg AdcPar.inverseEndian same).symm⟩
  · rintro ⟨name, flag⟩
    obtain ⟨n, parse⟩ := parsed name
    exact ⟨_, parse, by ext1 <;> simp [name, flag, h.clss]⟩

end RoundTrip

/-- The parameters come back from the file of `WriteADCPar` exactly when the file name is the
class and the inverse endian flag is not set; lines with keys and values set their fields and no
others, in whatever order and from whatever state, exactly when no key is one of the last three,
and then a file of such lines is read in the same way. -/
theorem parameters_right_iff (par : AdcPar) (plain : Plain par) (settings : List Setting)
    (valid : ∀ s ∈ settings, s.Valid) (parfname : List Char) :
    (Restored parfname par ↔ par.filename = ['U'] ∧ par.inverseEndian = 0) ∧
      ((∀ start, readLines start (settings.map Setting.line) =
        some (settings.foldl Setting.apply start)) ↔ ∀ s ∈ settings, s.InPlace) ∧
      ((∀ s ∈ settings, s.InPlace) → ∀ start,
        parseParFile parfname (settings.flatMap Setting.line) start =
          some (byClass (settings.foldl Setting.apply (readNdid parfname start)))) := by
  refine ⟨restored_iff plain parfname, readLines_iff valid, fun place start => ?_⟩
  have noName : ∀ s ∈ settings, ∀ name, s ≠ .filename name := by
    rintro s member name rfl
    exact place _ member
  have pieces := chunks_settings valid noName []
  rw [List.append_nil] at pieces
  rw [parseParFile, pieces, chunks, if_pos rfl, List.append_nil,
    readLines_inPlace valid place]
  rfl

/-- A file with the class as its name comes back, and a line with a class sets no class. -/
theorem parameters_right_class :
    Restored [] ⟨0, 7, 2, 30, 0, ['U'], 'U'⟩ ∧
      ¬ ∀ start, readLines start ([.dim 7, .clss 'S'].map Setting.line) =
        some ([Setting.dim 7, .clss 'S'].foldl Setting.apply start) := by
  have plain : Plain ⟨0, 7, 2, 30, 0, ['U'], 'U'⟩ :=
    ⟨by decide, by decide, by decide, by decide, ⟨by decide, by simp [isSpace]⟩, rfl⟩
  have valid : ∀ s ∈ [Setting.dim 7, .clss 'S'], s.Valid := by
    simp only [List.forall_mem_cons, Setting.Valid]
    exact ⟨by decide, by decide, by simp⟩
  obtain ⟨restored, lines, _⟩ := parameters_right_iff _ plain _ valid []
  exact ⟨restored.mpr ⟨rfl, rfl⟩, fun right => lines.mp right (.clss 'S') (by simp)⟩

/-- The default parameters come back with the class in place of their file name. -/
theorem defaults_not_restored :
    Plain initADCpar ∧ parseParFile [] (writeADCPar initADCpar) initADCpar =
      some { initADCpar with filename := ['U'] } ∧ ¬ Restored [] initADCpar := by
  have plain : Plain initADCpar :=
    ⟨by decide, by decide, by decide, by decide, ⟨by decide, by simp [initADCpar, isSpace]⟩, rfl⟩
  have parsed : parseParFile [] (writeADCPar initADCpar) initADCpar =
      some { initADCpar with filename := ['U'] } := by decide +kernel
  refine ⟨plain, parsed, fun back => ?_⟩
  exact absurd (plain.filename_eq back) (by decide)

end Baseliner.AdcParameters
