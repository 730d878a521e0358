import Baseliner.LexicalPaths

/-! The request that starts a transfer: `tftp` and `validate_access` of `tftpd`.
`buf` is the static buffer with whatever follows it in memory, of which the
first `size` bytes were received. The file system is a parameter. -/

namespace Baseliner.TftpRequest

open LexicalPaths

def RRQ : Nat := 1
def WRQ : Nat := 2

def ENOTFOUND : Nat := 1
def EACCESS : Nat := 2
def EBADOP : Nat := 4

def ENOENT : Nat := 2

def SLASH : UInt8 := 47
def DOT : UInt8 := 46

/-! ### `validate_access` -/

/-- The results of `stat` (the mode), `open` and `fdopen`, or `errno`. -/
structure FileSystem where
  stat : List UInt8 → Except Nat Nat
  openFile : List UInt8 → (write : Bool) → Except Nat Unit
  fdopen : List UInt8 → (write : Bool) → Except Nat Unit

/-- The loop over the name, with the byte before: a dot at the beginning, or one
that starts the middle of `/../`. -/
def badPath : Option UInt8 → List UInt8 → Bool
  | _, [] => false
  | before, c :: rest =>
      (c = DOT && (before.isNone || (before = some SLASH && rest.take 2 = [DOT, SLASH]))) ||
        badPath (some c) rest

def stripSlash : List UInt8 → List UInt8
  | [] => []
  | c :: rest => if c = SLASH then rest else c :: rest

def fullPath (dir filename : List UInt8) : List UInt8 := dir ++ SLASH :: stripSlash filename

/-- The directory, or nothing when `tftpd` has no argument. The path is cut to the
size of `fnamebuf`. -/
def validateAccess (fs : FileSystem) (dirs : Option (List UInt8)) (filename : List UInt8)
    (mode : Nat) : Nat :=
  if badPath none filename then EACCESS
  else
    match dirs with
    | none => EACCESS
    | some dir =>
        let path := (fullPath dir filename).take (1024 + 512 - 2)
        match fs.stat path with
        | .error errno => if errno = ENOENT then ENOTFOUND else EACCESS
        | .ok stMode =>
            if mode = RRQ ∧ stMode &&& 4 = 0 ∨ mode ≠ RRQ ∧ stMode &&& 2 = 0 then EACCESS
            else
              match fs.openFile path (mode ≠ RRQ) with
              | .error errno => errno + 100
              | .ok _ =>
                  match fs.fdopen path (mode ≠ RRQ) with
                  | .error errno => errno + 100
                  | .ok _ => 0

/-! ### `tftp` -/

/-- The loop that looks for the end of a string, with `count` bytes left. -/
def scan (buf : Nat → UInt8) : Nat → Nat → Nat
  | 0, cp => cp
  | count + 1, cp => if buf cp = 0 then cp else scan buf count (cp + 1)

def bytes (buf : Nat → UInt8) (first last : Nat) : List UInt8 :=
  (List.range' first (last - first)).map buf

def tolower (c : UInt8) : UInt8 := if 65 ≤ c ∧ c ≤ 90 then c + 32 else c

inductive Format
  | netascii
  | octet
  deriving DecidableEq, Repr

def Format.fMode : Format → List UInt8
  | .netascii => [110, 101, 116, 97, 115, 99, 105, 105]
  | .octet => [111, 99, 116, 101, 116]

def formats : List Format := [.netascii, .octet]

inductive Transfer
  | fSend (pf : Format)
  | fRecv (pf : Format)
  deriving DecidableEq, Repr

def tftp (fs : FileSystem) (dirs : Option (List UInt8)) (opcode : Nat) (buf : Nat → UInt8)
    (size : Nat) : Except Nat Transfer :=
  let filename := 2
  let cp := scan buf (size - filename) filename
  if buf cp ≠ 0 then .error EBADOP
  else
    let mode := cp + 1
    let last := scan buf (size - mode) mode
    if buf last ≠ 0 then .error EBADOP
    else
      match formats.find? fun pf => pf.fMode = (bytes buf mode last).map tolower with
      | none => .error EBADOP
      | some pf =>
          let ecode := validateAccess fs dirs (bytes buf filename cp) opcode
          if ecode ≠ 0 then .error ecode
          else if opcode = WRQ then .ok (.fRecv pf)
          else .ok (.fSend pf)

/-! ### What is a request -/

/-- The string at `first` ends with a zero byte at `last`. -/
structure StringAt (buf : Nat → UInt8) (first last : Nat) : Prop where
  le : first ≤ last
  zero : buf last = 0
  before : ∀ k, first ≤ k → k < last → buf k ≠ 0

def IsMode (mode : List UInt8) : Prop := ∃ pf : Format, pf.fMode = mode.map tolower

/-- A file name that ends at `i` and a mode that ends at `j`, for a file that can be
opened. -/
structure Names (fs : FileSystem) (dirs : Option (List UInt8)) (opcode : Nat) (buf : Nat → UInt8)
    (i j : Nat) : Prop where
  filename : StringAt buf 2 i
  mode : StringAt buf (i + 1) j
  isMode : IsMode (bytes buf (i + 1) j)
  accessible : validateAccess fs dirs (bytes buf 2 i) opcode = 0

section Scanning

variable {buf : Nat → UInt8}

theorem scan_spec (buf : Nat → UInt8) (count cp : Nat) :
    cp ≤ scan buf count cp ∧ scan buf count cp ≤ cp + count ∧
      ∀ k, cp ≤ k → k < scan buf count cp → buf k ≠ 0 := by
  induction count generalizing cp with
  | zero =>
      refine ⟨Nat.le_refl cp, Nat.le_refl cp, fun k low high => ?_⟩
      rw [scan] at high
      omega
  | succ count ih =>
      rw [scan]
      by_cases zero : buf cp = 0
      · rw [if_pos zero]
        exact ⟨Nat.le_refl cp, Nat.le_add_right cp _, fun k low high => by omega⟩
      · obtain ⟨low, high, before⟩ := ih (cp + 1)
        rw [if_neg zero]
        refine ⟨by omega, by omega, fun k start stop => ?_⟩
        rcases Nat.eq_or_lt_of_le start with rfl | later
        · exact zero
        · exact before k later stop

theorem stringAt_scan {count cp : Nat} (zero : buf (scan buf count cp) = 0) :
    StringAt buf cp (scan buf count cp) :=
  ⟨(scan_spec buf count cp).1, zero, (scan_spec buf count cp).2.2⟩

theorem StringAt.unique {first i j : Nat} (h : StringAt buf first i) (g : StringAt buf first j) :
    i = j := by
  rcases Nat.lt_trichotomy i j with less | same | more
  · exact absurd h.zero (g.before i h.le less)
  · exact same
  · exact absurd g.zero (h.before j g.le more)

/-- The scan stops at the end of the string, also when this is the byte after
those that were received. -/
theorem StringAt.scan_eq {first last count : Nat} (h : StringAt buf first last)
    (room : last ≤ first + count) : scan buf count first = last := by
  induction count generalizing first with
  | zero =>
      have low := h.le
      rw [scan]
      omega
  | succ count ih =>
      rw [scan]
      by_cases zero : buf first = 0
      · have here : StringAt buf first first := ⟨Nat.le_refl _, zero, fun k low high => by omega⟩
        rw [if_pos zero]
        exact here.unique h
      · have later : first < last := by
          rcases Nat.eq_or_lt_of_le h.le with rfl | later
          · exact absurd h.zero zero
          · exact later
        rw [if_neg zero]
        apply ih ⟨later, h.zero, fun k low high => h.before k (by omega) high⟩
        omega

end Scanning

theorem not_isMode_nil : ¬ IsMode [] := by
  rintro ⟨pf, eq⟩
  cases pf with
  | netascii => cases eq
  | octet => cases eq

theorem find_formats_iff (mode : List UInt8) :
    (∃ pf, formats.find? (fun pf => pf.fMode = mode.map tolower) = some pf) ↔ IsMode mode := by
  constructor
  · rintro ⟨pf, found⟩
    have eq := List.find?_some found
    exact ⟨pf, of_decide_eq_true eq⟩
  · rintro ⟨pf, eq⟩
    apply Option.isSome_iff_exists.mp
    rw [List.find?_isSome]
    refine ⟨pf, ?_, decide_eq_true eq⟩
    cases pf with
    | netascii => decide
    | octet => decide

/-- The transfer is started exactly for the two strings that end in the received
bytes or, the second one, at the byte after them. -/
theorem tftp_ok_iff (fs : FileSystem) (dirs : Option (List UInt8)) (opcode : Nat)
    (buf : Nat → UInt8) (size : Nat) :
    (∃ transfer, tftp fs dirs opcode buf size = .ok transfer) ↔
      ∃ i j, i < size ∧ j ≤ size ∧ Names fs dirs opcode buf i j := by
  constructor
  · rintro ⟨transfer, accepted⟩
    unfold tftp at accepted
    dsimp only at accepted
    split at accepted
    · cases accepted
    · rename_i first
      split at accepted
      · cases accepted
      · rename_i second
        split at accepted
        · cases accepted
        · rename_i found
          split at accepted
          · cases accepted
          · rename_i access
            have filename := stringAt_scan (not_not.mp first)
            have mode := stringAt_scan (not_not.mp second)
            have isMode := (find_formats_iff _).mp ⟨_, found⟩
            generalize scan buf (size - 2) 2 = i at *
            have bound := (scan_spec buf (size - (i + 1)) (i + 1)).2.1
            generalize scan buf (size - (i + 1)) (i + 1) = j at *
            have inside : i < size := by
              by_contra outside
              have empty : j = i + 1 := by
                have low := mode.le
                omega
              rw [empty, bytes, Nat.sub_self] at isMode
              exact not_isMode_nil isMode
            exact ⟨i, j, inside, by omega, filename, mode, isMode, not_not.mp access⟩
  · rintro ⟨i, j, inside, room, names⟩
    have low := names.filename.le
    have middle := names.mode.le
    have first : scan buf (size - 2) 2 = i := names.filename.scan_eq (by omega)
    have second : scan buf (size - (i + 1)) (i + 1) = j := names.mode.scan_eq (by omega)
    obtain ⟨pf, found⟩ := (find_formats_iff _).mpr names.isMode
    refine ⟨if opcode = WRQ then .fRecv pf else .fSend pf, ?_⟩
    unfold tftp
    dsimp only
    rw [first, if_neg (not_not_intro names.filename.zero), second,
      if_neg (not_not_intro names.mode.zero), found]
    dsimp only
    rw [if_neg (not_not_intro names.accessible)]
    exact (apply_ite Except.ok _ _ _).symm

def Requests (fs : FileSystem) (dirs : Option (List UInt8)) (opcode : Nat) (buf : Nat → UInt8)
    (size : Nat) : Prop :=
  ∃ i j, i < j ∧ j < size ∧ Names fs dirs opcode buf i j

/-- The mode runs to the end of the received bytes, and a zero byte happens to
follow them. -/
def Overruns (fs : FileSystem) (dirs : Option (List UInt8)) (opcode : Nat) (buf : Nat → UInt8)
    (size : Nat) : Prop :=
  ∃ i, i < size ∧ Names fs dirs opcode buf i size

theorem accepts_iff (fs : FileSystem) (dirs : Option (List UInt8)) (opcode : Nat)
    (buf : Nat → UInt8) (size : Nat) :
    ((∃ transfer, tftp fs dirs opcode buf size = .ok transfer) ↔
        Requests fs dirs opcode buf size) ↔
      ¬ Overruns fs dirs opcode buf size := by
  rw [tftp_ok_iff]
  constructor
  · rintro same ⟨i, inside, names⟩
    obtain ⟨i', j', -, early, names'⟩ := same.mp ⟨i, size, inside, Nat.le_refl size, names⟩
    have first : i' = i := names'.filename.unique names.filename
    subst first
    have second : j' = size := names'.mode.unique names.mode
    omega
  · intro within
    constructor
    · rintro ⟨i, j, inside, room, names⟩
      rcases Nat.lt_or_eq_of_le room with early | rfl
      · exact ⟨i, j, names.mode.le, early, names⟩
      · exact absurd ⟨i, inside, names⟩ within
    · rintro ⟨i, j, order, early, names⟩
      exact ⟨i, j, by omega, by omega, names⟩

/-! ### Where the path leads -/

theorem badPath_append (before : Option UInt8) (front after : List UInt8) :
    badPath before (front ++ SLASH :: DOT :: DOT :: SLASH :: after) = true := by
  induction front generalizing before with
  | nil =>
      rw [List.nil_append, badPath, badPath]
      simp
  | cons c front ih =>
      rw [List.cons_append, badPath, ih, Bool.or_true]

theorem badPath_dot (rest : List UInt8) : badPath none (DOT :: rest) = true := by
  rw [badPath]
  simp

theorem eq_or_eq_stripSlash (name : List UInt8) :
    name = stripSlash name ∨ name = SLASH :: stripSlash name := by
  cases name with
  | nil => exact Or.inl rfl
  | cons c rest =>
      rw [stripSlash]
      by_cases slash : c = SLASH
      · rw [if_pos slash, slash]
        exact Or.inr rfl
      · rw [if_neg slash]
        exact Or.inl rfl

theorem dots_only_last {name : List UInt8} (good : badPath none name = false)
    {front : List (List UInt8)} {last : List UInt8}
    (names : components SLASH (stripSlash name) = front ++ [last]) : [DOT, DOT] ∉ front := by
  intro mem
  have bad : badPath none name = true := by
    obtain ⟨first, rest, rfl⟩ := List.append_of_mem mem
    obtain ⟨next, back, more⟩ : ∃ next back, rest ++ [last] = next :: back := by
      cases rest with
      | nil => exact ⟨last, [], rfl⟩
      | cons next rest => exact ⟨next, rest ++ [last], rfl⟩
    rw [List.append_assoc, List.cons_append, more] at names
    obtain ⟨before, after, path, start⟩ := exists_split_of_components names
    rcases start with rfl | ⟨start, rfl⟩
    · rcases eq_or_eq_stripSlash name with same | slash
      · rw [same, path]
        exact badPath_dot _
      · rw [slash, path]
        exact badPath_append none [] after
    · rcases eq_or_eq_stripSlash name with same | slash
      · rw [same, path]
        simpa using badPath_append none start after
      · rw [slash, path]
        simpa using badPath_append none (SLASH :: start) after
  rw [good] at bad
  exact Bool.false_ne_true bad

theorem not_inside_nil (filename : List UInt8) :
    ¬ Inside SLASH DOT [] (fullPath [] filename) := by
  rintro ⟨start, -⟩
  exact absurd start (by simp [resolve, fullPath])

theorem inside_iff {filename : List UInt8} (good : badPath none filename = false)
    (dir : List UInt8) :
    Inside SLASH DOT dir (fullPath dir filename) ↔
      dir ≠ [] ∧ (resolve SLASH DOT dir = (true, []) ∨
        ¬ Escapes DOT (components SLASH (stripSlash filename))) := by
  rcases List.eq_nil_or_concat (components SLASH (stripSlash filename)) with none | some
  · exact absurd none (components_ne_nil SLASH _)
  · obtain ⟨front, last, names⟩ := some
    rw [List.concat_eq_append] at names
    by_cases empty : dir = []
    · subst empty
      refine ⟨fun inside => absurd inside (not_inside_nil filename), fun h => absurd rfl h.1⟩
    · have down := dots_only_last good names
      unfold fullPath
      rw [inside_append_iff empty names down]
      simp [empty]

/-- The request is judged by its received bytes unless the mode overruns them, and
a name that passes the test stays in the directory unless it escapes. -/
theorem request_confined (fs : FileSystem) (dirs : Option (List UInt8)) (opcode : Nat)
    (buf : Nat → UInt8) (size : Nat) (dir filename : List UInt8) :
    (((∃ transfer, tftp fs dirs opcode buf size = .ok transfer) ↔
        Requests fs dirs opcode buf size) ↔
      ¬ Overruns fs dirs opcode buf size) ∧
    (badPath none filename = false →
      (Inside SLASH DOT dir (fullPath dir filename) ↔
        dir ≠ [] ∧ (resolve SLASH DOT dir = (true, []) ∨
          ¬ Escapes DOT (components SLASH (stripSlash filename))))) :=
  ⟨accepts_iff fs dirs opcode buf size, fun good => inside_iff good dir⟩

def publicFiles : FileSystem where
  stat _ := .ok 292
  openFile _ _ := .ok ()
  fdopen _ _ := .ok ()

/-- `/tftpboot` -/
def tftpboot : List UInt8 := [47, 116, 102, 116, 112, 98, 111, 111, 116]

/-- `/pub/..` -/
def pubBack : List UInt8 := [47, 112, 117, 98, 47, 46, 46]

theorem request_confined_pub :
    badPath none pubBack = false ∧ Inside SLASH DOT tftpboot (fullPath tftpboot pubBack) := by
  have good : badPath none pubBack = false := by decide
  have names : components SLASH (stripSlash pubBack) = [[112, 117, 98]] ++ [[DOT, DOT]] := by decide
  refine ⟨good, ?_⟩
  apply ((request_confined publicFiles none RRQ (fun _ => 0) 0 tftpboot pubBack).2 good).mpr
  refine ⟨by decide, Or.inr ?_⟩
  rw [names, escapes_append_iff]
  decide

/-- A read request for `a` in mode `octet`, without the last zero byte, in a buffer
of zeros. -/
def unterminated (k : Nat) : UInt8 := [0, 1, 97, 0, 111, 99, 116, 101, 116].getD k 0

theorem unterminated_names : Names publicFiles (some tftpboot) RRQ unterminated 3 9 := by
  have filename : StringAt unterminated 2 (scan unterminated 7 2) := stringAt_scan rfl
  have mode : StringAt unterminated 4 (scan unterminated 5 4) := stringAt_scan rfl
  exact ⟨filename, mode, ⟨.octet, by decide⟩, by decide⟩

/-- The request is accepted, and `/..` leads to the root. -/
theorem request_not_confined :
    ¬ ((∃ transfer, tftp publicFiles (some tftpboot) RRQ unterminated 9 = .ok transfer) ↔
      Requests publicFiles (some tftpboot) RRQ unterminated 9) ∧
    badPath none [SLASH, DOT, DOT] = false ∧
    ¬ Inside SLASH DOT tftpboot (fullPath tftpboot [SLASH, DOT, DOT]) := by
  refine ⟨?_, by decide, ?_⟩
  · rw [accepts_iff]
    exact not_not_intro ⟨3, by decide, unterminated_names⟩
  · rw [inside_iff (by decide)]
    rintro ⟨-, root | stays⟩
    · exact absurd root (by decide)
    · exact stays ⟨[], by decide, by simp⟩

end Baseliner.TftpRequest
