import Baseliner.AdcViewSizes
import Baseliner.DcCube
import Baseliner.DecimalText

/-! The way of a selection through the DC benchmark: `CalculateVeiwSizes` writes it as text,
`PartitionCube` reads the words of the text, keeps it as a mask and writes the mask with its
bytes swapped, and `ComputeGivenGroupbys` takes the attributes out of the mask again. -/

namespace Baseliner.DcSelectionCodec

open AdcViewSizes DcPartition DcCube DecimalText

section Text

def Selection : List Char := ['S', 'e', 'l', 'e', 'c', 't', 'i', 'o', 'n', ':']
def View : List Char := ['V', 'i', 'e', 'w']
def Size : List Char := ['S', 'i', 'z', 'e', ':']
def TotalInBytes : List (List Char) :=
  [['T', 'o', 't', 'a', 'l'], ['i', 'n'], ['b', 'y', 't', 'e', 's', ':']]
def NumberOfTuples : List (List Char) :=
  [['N', 'u', 'm', 'b', 'e', 'r'], ['o', 'f'],
    ['t', 'u', 'p', 'l', 'e', 's', ':']]

def lineText (view : ViewLine) : List Char :=
  Selection ++ (view.selection.flatMap fun j : ℕ => ' ' :: decimal j) ++
    '\n' :: (View ++ ' ' :: (Size ++ ' ' :: (decimal view.size ++ ['\n'])))

def spaced (phrase : List (List Char)) : List Char := phrase.flatMap fun w => w ++ [' ']

/-- The totals are unsigned and printed as signed. -/
def totalText (total : ℕ) : List Char := decimal (Int.bmod total (2 ^ 64))

def fileText (file : ViewSizes) : List Char :=
  file.views.flatMap lineText ++ '\n' :: (spaced TotalInBytes ++ (totalText file.totalInBytes ++
    ' ' :: ' ' :: (spaced NumberOfTuples ++ (totalText file.nCubeTuples ++ ['\n']))))

def selectionOf (dcdim vidx : ℕ) : List ℕ := (attributes dcdim vidx).map (· + 1)

def viewSizes (dcdim : ℕ) (written : List DcView) : ViewSizes where
  views := written.map fun vw => ⟨selectionOf dcdim vw.vidx, vw.vsize⟩
  totalInBytes := (written.map fun vw =>
    (8 + 4 * (attributes dcdim vw.vidx).length) * vw.vsize).sum % 2 ^ 64
  nCubeTuples := (written.map fun vw => vw.vsize).sum % 2 ^ 64

theorem writeViews_eq (dcdim vinc : ℕ) (sorted : List DcView) :
    writeViews dcdim vinc sorted = viewSizes dcdim
      (((List.range (2 ^ dcdim)).filter fun i => 1 ≤ i ∧ (i - 1) % vinc = 0).filterMap
        fun i => sorted[i]?) := rfl

/-- A word that `fscanf` reads, without a sign in front of a number. -/
def wordOf (inps : List Char) : Word :=
  if inps = Selection then .selection
  else if inps = View then .view
  else if inps = Size then .size
  else match leading inps with
    | some n => .number n
    | none => .other

def fileWords (text : List Char) : List Word := (words text).map wordOf

theorem wordOf_front {c : Char} {s : List Char} (number : c = '-' ∨ c.isDigit = true) :
    wordOf (c :: s) = match leading (c :: s) with
      | some n => .number n
      | none => .other := by
  have other {d : Char} (known : d = 'S' ∨ d = 'V') : c ≠ d := by
    rintro rfl
    rcases known with rfl | rfl <;> exact absurd number (by decide)
  have differ {d : Char} {t : List Char} (known : d = 'S' ∨ d = 'V') : c :: s ≠ d :: t :=
    fun same => other known (List.cons.inj same).1
  rw [wordOf, Selection, View, Size, if_neg (differ (.inl rfl)),
    if_neg (differ (.inr rfl)), if_neg (differ (.inl rfl))]

theorem wordOf_decimal (n : ℕ) : wordOf (decimal n) = .number n := by
  have read := @leading_toDigits n [] (fun _ _ same => by cases same)
  obtain ⟨c, s, front, digit⟩ := decimal_front n
  rw [List.append_nil, ← decimal_natCast, front] at read
  rw [front, wordOf_front digit, read]

theorem wordOf_totalText (total : ℕ) :
    wordOf (totalText total) ≠ .selection ∧ wordOf (totalText total) ≠ .size := by
  obtain ⟨c, s, front, number⟩ := decimal_front (Int.bmod total (2 ^ 64))
  rw [totalText, front, wordOf_front number]
  cases leading (c :: s) <;> simp

theorem words_numbers {w : List Char} (some : w ≠ []) (solid : ∀ c ∈ w, isSpace c = false)
    (sel : List ℕ) (rest : List Char) :
    words (w ++ (sel.flatMap fun j : ℕ => ' ' :: decimal j) ++ '\n' :: rest) =
      w :: sel.map (fun j : ℕ => decimal j) ++ words rest := by
  induction sel generalizing w with
  | nil => simpa using words_append some solid (by decide) rest
  | cons j sel ih =>
      rw [List.flatMap_cons, List.cons_append, List.append_assoc, List.cons_append,
        words_append some solid (by decide), ih (decimal_ne_nil j) (decimal_solid j)]
      rfl

def entryOf (view : ViewLine) : Entry := ⟨view.selection, view.size⟩

theorem fileWords_lineText (view : ViewLine) (rest : List Char) :
    fileWords (lineText view ++ rest) = (entryOf view).words ++ fileWords rest := by
  have line : lineText view ++ rest =
      Selection ++ (view.selection.flatMap fun j : ℕ => ' ' :: decimal j) ++
        '\n' :: (View ++ ' ' :: (Size ++ ' ' :: (decimal view.size ++ '\n' :: rest))) := by
    simp [lineText]
  rw [fileWords, line, words_numbers (by decide) (solid_of_all (by decide)),
    words_append (by decide) (solid_of_all (by decide)) (by decide),
    words_append (by decide) (solid_of_all (by decide)) (by decide),
    words_append (decimal_ne_nil _) (decimal_solid _) (by decide)]
  have keywords : wordOf Selection = .selection ∧ wordOf View = .view ∧ wordOf Size = .size := by
    decide
  simp [entryOf, Entry.words, fileWords, wordOf_decimal, Function.comp_def, keywords]

theorem words_spaced {phrase : List (List Char)}
    (solid : ∀ w ∈ phrase, w ≠ [] ∧ (w.all fun c => !isSpace c) = true) (rest : List Char) :
    words (spaced phrase ++ rest) = phrase ++ words rest := by
  induction phrase with
  | nil => rfl
  | cons w phrase ih =>
      rw [List.forall_mem_cons] at solid
      have text : spaced (w :: phrase) ++ rest = w ++ ' ' :: (spaced phrase ++ rest) := by
        simp [spaced]
      rw [text, words_append solid.1.1 (solid_of_all solid.1.2) (by decide), ih solid.2,
        List.cons_append]

theorem fileWords_fileText (file : ViewSizes) : ∃ tail,
    fileWords (fileText file) = (file.views.map entryOf).flatMap Entry.words ++ tail ∧
      ∀ w ∈ tail, w ≠ .selection ∧ w ≠ .size := by
  have entries (views : List ViewLine) (rest : List Char) :
      fileWords (views.flatMap lineText ++ rest) =
        (views.map entryOf).flatMap Entry.words ++ fileWords rest := by
    induction views with
    | nil => rfl
    | cons view views ih =>
        rw [List.flatMap_cons, List.append_assoc, fileWords_lineText, ih, List.map_cons,
          List.flatMap_cons, List.append_assoc]
  have total (n : ℕ) {c : Char} (blank : isSpace c = true) (rest : List Char) :
      words (totalText n ++ c :: rest) = totalText n :: words rest :=
    words_append (decimal_ne_nil _) (decimal_solid _) blank rest
  refine ⟨_, entries _ _, ?_⟩
  rw [fileWords, words_blank (by decide), words_spaced (by decide), total _ (by decide),
    words_blank (by decide), words_spaced (by decide), total _ (by decide)]
  simp only [List.map_append, List.map_cons, List.forall_mem_append, List.forall_mem_cons]
  exact ⟨by decide, wordOf_totalText _, by decide, wordOf_totalText _, by decide⟩

end Text

section Records

/-- `GetRegTupleFromBin64`: the tuple and the number of its units. -/
def getRegTuple (binRepTuple numDims : ℕ) : List ℕ × ℕ :=
  (List.range numDims).foldl (fun x i =>
    if binRepTuple &&& (MLB >>> i) ≠ 0 then (x.1 ++ [i + 1], x.2 + 1) else x) ([], 0)

theorem getRegTuple_eq (binRepTuple numDims : ℕ) : getRegTuple binRepTuple numDims =
    (getRegTupleFromBin64 binRepTuple numDims,
      (getRegTupleFromBin64 binRepTuple numDims).length) := by
  induction numDims with
  | zero => rfl
  | succ n ih =>
      rw [getRegTuple, List.range_succ, List.foldl_append, ← getRegTuple, ih]
      by_cases set : binRepTuple &&& (MLB >>> n) ≠ 0 <;>
        simp [getRegTupleFromBin64, List.range_succ, set]

/-- What `ComputeGivenGroupbys` takes out of a record of the groupby file. -/
def readRecord (nTopDims : ℕ) (record : List ℕ) : List ℕ × ℕ :=
  getRegTuple (binRepTuple record) nTopDims

/-- The selections of the views come back out of the groupby files of the tasks, each with its
length, and so do their places among the attributes of every mask that has them. -/
def ComesBack (c : Control) (views : List DcView) : Prop :=
  ∃ groupbys : ℕ → List (List ℕ),
    (∀ t < c.nTasks, partitionCube c t (fileWords (fileText (viewSizes c.nTopDims views))) =
      some (groupbys t)) ∧
    (((List.range c.nTasks).flatMap groupbys).map (readRecord c.nTopDims)).Perm
      (views.map fun vw =>
        (selectionOf c.nTopDims vw.vidx, (selectionOf c.nTopDims vw.vidx).length)) ∧
    ∀ t < c.nTasks, ∀ record ∈ groupbys t, ∀ grpb,
      groupbyMask c.nTopDims (binRepTuple record) &&& grpb =
          groupbyMask c.nTopDims (binRepTuple record) →
        getRegTupleFromParent (binRepTuple record) grpb c.nTopDims =
          (readRecord c.nTopDims record).1.map fun d =>
            (getRegTupleFromBin32 grpb c.nTopDims).idxOf d + 1

variable {c : Control}

theorem ascending_selectionOf (dcdim vidx : ℕ) :
    (selectionOf dcdim vidx).Pairwise (· < ·) := by
  rw [selectionOf, attributes, List.pairwise_map]
  exact (List.pairwise_lt_range.filter _).imp fun less => Nat.add_lt_add_right less 1

theorem fits_viewSizes (few : c.nTopDims ≤ 20) (views : List DcView) :
    Fits c ((viewSizes c.nTopDims views).views.map entryOf) := by
  intro e member
  obtain ⟨view, listed, rfl⟩ := List.mem_map.mp member
  obtain ⟨vw, _, rfl⟩ := List.mem_map.mp listed
  constructor
  · have most := List.length_filter_le (fun j => vw.vidx.testBit j) (List.range c.nTopDims)
    rw [List.length_range] at most
    rw [entryOf, selectionOf, List.length_map, attributes]
    omega
  · intro d hd
    obtain ⟨j, hj, rfl⟩ := List.mem_map.mp hd
    have inside := List.mem_range.mp (List.mem_filter.mp hj).1
    omega

theorem readViews_fileText (few : c.nTopDims ≤ 20) (views : List DcView) :
    readViews c (fileWords (fileText (viewSizes c.nTopDims views))) false [] [] =
      if views.length ≤ c.nViewLimit
      then some (((viewSizes c.nTopDims views).views.map entryOf).map (record c)) else none := by
  obtain ⟨tail, text, idle⟩ := fileWords_fileText (viewSizes c.nTopDims views)
  rw [text, readViews_words few _ (fits_viewSizes few views) idle [] (Nat.zero_le _)]
  simp [viewSizes]

end Records

/-- The selections come back exactly when the views have room in `tuplesAndSizes` and those of
every task in the memory pool. -/
theorem selections_come_back_iff (c : Control) (tasks : 1 ≤ c.nTasks)
    (most : c.nTasks ≤ MAX_NUMBER_OF_TASKS) (few : c.nTopDims ≤ 20) (views : List DcView) :
    ComesBack c views ↔ views.length ≤ c.nViewLimit ∧
      8 * ((views.length + c.nTasks - 1) / c.nTasks) ≤ c.memoryLimit := by
  have read := readViews_fileText few views
  have length : ((viewSizes c.nTopDims views).views.map entryOf).length = views.length := by
    simp [viewSizes]
  constructor
  · rintro ⟨groupbys, made, _⟩
    rw [← length]
    rw [← length] at read
    exact room_of_writes tasks most few read fun t ht => by rw [made t ht]; rfl
  · rintro ⟨listed, pool⟩
    rw [if_pos listed] at read
    obtain ⟨groupbys, made, all⟩ := selections_of_room tasks most few (fits_viewSizes few views)
      (by
        intro e member
        obtain ⟨view, listed, rfl⟩ := List.mem_map.mp member
        obtain ⟨vw, _, rfl⟩ := List.mem_map.mp listed
        exact ascending_selectionOf _ _) read (by rw [length]; exact pool)
    refine ⟨groupbys, made, ?_, ?_⟩
    · have lengths := all.map fun sel => (sel, sel.length)
      rw [List.map_flatMap] at lengths
      have each : readRecord c.nTopDims = fun record =>
          (getRegTupleFromBin64 (binRepTuple record) c.nTopDims,
            (getRegTupleFromBin64 (binRepTuple record) c.nTopDims).length) :=
        funext fun record => getRegTuple_eq _ _
      rw [List.map_flatMap, each]
      simpa only [readGroupbys, binRepTuple, List.map_map, Function.comp_def, viewSizes, entryOf]
        using lengths
    · intro t ht record member grpb covers
      rw [getRegTupleFromParent_eq (by omega) covers, readRecord, getRegTuple_eq]

def twoAttributeViews : List DcView := [⟨3, 1⟩, ⟨4, 2⟩, ⟨5, 3⟩]

theorem selections_come_back_twoTasks : ComesBack ⟨2, 2, 5, 16⟩ twoAttributeViews :=
  (selections_come_back_iff ⟨2, 2, 5, 16⟩ (by decide) (by decide) (by decide)
    twoAttributeViews).mpr (by decide)

/-- One task has three selections, and a pool of 16 bytes has room for two. -/
theorem selections_overrun : ¬ ComesBack ⟨1, 2, 5, 16⟩ twoAttributeViews := by
  rintro ⟨groupbys, made, _⟩
  have read := @readViews_fileText ⟨1, 2, 5, 16⟩ (by decide) twoAttributeViews
  have room := @room_of_writes ⟨1, 2, 5, 16⟩ (by decide) (by decide) (by decide)
    ((viewSizes 2 twoAttributeViews).views.map entryOf) _ read fun t ht => by rw [made t ht]; rfl
  exact absurd room (by decide)

end Baseliner.DcSelectionCodec
