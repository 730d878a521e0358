import Baseliner.PingChecksum

/-! The checksum routine of `rdisc` and the one of `clockdiff`, beside that of `ping`. `rdisc`
adds all words and brings the carries round at the end, as `ping` does; `clockdiff` brings the
carry round after every word, and reads a word at an odd address byte by byte. -/

namespace Baseliner.InternetChecksums

open ByteOrder OnesComplement PingChecksum

def addBackCarry (sum : ℕ) : Option ℕ :=
  match addInt (sum / 65536) (sum % 65536) with
  | none => none
  | some sum => addInt sum (sum / 65536)

def rdiscInCksum (e : Endian) (addr : List UInt8) : Option UInt16 :=
  match addWords e 0 addr with
  | none => none
  | some sum =>
      match addBackCarry sum with
      | none => none
      | some sum => some (~~~ UInt16.ofNat sum)

def ADDCARRY (sum : ℕ) : Option ℕ :=
  if sum / 65536 ≠ 0 then addInt (sum % 65536) 1 else some sum

def addWord (sum w : ℕ) : Option ℕ :=
  match addInt sum w with
  | none => none
  | some sum => ADDCARRY sum

/-- The loop by words from the address `base`; what is left has at most one byte. -/
def addByWords (e : Endian) (base sum : ℕ) : List UInt8 → Option (ℕ × List UInt8)
  | a :: b :: rest =>
      -- at an odd address the word is put together in the union `u`
      match addWord sum (if base % 2 = 1 then word e a b else word e a b) with
      | none => none
      | some sum => addByWords e (base + 2) sum rest
  | rest => some (sum, rest)

/-- `in_cksum` of `clockdiff.c`, with its buffer at the address `base`. -/
def clockdiffInCksum (e : Endian) (base : ℕ) (addr : List UInt8) : Option UInt16 :=
  match addByWords e base 0 addr with
  | none => none
  | some (sum, v :: _) =>
      match addWord sum (word e v 0) with
      | none => none
      | some sum => some (~~~ UInt16.ofNat sum)
  | some (sum, []) => some (~~~ UInt16.ofNat sum)

/-- The words of a buffer, an odd last byte with a zero behind it. -/
def words (e : Endian) : List UInt8 → List ℕ
  | [] => []
  | [v] => [word e v 0]
  | a :: b :: rest => word e a b :: words e rest

theorem words_le (e : Endian) (addr : List UInt8) : ∀ w ∈ words e addr, w ≤ 65535 := by
  fun_induction words e addr with
  | case1 => simp
  | case2 v =>
      intro w member
      rw [List.mem_singleton.mp member]
      exact word_le e v 0
  | case3 a b rest ih =>
      intro w member
      rcases List.mem_cons.mp member with rfl | later
      · exact word_le e a b
      · exact ih w later

theorem ODDBYTE_eq_word (e : Endian) (v : UInt8) : ODDBYTE e v = word e v 0 := by
  cases e <;> simp [ODDBYTE, word]

theorem sum_words (e : Endian) (addr : List UInt8) : (words e addr).sum = wordSum e addr := by
  fun_induction words e addr with
  | case1 => rfl
  | case2 v => rw [List.sum_singleton, wordSum, ODDBYTE_eq_word]
  | case3 a b rest ih => rw [List.sum_cons, ih, wordSum]

theorem wordSum_fits (e : Endian) {addr : List UInt8} (len : addr.length ≤ 65535) :
    wordSum e addr < 2 ^ 31 := by
  have bound := wordSum_le e addr
  omega

theorem addBackCarry_eq {sum : ℕ} (fits : sum < 2 ^ 31) :
    addBackCarry sum = some (sum / 65536 + sum % 65536 +
      (sum / 65536 + sum % 65536) / 65536) := by
  rw [addBackCarry, addInt, if_pos (by omega)]
  exact if_pos (by omega)

theorem addWord_eq {sum w : ℕ} (hs : sum ≤ 65535) (hw : w ≤ 65535) :
    addWord sum w = some (onesAdd sum w) := by
  rw [addWord, addInt, if_pos (by omega)]
  simp only [ADDCARRY, onesAdd]
  by_cases carry : sum + w < 65536
  · rw [if_neg (by omega), if_pos carry]
  · rw [if_pos (by omega), if_neg carry, addInt, if_pos (by omega)]
    exact congrArg some (by omega)

theorem onesAdd_le {x y : ℕ} (hx : x ≤ 65535) (hy : y ≤ 65535) : onesAdd x y ≤ 65535 := by
  rw [onesAdd]
  split_ifs <;> omega

theorem clockdiff_sum (e : Endian) (addr : List UInt8) (base sum : ℕ) (small : sum ≤ 65535) :
    ∃ last rest, addByWords e base sum addr = some (last, rest) ∧ last ≤ 65535 ∧
      rest.length ≤ 1 ∧ (words e addr).foldl onesAdd sum = (words e rest).foldl onesAdd last := by
  fun_induction words e addr generalizing base sum with
  | case1 => exact ⟨sum, [], rfl, small, by simp, rfl⟩
  | case2 v => exact ⟨sum, [v], rfl, small, by simp, rfl⟩
  | case3 a b rest ih =>
      have le := word_le e a b
      obtain ⟨last, left, ran, bound, short, same⟩ :=
        ih (base + 2) (onesAdd sum (word e a b)) (onesAdd_le small le)
      refine ⟨last, left, ?_, bound, short, ?_⟩
      · simp only [addByWords, ite_self, addWord_eq small le, ran]
      · rw [List.foldl_cons, same]

theorem clockdiffInCksum_eq (e : Endian) (base : ℕ) (addr : List UInt8) :
    clockdiffInCksum e base addr = some (~~~ UInt16.ofNat (onesSum (words e addr))) := by
  obtain ⟨last, rest, ran, bound, short, same⟩ := clockdiff_sum e addr base 0 (by omega)
  rw [clockdiffInCksum, ran, onesSum, same]
  cases rest with
  | nil => rfl
  | cons v rest =>
      have none : rest = [] := by
        rw [List.length_cons] at short
        exact List.length_eq_zero_iff.mp (by omega)
      subst none
      simp only [addWord_eq bound (word_le e v 0)]
      rfl

theorem addWords_fold (e : Endian) {addr : List UInt8} (len : addr.length ≤ 65535) :
    addWords e 0 addr = some (wordSum e addr) ∧
      fold (wordSum e addr) = onesSum (words e addr) := by
  have fits := wordSum_fits e len
  constructor
  · rw [addWords_eq e addr 0 (by omega), Nat.zero_add]
  · rw [onesSum_eq_fold (words_le e addr) (by rw [sum_words]; exact fits), sum_words]

theorem rdiscInCksum_eq (e : Endian) {addr : List UInt8} (len : addr.length ≤ 65535) :
    rdiscInCksum e addr = some (~~~ UInt16.ofNat (onesSum (words e addr))) := by
  obtain ⟨added, folded⟩ := addWords_fold e len
  rw [rdiscInCksum, added]
  simp only [addBackCarry_eq (wordSum_fits e len)]
  rw [← folded, fold]
  exact congrArg (fun answer => some (~~~ answer)) UInt16.ofNat_mod_size.symm

/-- For every buffer of up to 65535 bytes, at any address and in either byte order, the three
routines return the complement of the one's-complement sum of its words, and no addition to
their accumulators overflows, those that bring the carries of `ping` round included. -/
theorem checksums_agree (e : Endian) (base : ℕ) (addr : List UInt8) (len : addr.length ≤ 65535) :
    let answer := ~~~ UInt16.ofNat (onesSum (words e addr))
    inCksum e addr 0 = some answer ∧ rdiscInCksum e addr = some answer ∧
      clockdiffInCksum e base addr = some answer ∧
      ∃ sum, addWords e 0 addr = some sum ∧ (addBackCarry sum).isSome := by
  obtain ⟨added, folded⟩ := addWords_fold e len
  have fits := wordSum_fits e len
  have zero : (0 : UInt16).toNat = 0 := rfl
  refine ⟨?_, rdiscInCksum_eq e len, clockdiffInCksum_eq e base addr, _, added, ?_⟩
  · rw [inCksum_eq e addr 0 (by rw [zero]; omega), zero, Nat.zero_add, folded]
  · rw [addBackCarry_eq fits]
    rfl

theorem checksums_agree_odd :
    inCksum .little [1, 2, 255] 0 = some (~~~ (0x300 : UInt16)) ∧
      clockdiffInCksum .little 7 [1, 2, 255] = some (~~~ (0x300 : UInt16)) :=
  have agreed := checksums_agree .little 7 [1, 2, 255] (by decide)
  ⟨agreed.1, agreed.2.2.1⟩

end Baseliner.InternetChecksums
