import Boxing.Crc.Register
import Boxing.Uboot.Crc32

/-!
# `crc32` of `uboot.c` is CRC-32

CRC-32 is the CRC of the polynomial 0xedb88320, its register inverted before and after.
The code makes its table from a list of exponents, takes a byte at a time from it, eight
of them in one round of the loop, and computes in an `unsigned long` of 32 or 64 bits with
a `char` that may be negative.  `crc32_eq` says that none of this shows.

A register of the code is a register of 32 bits in a `long`: `long`.  Each function of the
code is compared with what it does to that register, from the shift up to the loop; the
byte is taken from the table with `feed_byteBits`.
-/

namespace Boxing.Uboot

open C

/-- The polynomial of CRC-32. -/
def polynomial : BitVec 32 := 0xedb88320

/-- CRC-32, bit by bit. -/
def standard (start : BitVec 32) (buf : Bytes) : BitVec 32 := Crc.crc polynomial start buf

/-- A register of 32 bits in an `unsigned long`. -/
def long (abi : Abi) (c : BitVec 32) : BitVec abi.longBits := c.setWidth _

section

variable (abi : Abi)

theorem le_longBits : 32 ≤ abi.longBits := by
  rw [Abi.longBits]
  split
  · decide
  · decide

@[simp] theorem setWidth_long (c : BitVec 32) : (long abi c).setWidth 32 = c := by
  rw [long, BitVec.setWidth_setWidth_of_le _ (le_longBits abi), BitVec.setWidth_eq]

theorem long_xor (c d : BitVec 32) : long abi (c ^^^ d) = long abi c ^^^ long abi d :=
  BitVec.setWidth_xor

theorem long_ushiftRight (c : BitVec 32) (n : Nat) : long abi (c >>> n) = long abi c >>> n :=
  BitVec.setWidth_ushiftRight (le_longBits abi)

/-- A `long` below `2 ^ 32` is a register. -/
theorem exists_long {c : BitVec abi.longBits} (h : c.toNat < 2 ^ 32) :
    c = long abi (c.setWidth 32) := by
  apply BitVec.eq_of_toNat_eq
  rw [long, BitVec.toNat_setWidth, BitVec.toNat_setWidth, Nat.mod_eq_of_lt h,
    Nat.mod_eq_of_lt c.isLt]

/-! ### The table -/

/-- The exponents are those of the polynomial. -/
theorem crc_poly_eq : crc_poly abi = long abi polynomial := by
  obtain ⟨charSigned, wide⟩ := abi
  cases wide with
  | false => cases charSigned <;> decide
  | true => cases charSigned <;> decide

theorem and_one_eq (c : BitVec 32) : (long abi c &&& 1 ≠ 0) ↔ c.getLsbD 0 = true := by
  have hw := le_longBits abi
  have hbit : (long abi c).getLsbD 0 = c.getLsbD 0 := by
    rw [long, BitVec.getLsbD_setWidth, decide_eq_true (by omega), Bool.true_and]
  have hone : long abi c &&& 1 = (BitVec.ofBool (c.getLsbD 0)).setWidth abi.longBits := by
    rw [← hbit]
    exact BitVec.and_one_eq_setWidth_ofBool_getLsbD
  rw [hone]
  cases c.getLsbD 0 with
  | false => simp
  | true =>
    have hne : BitVec.setWidth abi.longBits (BitVec.ofBool true) ≠ 0 := by
      intro h
      have := congrArg (fun v => v.getLsbD 0) h
      rw [BitVec.getLsbD_setWidth, decide_eq_true (by omega : 0 < abi.longBits)] at this
      simp at this
    simpa using hne

theorem crc_shift_long (c : BitVec 32) :
    crc_shift abi (long abi c) = long abi (Crc.shift polynomial c) := by
  rw [crc_shift, Crc.shift, crc_poly_eq]
  by_cases h : c.getLsbD 0 = true
  · rw [if_pos ((and_one_eq abi c).mpr h), if_pos h, long_xor, long_ushiftRight]
  · rw [if_neg fun h' => h ((and_one_eq abi c).mp h'), if_neg h, long_ushiftRight]

/-- An entry of the table is eight shifts of its index. -/
theorem crc_table_eq {n : Nat} (h : n < 2 ^ 32) :
    crc_table abi n = long abi ((Crc.shift polynomial)^[8] (BitVec.ofNat 32 n)) := by
  have hstart : BitVec.ofNat abi.longBits n = long abi (BitVec.ofNat 32 n) := by
    apply BitVec.eq_of_toNat_eq
    rw [long, BitVec.toNat_setWidth, BitVec.toNat_ofNat, BitVec.toNat_ofNat, Nat.mod_eq_of_lt h]
  have hiter : ∀ k c, (List.range k).foldl (fun c _ => crc_shift abi c) (long abi c)
      = long abi ((Crc.shift polynomial)^[k] c) := by
    intro k c
    induction k with
    | zero => rfl
    | succ k ih =>
      rw [List.range_succ, List.foldl_append, ih, Function.iterate_succ_apply', ← crc_shift_long]
      rfl
  rw [crc_table, hstart, hiter]

/-! ### The loop -/

/-- The index is the low byte of register and message, with or without a sign. -/
theorem crc_index_eq (c : BitVec 32) (b : UInt8) :
    crc_index abi (long abi c) b = ((c ^^^ b.toBitVec.setWidth 32).setWidth 8).toNat := by
  have hbyte : (BitVec.ofInt 32 (abi.ofChar b)).setWidth 8 = b.toBitVec := by
    apply BitVec.eq_of_toNat_eq
    have hb := b.toNat_lt
    rw [BitVec.toNat_setWidth, BitVec.toNat_ofInt, UInt8.toNat_toBitVec, Abi.ofChar]
    split
    · rw [Int.bmod_def]
      split <;> omega
    · omega
  have hlow : ∀ x : BitVec 32, (x &&& 0xff).toNat = (x.setWidth 8).toNat := by
    intro x
    rw [BitVec.toNat_and, BitVec.toNat_setWidth]
    exact Nat.and_two_pow_sub_one_eq_mod x.toNat 8
  rw [crc_index, hlow, setWidth_long, BitVec.setWidth_xor, BitVec.setWidth_xor, hbyte,
    BitVec.setWidth_setWidth_of_le _ (by decide), BitVec.setWidth_eq]

theorem DO1_long (c : BitVec 32) (b : UInt8) :
    DO1 abi (long abi c) b = long abi (Crc.feed polynomial c (Crc.byteBits b)) := by
  have hlt : ((c ^^^ b.toBitVec.setWidth 32).setWidth 8).toNat < 2 ^ 32 :=
    Nat.lt_of_lt_of_le (BitVec.isLt _) (by decide)
  rw [DO1, crc_index_eq, crc_table_eq abi hlt, Crc.feed_byteBits (by decide), long_xor,
    long_ushiftRight, BitVec.ofNat_toNat]

/-- Eight bytes in a round or one: the loop goes over all of them in order. -/
theorem crc_loop_eq (crc : BitVec abi.longBits) (buf : Bytes) :
    crc_loop abi crc buf = buf.foldl (DO1 abi) crc := by
  fun_induction crc_loop abi crc buf with
  | case1 crc b0 b1 b2 b3 b4 b5 b6 b7 buf ih => rw [ih]; rfl
  | case2 crc buf h => rfl

theorem crc_loop_long (c : BitVec 32) (buf : Bytes) :
    crc_loop abi (long abi c) buf = long abi (Crc.feed polynomial c (Crc.bytesBits buf)) := by
  rw [crc_loop_eq]
  induction buf generalizing c with
  | nil => rfl
  | cons b buf ih =>
    rw [List.foldl_cons, DO1_long, ih, Crc.bytesBits_cons, Crc.feed_append]

theorem long_not (c : BitVec 32) : long abi c ^^^ 0xffffffff = long abi (~~~c) := by
  have hones : (0xffffffff : BitVec abi.longBits) = long abi (BitVec.allOnes 32) := by
    obtain ⟨charSigned, wide⟩ := abi
    cases wide with
    | false => rfl
    | true => rfl
  rw [hones, ← long_xor, BitVec.xor_allOnes]

/-- On a register, `crc32` is CRC-32. -/
theorem crc32_long (c : BitVec 32) (buf : Bytes) :
    crc32 abi (long abi c) buf = long abi (standard c buf) := by
  rw [crc32, crc_calc, long_not, crc_loop_long, long_not]
  rfl

/-- The value that is compared with the one in the block. -/
theorem crc_int_eq (data : Bytes) : crc_int abi data = standard 0 data := by
  have hzero : (0 : BitVec abi.longBits) = long abi 0 := by
    rw [long]
    simp
  rw [crc_int, hzero]
  show (crc32 abi (long abi 0) data).setWidth 32 = _
  rw [crc32_long, setWidth_long]

/-- Two pieces, from the start. -/
theorem crc32_append (a b : Bytes) : crc32 abi (crc32 abi 0 a) b = crc32 abi 0 (a ++ b) := by
  have hzero : (0 : BitVec abi.longBits) = long abi 0 := by
    rw [long]
    simp
  rw [hzero, crc32_long, crc32_long, crc32_long, standard, standard, Crc.crc_append]
  rfl

/-- **`crc32` is CRC-32**, for every start value below `2 ^ 32`, and goes on where it
stopped. -/
theorem crc32_eq {start : BitVec abi.longBits} (h : start.toNat < 2 ^ 32) (buf : Bytes) :
    crc32 abi start buf = long abi (standard (start.setWidth 32) buf) ∧
      ∀ a b, a ++ b = buf → crc32 abi (crc32 abi start a) b = crc32 abi start buf := by
  have hbuf : ∀ buf, crc32 abi start buf = long abi (standard (start.setWidth 32) buf) := by
    intro buf
    conv_lhs => rw [exists_long abi h]
    exact crc32_long abi _ buf
  refine ⟨hbuf buf, ?_⟩
  rintro a b rfl
  rw [hbuf a, crc32_long, hbuf (a ++ b), standard, standard, Crc.crc_append]
  rfl

end

/-- The check value of CRC-32, in a `long` of 64 bits, in one piece and in two. -/
theorem crc32_eq_check :
    crc32 ⟨true, true⟩ 0 (asc "123456789") = long ⟨true, true⟩ (standard 0 (asc "123456789")) ∧
      ∀ a b, a ++ b = asc "123456789" →
        crc32 ⟨true, true⟩ (crc32 ⟨true, true⟩ 0 a) b = crc32 ⟨true, true⟩ 0 (asc "123456789") :=
  crc32_eq ⟨true, true⟩ (by decide) (asc "123456789")

example : standard 0 (asc "123456789") = 0xcbf43926 := by decide +kernel

end Boxing.Uboot
