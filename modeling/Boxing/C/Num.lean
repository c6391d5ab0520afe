import Mathlib.Data.Int.Basic
import Mathlib.Data.List.GetD
import Boxing.C.Str

/-!
# Numbers of the target machine

The code is built for boards and for a desk machine, and the two differ in what
the C standard leaves open: the sign of plain `char`, and the width of `long` and
of a pointer.  An `Abi` fixes both; what is proved for every `Abi` does not
depend on the compiler.

`int` is 32 bits everywhere, and a wider or unsigned value that is stored in one
comes back in two's complement: `int32`.
-/

namespace Boxing.C

/-- The open choices: is `char` signed, and are `long` and pointers 64 bits. -/
structure Abi where
  charSigned : Bool
  wide : Bool
deriving DecidableEq, Repr

/-- `sizeof(void *)`. -/
def Abi.ptrSize (abi : Abi) : Nat := if abi.wide then 8 else 4

/-- Bits of an `unsigned long`. -/
def Abi.longBits (abi : Abi) : Nat := if abi.wide then 64 else 32

/-- A value stored in an `int`. -/
def int32 (x : Int) : Int := x.bmod (2 ^ 32)

/-- A `char` read as an `int`. -/
def Abi.ofChar (abi : Abi) (b : UInt8) : Int :=
  if abi.charSigned then (b.toNat : Int).bmod (2 ^ 8) else b.toNat

/-- An `int` stored in a `char` and read back. -/
def Abi.toChar (abi : Abi) (x : Int) : Int :=
  if abi.charSigned then x.bmod (2 ^ 8) else x % 2 ^ 8

/-- The number a run of decimal digits stands for. -/
def digitsVal (s : Bytes) : Nat := s.foldl (fun n c => 10 * n + (c.toNat - 48)) 0

/-- The big-endian number at `off`: `ntohl`, `fdt32_to_cpu`. -/
def be32 (h : Bytes) (off : Nat) : Nat :=
  (h.getD off 0).toNat * 2 ^ 24 + (h.getD (off + 1) 0).toNat * 2 ^ 16
    + (h.getD (off + 2) 0).toNat * 2 ^ 8 + (h.getD (off + 3) 0).toNat

/-- The four bytes of a big-endian number: `htonl`. -/
def htonl (x : Nat) : Bytes :=
  [(x / 2 ^ 24).toUInt8, (x / 2 ^ 16).toUInt8, (x / 2 ^ 8).toUInt8, x.toUInt8]

/-- A `short` in memory, low byte first. -/
def short (m : Bytes) (off : Nat) : Int :=
  ((m.getD off 0).toNat + (m.getD (off + 1) 0).toNat * 2 ^ 8 : Int).bmod (2 ^ 16)

/-- An `int` in memory, low byte first. -/
def int (m : Bytes) (off : Nat) : Int :=
  int32 ((m.getD off 0).toNat + (m.getD (off + 1) 0).toNat * 2 ^ 8
    + (m.getD (off + 2) 0).toNat * 2 ^ 16 + (m.getD (off + 3) 0).toNat * 2 ^ 24)

/-- The four bytes of an `int`, low byte first. -/
def intBytes (x : Nat) : Bytes :=
  [x.toUInt8, (x / 2 ^ 8).toUInt8, (x / 2 ^ 16).toUInt8, (x / 2 ^ 24).toUInt8]

/-- `isdigit`. -/
def isDigit (c : UInt8) : Bool := 48 ≤ c && c ≤ 57

/-- `isspace`. -/
def isSpace (c : UInt8) : Bool := c = 32 || (9 ≤ c && c ≤ 13)

/-- `atoi`: blanks, a sign, and digits up to the first other character. -/
def atoi (s : Bytes) : Int :=
  match s.dropWhile isSpace with
  | [] => 0
  | c :: t =>
    if c = 45 then -(digitsVal (t.takeWhile isDigit) : Int)
    else if c = 43 then digitsVal (t.takeWhile isDigit)
    else digitsVal ((c :: t).takeWhile isDigit)

theorem be32_htonl {x : Nat} (h : x < 2 ^ 32) (s t : Bytes) :
    be32 (s ++ (htonl x ++ t)) s.length = x := by
  have hget : ∀ i, (s ++ (htonl x ++ t)).getD (s.length + i) 0 = (htonl x ++ t).getD i 0 := by
    intro i
    rw [List.getD_eq_getElem?_getD, List.getD_eq_getElem?_getD,
      List.getElem?_append_right (Nat.le_add_right _ _), Nat.add_sub_cancel_left]
  have h0 := hget 0
  rw [Nat.add_zero] at h0
  rw [be32, h0, hget, hget, hget]
  simp only [htonl, List.cons_append, List.getD_cons_zero, List.getD_cons_succ,
    Nat.toUInt8_eq, UInt8.toNat_ofNat']
  omega

/-- Only its four bytes matter. -/
theorem be32_congr {a b : Bytes} {off : Nat}
    (h : ∀ i, off ≤ i → i < off + 4 → a.getD i 0 = b.getD i 0) : be32 a off = be32 b off := by
  rw [be32, be32, h off (by omega) (by omega), h (off + 1) (by omega) (by omega),
    h (off + 2) (by omega) (by omega), h (off + 3) (by omega) (by omega)]

theorem be32_append (d t : Bytes) {off : Nat} (h : off + 3 < d.length) :
    be32 (d ++ t) off = be32 d off :=
  be32_congr fun _ _ hi => List.getD_append _ _ _ _ (by omega)

theorem be32_take (d : Bytes) {k off : Nat} (h : off + 3 < k) :
    be32 (d.take k) off = be32 d off := by
  refine be32_congr fun i _ hi => ?_
  rw [List.getD_eq_getElem?_getD, List.getD_eq_getElem?_getD,
    List.getElem?_take_of_lt (by omega)]

/-- Behind the end there are zeros. -/
theorem be32_of_length_le {d : Bytes} {off : Nat} (h : d.length ≤ off) : be32 d off = 0 := by
  have hzero : ∀ i, off ≤ i → i < off + 4 → d.getD i 0 = ([] : Bytes).getD i 0 := fun i hi _ => by
    rw [List.getD_eq_default _ _ (by omega), List.getD_nil]
  rw [be32_congr hzero]
  simp [be32]

theorem be32_padded (n : Nat) (d : Bytes) (off : Nat) : be32 (padded n d) off = be32 d off := by
  refine be32_congr fun i _ _ => ?_
  rw [padded]
  rcases Nat.lt_or_ge i d.length with hi | hi
  · exact List.getD_append _ _ _ _ hi
  · rw [List.getD_append_right _ _ _ _ hi, List.getD_eq_default d _ hi,
      List.getD_eq_getElem?_getD, List.getElem?_replicate]
    split
    · rfl
    · rfl

theorem be32_lt (h : Bytes) (off : Nat) : be32 h off < 2 ^ 32 := by
  have h0 := (h.getD off 0).toNat_lt
  have h1 := (h.getD (off + 1) 0).toNat_lt
  have h2 := (h.getD (off + 2) 0).toNat_lt
  have h3 := (h.getD (off + 3) 0).toNat_lt
  rw [be32]
  omega

theorem short_append {s : Bytes} {off : Nat} (h : off + 1 < s.length) (t : Bytes) :
    short (s ++ t) off = short s off := by
  have h0 : off < s.length := by omega
  unfold short
  rw [List.getD_append _ _ _ _ h0, List.getD_append _ _ _ _ h]

/-- A `short` behind other bytes. -/
theorem short_behind (s t : Bytes) (a b : UInt8) : short (s ++ a :: b :: t) s.length
    = (a.toNat + b.toNat * 2 ^ 8 : Int).bmod (2 ^ 16) := by
  have h0 : (s ++ a :: b :: t).getD s.length 0 = a := by
    rw [List.getD_append_right _ _ _ _ (le_refl _), Nat.sub_self, List.getD_cons_zero]
  have h1 : (s ++ a :: b :: t).getD (s.length + 1) 0 = b := by
    rw [List.getD_append_right _ _ _ _ (Nat.le_add_right _ _), Nat.add_sub_cancel_left,
      List.getD_cons_succ, List.getD_cons_zero]
  unfold short
  rw [h0, h1]

theorem int_append {s : Bytes} {off : Nat} (h : off + 3 < s.length) (t : Bytes) :
    int (s ++ t) off = int s off := by
  have h0 : off < s.length := by omega
  have h1 : off + 1 < s.length := by omega
  have h2 : off + 2 < s.length := by omega
  unfold int
  rw [List.getD_append _ _ _ _ h0, List.getD_append _ _ _ _ h1, List.getD_append _ _ _ _ h2,
    List.getD_append _ _ _ _ h]

theorem int_intBytes {x : Nat} (h : x < 2 ^ 31) (s t : Bytes) :
    int (s ++ (intBytes x ++ t)) s.length = x := by
  have hget : ∀ i, (s ++ (intBytes x ++ t)).getD (s.length + i) 0 = (intBytes x ++ t).getD i 0 := by
    intro i
    rw [List.getD_append_right _ _ _ _ (Nat.le_add_right _ _), Nat.add_sub_cancel_left]
  have h0 := hget 0
  rw [Nat.add_zero] at h0
  unfold int
  rw [h0, hget, hget, hget]
  simp only [intBytes, List.cons_append, List.getD_cons_zero, List.getD_cons_succ,
    Nat.toUInt8_eq, UInt8.toNat_ofNat']
  rw [int32, Int.bmod_eq_of_le] <;> omega

theorem int32_of_lt {x : Int} (h : -2 ^ 31 ≤ x) (h' : x < 2 ^ 31) : int32 x = x := by
  rw [int32, Int.bmod_eq_of_le] <;> omega

theorem int32_lt (x : Int) : int32 x < 2 ^ 31 := by
  have h := Int.bmod_lt (x := x) (m := 2 ^ 32) (by decide)
  rw [int32]
  omega

theorem Abi.ofChar_ascii (abi : Abi) {b : UInt8} (h : b.toNat < 128) :
    abi.ofChar b = b.toNat := by
  rw [Abi.ofChar]
  split
  · rw [Int.bmod_eq_of_le] <;> omega
  · rfl

theorem Abi.toChar_low (abi : Abi) {x : Int} (h : 0 ≤ x) (h' : x < 128) : abi.toChar x = x := by
  rw [Abi.toChar]
  split
  · rw [Int.bmod_eq_of_le] <;> omega
  · omega

theorem Abi.toChar_high (abi : Abi) {x : Int} (h : 128 ≤ x) (h' : x < 256) :
    abi.toChar x = if abi.charSigned then x - 256 else x := by
  rw [Abi.toChar]
  split
  · rw [Int.bmod_neg _ _ (by omega)]
    omega
  · omega

/-! ### Decimal strings -/

theorem isDigit_iff {c : UInt8} : isDigit c = true ↔ 48 ≤ c.toNat ∧ c.toNat ≤ 57 := by
  simp [isDigit, UInt8.le_iff_toNat_le]

theorem not_isSpace_of_isDigit {c : UInt8} (h : isDigit c = true) : isSpace c = false := by
  rw [isDigit_iff] at h
  simp only [isSpace, UInt8.le_iff_toNat_le, Bool.or_eq_false_iff, decide_eq_false_iff_not,
    Bool.and_eq_false_imp, decide_eq_true_eq]
  refine ⟨fun hc => ?_, fun _ h' => ?_⟩
  · rw [hc] at h
    exact absurd h.1 (by decide)
  · have : c.toNat ≤ 13 := h'
    omega

/-- On a string of digits `atoi` is the number they stand for. -/
theorem atoi_digits {s : Bytes} (h : ∀ c ∈ s, isDigit c = true) : atoi s = digitsVal s := by
  cases s with
  | nil => rfl
  | cons c t =>
    have hc := h c (by simp)
    have hr := isDigit_iff.mp hc
    have h45 : c ≠ 45 := by rintro rfl; exact absurd hr.1 (by decide)
    have h43 : c ≠ 43 := by rintro rfl; exact absurd hr.1 (by decide)
    rw [atoi, List.dropWhile_cons_of_neg (by simp [not_isSpace_of_isDigit hc])]
    simp only
    rw [if_neg h45, if_neg h43, List.takeWhile_eq_self_iff.mpr h]

/-- Leading zeros do not count. -/
theorem digitsVal_dropWhile_zero (s : Bytes) :
    digitsVal (s.dropWhile (· = 48)) = digitsVal s := by
  induction s with
  | nil => rfl
  | cons c t ih =>
    by_cases hc : c = 48
    · rw [List.dropWhile_cons_of_pos (by simpa using hc), ih, hc]
      rfl
    · rw [List.dropWhile_cons_of_neg (by simpa using hc)]

end Boxing.C
