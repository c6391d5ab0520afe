import Boxing.C.Num

/-!
# The checksum of `uboot.c`

The code does not use zlib's `crc32`; it carries its own, with a table made anew
for every call and a loop unrolled eight times.  An `unsigned long` is 32 or 64
bits and a plain `char` has a sign or not, so the translation takes the `Abi` and
computes in `BitVec abi.longBits`.

The callers of `uboot.c` and `intools.c` keep the result in an `int` and compare
it with the four bytes in front of the data: `crc_int` is that value.
-/

namespace Boxing.Uboot

open C

/-- `p[]` of `crc_init`: the exponents of the polynomial. -/
def crc_exponents : List Nat := [0, 1, 2, 4, 5, 7, 8, 10, 11, 12, 16, 22, 23, 26]

/-- `poly |= 1L << (31 - p[n])`. -/
def crc_poly (abi : Abi) : BitVec abi.longBits :=
  crc_exponents.foldl (fun poly p => poly ||| (1 <<< (31 - p))) 0

/-- `c = c & 1 ? poly ^ (c >> 1) : c >> 1`. -/
def crc_shift (abi : Abi) (c : BitVec abi.longBits) : BitVec abi.longBits :=
  if c &&& 1 ≠ 0 then crc_poly abi ^^^ (c >>> 1) else c >>> 1

/-- `crc_table[n]` as `crc_init` fills it: eight shifts. -/
def crc_table (abi : Abi) (n : Nat) : BitVec abi.longBits :=
  (List.range 8).foldl (fun c _ => crc_shift abi c) (BitVec.ofNat _ n)

/-- `((int)crc ^ *buf) & 0xff`. -/
def crc_index (abi : Abi) (crc : BitVec abi.longBits) (b : UInt8) : Nat :=
  ((crc.setWidth 32 ^^^ BitVec.ofInt 32 (abi.ofChar b)) &&& 0xff).toNat

/-- `DO1(buf)`. -/
def DO1 (abi : Abi) (crc : BitVec abi.longBits) (b : UInt8) : BitVec abi.longBits :=
  crc_table abi (crc_index abi crc b) ^^^ (crc >>> 8)

/-- `while (len >= 8) { DO8(buf); len -= 8; } if (len) do { DO1(buf); } while (--len);` -/
def crc_loop (abi : Abi) : BitVec abi.longBits → Bytes → BitVec abi.longBits
  | crc, b0 :: b1 :: b2 :: b3 :: b4 :: b5 :: b6 :: b7 :: buf =>
    crc_loop abi ([b0, b1, b2, b3, b4, b5, b6, b7].foldl (DO1 abi) crc) buf
  | crc, buf => buf.foldl (DO1 abi) crc

/-- `crc_calc(crc, buf, len)`. -/
def crc_calc (abi : Abi) (crc : BitVec abi.longBits) (buf : Bytes) : BitVec abi.longBits :=
  crc_loop abi (crc ^^^ 0xffffffff) buf ^^^ 0xffffffff

/-- `crc32(crc, buf, len)`. -/
def crc32 (abi : Abi) (crc : BitVec abi.longBits) (buf : Bytes) : BitVec abi.longBits :=
  crc_calc abi crc buf

/-- `int crc = crc_calc(0, dataptr, datasize)`. -/
def crc_int (abi : Abi) (data : Bytes) : BitVec 32 := (crc_calc abi 0 data).setWidth 32

/-- Check value of CRC-32. -/
example : crc_int ⟨true, true⟩ (asc "123456789") = 0xCBF43926#32 := by decide +kernel

end Boxing.Uboot
