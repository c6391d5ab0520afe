import Boxing.Device.Wp
import Boxing.Iburn.Board
import Boxing.Uboot.Crc32

/-!
# Images, and how `iburn.c` verifies one

An image is a header of 64 bytes and `ih_size` bytes behind it; the header carries
a checksum of itself and one of what follows.  The board keeps two images, one in
NOR flash (`FIRSTOS`) and a copy in NAND flash (`SECONDOS`), and the burner has a
function to verify each.

Both read 64 KiB at a time and carry a checksum along.  They are translated as they
stand, with the lengths in an `int` and the buffer of the stack frame, which holds
anything at first.  The NOR is read through its file position, which is 0 as the
descriptor has just been opened; the NAND with an offset that `part_read` gives
back, because bad blocks are left out.
-/

namespace Boxing.Iburn

open C Device Uboot

/-! ### The header -/

/-- `sizeof(image_header_t)`. -/
def imageHeaderSize : Nat := 64

/-- `ntohl(ih_magic)`. -/
def ih_magic (h : Bytes) : Nat := be32 h 0

/-- `ntohl(ih_hcrc)`. -/
def ih_hcrc (h : Bytes) : Nat := be32 h 4

/-- `ntohl(ih_size)`. -/
def ih_size (h : Bytes) : Nat := be32 h 12

/-- `ntohl(ih_dcrc)`. -/
def ih_dcrc (h : Bytes) : Nat := be32 h 24

/-- `ih_name`. -/
def ih_name (h : Bytes) : Bytes := (h.drop 32).take 32

/-- `image_header.ih_hcrc = 0`. -/
def clear_hcrc (h : Bytes) : Bytes := h.take 4 ++ [0, 0, 0, 0] ++ h.drop 8

/-- `sizeof(image_header) + ntohl(image_header.ih_size)`, as an `int`. -/
def image_datalen (h : Bytes) : Int := int32 (imageHeaderSize + ih_size h)

/-! ### The calls -/

/-- The partitions `iburn` opens. -/
inductive Part
  | bootflag
  | firstos
  | secondos
  | bootloader
deriving DecidableEq, Repr

/-- What `upgrade_main_board` asks of the outside; `read_file` and `mmap` are of the
firmware file. -/
inductive MbCall
  | f_exists
  | open_file
  | fstat
  | part_open (part : Part)
  | mtd_size (part : Part)
  | read_bootflag
  | read_file (pos len : Nat)
  | read (part : Part) (pos len : Nat)
  | write (part : Part) (pos : Nat) (buf : Bytes)
  | part_read (part : Part) (offs : Int) (len : Nat)
  | part_write (part : Part) (offs : Int) (buf : Bytes)
  | part_erase (part : Part) (start nblock : Int)
  | set_bootflag (flag : BitVec 32)
  | mmap (pos : Nat) (len : Int)
  | bootenv_set (name value : Bytes)

/-- The answers: a `read` or an `mmap` that failed is none, and `part_read` gives the
next offset and what it has put into the buffer. -/
abbrev MbRet : MbCall → Type
  | .f_exists => Bool
  | .open_file => Bool
  | .fstat => Int
  | .part_open _ => Bool
  | .mtd_size _ => Int
  | .read_bootflag => BitVec 32
  | .read_file _ _ => Option Bytes
  | .read _ _ _ => Option Bytes
  | .write _ _ _ => Int
  | .part_read _ _ _ => Int × Bytes
  | .part_write _ _ _ => Int
  | .part_erase _ _ _ => Int
  | .set_bootflag _ => Int
  | .mmap _ _ => Option Bytes
  | .bootenv_set _ _ => Int

/-- One call of the burner. -/
abbrev askMb (c : MbCall) : Prog MbRet (MbRet c) := Prog.ask c

/-! ### Verifying -/

/-- `sizeof(buf)`: one sector. -/
def bufSize : Nat := 65536

/-- `n = MIN(sizeof(buf), datalen - len)`. -/
def chunk (datalen len : Int) : Nat := min bufSize (datalen - len).toNat

theorem bufSize_pos : 0 < bufSize := by decide

theorem chunk_le (datalen len : Int) : chunk datalen len ≤ bufSize := Nat.min_le_left _ _

/-- `newcrc` after the header's sector. -/
def first_crc (abi : Abi) (buf : Bytes) : BitVec abi.longBits :=
  crc32 abi 0 ((buf.take bufSize).drop imageHeaderSize)

/-- The variables of a verify loop, with where it reads next. -/
structure Verifying (abi : Abi) (Pos : Type) where
  len : Int
  newcrc : BitVec abi.longBits
  pos : Pos
  buf : Bytes

/-- `for (;len < datalen;)` of `verify_nor_image`; none is the `read error`. -/
def nor_body (abi : Abi) (fd : Part) (datalen : Int) (s : Verifying abi Nat) :
    Prog MbRet (Verifying abi Nat ⊕ Option (BitVec abi.longBits)) :=
  if s.len < datalen then do
    let r : Option Bytes ← askMb (.read fd s.pos bufSize)
    if moved r = 0 then pure (.inr none)
    else pure (.inl ⟨int32 (s.len + bufSize),
      crc32 abi s.newcrc ((take_in s.buf r).take (chunk datalen s.len)),
      s.pos + moved r, take_in s.buf r⟩)
  else pure (.inr (some s.newcrc))

/-- `verify_nor_image(fd)`, the buffer holding `buf` at first. -/
def verify_nor_image (abi : Abi) (fd : Part) (buf : Bytes) : Prog MbRet Int := do
  let r : Option Bytes ← askMb (.read fd 0 bufSize)
  if moved r = 0 then pure (-1)
  else if ih_dcrc (take_in buf r) = 0xffffffff then pure (-1) else do
  let size : Int ← askMb (.mtd_size fd)
  if size < image_datalen (take_in buf r) then pure (-1) else do
  let newcrc : Option (BitVec abi.longBits) ←
    Prog.iterate (nor_body abi fd (image_datalen (take_in buf r)))
      ⟨bufSize, first_crc abi (take_in buf r), moved r, take_in buf r⟩
  match newcrc with
  | none => pure (-1)
  | some newcrc => if newcrc.toNat ≠ ih_dcrc (take_in buf r) then pure (-1) else pure 0

/-- `for (;len < datalen;)` of `verify_nand_image`. -/
def nand_body (abi : Abi) (fd : Part) (datalen : Int) (s : Verifying abi Int) :
    Prog MbRet (Verifying abi Int ⊕ Option (BitVec abi.longBits)) :=
  if s.len < datalen then do
    let r : Int × Bytes ← askMb (.part_read fd s.pos bufSize)
    if r.1 ≤ 0 then pure (.inr none)
    else pure (.inl ⟨int32 (s.len + bufSize),
      crc32 abi s.newcrc ((take_in s.buf (some r.2)).take (chunk datalen s.len)),
      r.1, take_in s.buf (some r.2)⟩)
  else pure (.inr (some s.newcrc))

/-- `verify_nand_image(fd)`. -/
def verify_nand_image (abi : Abi) (fd : Part) (buf : Bytes) : Prog MbRet Int := do
  let r : Int × Bytes ← askMb (.part_read fd 0 bufSize)
  if r.1 ≤ 0 then pure (-1) else do
  let newcrc : Option (BitVec abi.longBits) ←
    Prog.iterate (nand_body abi fd (image_datalen (take_in buf (some r.2))))
      ⟨bufSize, first_crc abi (take_in buf (some r.2)), r.1, take_in buf (some r.2)⟩
  match newcrc with
  | none => pure (-1)
  | some newcrc =>
    if newcrc.toNat ≠ ih_dcrc (take_in buf (some r.2)) then pure (-1) else pure 0

end Boxing.Iburn
