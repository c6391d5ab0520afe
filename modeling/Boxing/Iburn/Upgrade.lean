import Boxing.Iburn.Image

/-!
# `upgrade_main_board` of `iburn.c`

The header of the file is checked first.  Then the image in the NOR flash, when it
verifies, is copied to the NAND flash and the copy verified; the flag 0x1 is set;
the signature is checked where the build has one; and only then the NOR flash is
erased and written, the boot loader after it with `-u`, and the flag set to 0xff.

Every way out but the last returns -1.  A scan that runs past the stack buffer, or a
signature that runs past the mapped pages, is a crash.
-/

namespace Boxing.Iburn

open C Device Uboot

/-- What is fixed outside the function. -/
structure Config where
  abi : Abi
  board : Board
  OS_IMG_START : Nat
  IH_MAGIC : Nat
  IMAGENAME : Bytes
  name_fits : IMAGENAME.length < 32
  pageSize : Nat
  HMAC : Bytes → Bytes

/-- What the stack holds at first: in the buffer and behind it, and in the buffers of
the two verifying functions. -/
structure Stack where
  buf : Bytes
  behind : Bytes
  nor : Bytes
  nand : Bytes

/-- Where the function ends: at `return -1`, in a crash, or at `return 0`. -/
inductive Exit
  | failed
  | crashed
  | success
deriving DecidableEq, Repr

/-! ### The header of the file -/

/-- `datalen < OS_IMG_START + ntohl(ih_size) + sizeof(image_header)`: the first sum
is an `unsigned int`, the second a `size_t`. -/
def too_short (cfg : Config) (datalen : Int) (size : Nat) : Bool :=
  datalen % 2 ^ cfg.abi.longBits
    < (((cfg.OS_IMG_START + size) % 2 ^ 32 + imageHeaderSize) % 2 ^ cfg.abi.longBits : Nat)

/-- Magic, name, size and the checksum of the header. -/
def header_ok (cfg : Config) (datalen : Int) (h : Bytes) : Bool :=
  ih_magic h = cfg.IH_MAGIC ∧ str (ih_name h) = cfg.IMAGENAME ∧
    too_short cfg datalen (ih_size h) = false ∧
      (crc32 cfg.abi 0 (clear_hcrc h)).toNat = ih_hcrc h

/-! ### The backup -/

/-- The variables of the copy loop: where the NOR is read and where the NAND is
written. -/
structure Dump where
  pos : Nat
  offs : Int
  buf : Bytes

/-- `while ((n=read(norFd, buf, sizeof(buf)))>0) { n = part_write(...); offs = n; }`. -/
def dump_body (s : Dump) : Prog MbRet (Dump ⊕ Bytes) := do
  let r : Option Bytes ← askMb (.read .firstos s.pos bufSize)
  if moved r = 0 then pure (.inr (take_in s.buf r))
  else do
    let n : Int ← askMb (.part_write .secondos s.offs ((take_in s.buf r).take bufSize))
    pure (.inl ⟨s.pos + moved r, n, take_in s.buf r⟩)

/-- The copy to the NAND flash, verified: an exit, or what is in the buffer. -/
def dump_all (cfg : Config) (stack : Stack) (buf : Bytes) : Prog MbRet (Exit ⊕ Bytes) := do
  let nandFd : Bool ← askMb (.part_open .secondos)
  if nandFd = false then pure (.inl .failed) else do
  let err : Int ← askMb (.part_erase .secondos 0 (-1))
  if err < 0 then pure (.inl .failed) else do
  let buf : Bytes ← Prog.iterate dump_body ⟨0, 0, buf⟩
  let err : Int ← verify_nand_image cfg.abi .secondos stack.nand
  if err < 0 then pure (.inl .failed) else pure (.inr buf)

/-- The backup, skipped when there is no valid main image. -/
def backup (cfg : Config) (stack : Stack) (buf : Bytes) : Prog MbRet (Exit ⊕ Bytes) := do
  let err : Int ← verify_nor_image cfg.abi .firstos stack.nor
  if err < 0 then pure (.inr buf) else dump_all cfg stack buf

/-! ### The signature -/

/-- `SHA256_LEN`. -/
def SHA256_LEN : Nat := 32

/-- `offset - pa_offset`. -/
def slack (cfg : Config) : Nat := cfg.OS_IMG_START % cfg.pageSize

/-- `img_start` with `datalen + offset - pa_offset` bytes, as `HMAC` is given it. -/
def signed_part (cfg : Config) (datalen : Int) (p_map : Bytes) : Bytes :=
  (p_map.drop (slack cfg)).take (datalen + slack cfg).toNat

/-- What `HMAC` and `memcpy` read lies in the mapped pages. -/
def in_pages (cfg : Config) (datalen : Int) (p_map : Bytes) : Bool :=
  0 ≤ datalen + slack cfg ∧
    slack cfg + (datalen + slack cfg).toNat + (cfg.HMAC (signed_part cfg datalen p_map)).length
      ≤ p_map.length

/-- `memcmp(hmac, hmac_saved, hmac_len) == 0`. -/
def hmac_matches (cfg : Config) (datalen : Int) (p_map : Bytes) : Bool :=
  (p_map.drop (slack cfg + (datalen + slack cfg).toNat)).take
      (cfg.HMAC (signed_part cfg datalen p_map)).length
    = cfg.HMAC (signed_part cfg datalen p_map)

/-- The check of the signature: none when it went well, or the exit taken. -/
def check_hmac (cfg : Config) (datalen : Int) : Prog MbRet (Option Exit) := do
  let p_map : Option Bytes ←
    askMb (.mmap (cfg.OS_IMG_START - slack cfg) (datalen + slack cfg + SHA256_LEN))
  match p_map with
  | none => pure (some .failed)
  | some p_map =>
    if in_pages cfg datalen p_map = false then pure (some .crashed)
    else if hmac_matches cfg datalen p_map then pure none
    else pure (some .failed)

/-! ### The main image -/

/-- The variables of a loop that writes the file to a partition. -/
structure Burn where
  pos : Nat
  dest : Nat
  buf : Bytes

/-- `while ((n=read(imageFd, buf, sizeof(buf)))>0) { ...; write(norFd, buf, n); ... }`. -/
def burn_body (s : Burn) : Prog MbRet (Burn ⊕ Bytes) := do
  let r : Option Bytes ← askMb (.read_file s.pos bufSize)
  if moved r = 0 then pure (.inr (take_in s.buf r))
  else do
    let n : Int ← askMb (.write .firstos s.dest ((take_in s.buf r).take (moved r)))
    pure (.inl ⟨s.pos + moved r, s.dest + n.toNat, take_in s.buf r⟩)

/-- `nblock = (datalen>>16) + 1`. -/
def nblock (datalen : Int) : Int := datalen / 65536 + 1

/-- Erase the NOR flash and write it. -/
def burn (cfg : Config) (datalen : Int) (buf : Bytes) : Prog MbRet (Exit ⊕ Bytes) := do
  let err : Int ← askMb (.part_erase .firstos 0 (nblock datalen))
  if err < 0 then pure (.inl .failed) else do
  let buf : Bytes ← Prog.iterate burn_body ⟨cfg.OS_IMG_START, 0, buf⟩
  pure (.inr buf)

/-! ### The boot loader -/

/-- The variables of the loop that writes the boot loader. -/
structure BootCopy where
  i : Int
  pos : Nat
  dest : Nat
  buf : Bytes

/-- `for (i=0 ; i<nblock ; i++) { n=read(imageFd, buf, ...); write(bootFd, buf, sizeof(buf)); }`. -/
def boot_body (nblock : Int) (s : BootCopy) : Prog MbRet (BootCopy ⊕ BootCopy) :=
  if s.i < nblock then do
    let r : Option Bytes ← askMb (.read_file s.pos bufSize)
    let n : Int ← askMb (.write .bootloader s.dest ((take_in s.buf r).take bufSize))
    pure (.inl ⟨s.i + 1, s.pos + moved r, s.dest + n.toNat, take_in s.buf r⟩)
  else pure (.inr s)

/-- `while (*pbuf && pbuf - (char *)buf < sizeof(buf))`, over the buffer and what lies
behind it: where `pbuf` ends, or none for a crash. -/
def find_version (mem : Bytes) (pbuf : Nat) : Option Nat :=
  match _h : mem.drop pbuf with
  | [] => none
  | c :: m =>
    if c = 0 ∨ bufSize ≤ pbuf then some pbuf
    else
      match strlen (c :: m) with
      | none => none
      | some k =>
        if strncmpEq ((c :: m).take k) (asc "version") 7 then some pbuf
        else find_version mem (pbuf + k + 1)
termination_by mem.length - pbuf
decreasing_by
  have hlen := congrArg List.length _h
  rw [List.length_drop, List.length_cons] at hlen
  omega

/-- `if (*pbuf && pbuf - (char *)buf < sizeof(buf)) bootenv_set(...)`; true is no
crash. -/
def set_version (mem : Bytes) : Prog MbRet Bool :=
  match find_version mem 4 with
  | none => pure false
  | some pbuf =>
    if mem.getD pbuf 0 ≠ 0 ∧ pbuf < bufSize then
      match strlen (mem.drop (pbuf + 8)) with
      | none => pure false
      | some _ => do
        let _ : Int ← askMb (.bootenv_set (asc "version") (str (mem.drop (pbuf + 8))))
        pure true
    else pure true

/-- `mtd_size(bootFd)/sizeof(buf) - 1`. -/
def boot_nblock (cfg : Config) (size : Int) : Int :=
  int32 (size % 2 ^ cfg.abi.longBits / bufSize - 1)

/-- The boot loader, and the version in the boot environment: none when all went
through, or the exit taken. -/
def upgrade_bootloader (cfg : Config) (behind buf : Bytes) : Prog MbRet (Option Exit) := do
  let bootFd : Bool ← askMb (.part_open .bootloader)
  if bootFd = false then pure (some .failed) else do
  let size : Int ← askMb (.mtd_size .bootloader)
  let _ : Int ← askMb (.part_erase .bootloader 0 (boot_nblock cfg size))
  let copy : BootCopy ← Prog.iterate (boot_body (boot_nblock cfg size)) ⟨0, 0, 0, buf⟩
  let r : Option Bytes ← askMb (.read_file copy.pos bufSize)
  let ok : Bool ← set_version (take_in copy.buf r ++ behind)
  if ok then pure none else pure (some .crashed)

/-! ### The function -/

/-- From `set_bootflag(0xff)` on. -/
def finish : Prog MbRet Exit := do
  let err : Int ← askMb (.set_bootflag 0xff)
  if err < 0 then pure .failed else pure .success

/-- From the boot loader on. -/
def after_burn (cfg : Config) (upgrade_boot : Bool) (behind buf : Bytes) : Prog MbRet Exit := do
  if upgrade_boot then do
    let done : Option Exit ← upgrade_bootloader cfg behind buf
    match done with
    | some e => pure e
    | none => finish
  else finish

/-- From the erase of the main image on. -/
def burn_main (cfg : Config) (upgrade_boot : Bool) (behind buf : Bytes) (datalen : Int) :
    Prog MbRet Exit := do
  let burnt : Exit ⊕ Bytes ← burn cfg datalen buf
  match burnt with
  | .inl e => pure e
  | .inr buf => after_burn cfg upgrade_boot behind buf

/-- From the check of the signature on. -/
def after_flag (cfg : Config) (upgrade_boot : Bool) (behind buf : Bytes) (datalen : Int) :
    Prog MbRet Exit :=
  match cfg.board with
  | .IR9 => burn_main cfg upgrade_boot behind buf datalen
  | .IDTU9 => do
    let checked : Option Exit ← check_hmac cfg datalen
    match checked with
    | some e => pure e
    | none => burn_main cfg upgrade_boot behind buf datalen

/-- From `set_bootflag(0x1)` on. -/
def after_backup (cfg : Config) (upgrade_boot : Bool) (behind buf : Bytes) (datalen : Int) :
    Prog MbRet Exit := do
  let err : Int ← askMb (.set_bootflag 0x1)
  if err < 0 then pure .failed else after_flag cfg upgrade_boot behind buf datalen

/-- From the backup on, for a file whose header is good. -/
def backup_and_burn (cfg : Config) (upgrade_boot : Bool) (stack : Stack) (buf : Bytes) :
    Prog MbRet Exit := do
  let norFd : Bool ← askMb (.part_open .firstos)
  if norFd = false then pure .failed else do
  let saved : Exit ⊕ Bytes ← backup cfg stack buf
  match saved with
  | .inl e => pure e
  | .inr buf' => after_backup cfg upgrade_boot stack.behind buf' (image_datalen buf)

/-- `upgrade_main_board(file, upgrade_boot)`. -/
def upgrade_main_board (cfg : Config) (upgrade_boot : Bool) (stack : Stack) :
    Prog MbRet Exit := do
  let there : Bool ← askMb .f_exists
  if there = false then pure .failed else do
  let fd : Bool ← askMb (.part_open .bootflag)
  if fd = false then pure .failed else do
  let _ : BitVec 32 ← askMb .read_bootflag
  let imageFd : Bool ← askMb .open_file
  if imageFd = false then pure .failed else do
  let st_size : Int ← askMb .fstat
  let r : Option Bytes ← askMb (.read_file cfg.OS_IMG_START bufSize)
  if header_ok cfg (int32 st_size) ((take_in stack.buf r).take imageHeaderSize) then
    backup_and_burn cfg upgrade_boot stack (take_in stack.buf r)
  else pure .failed

/-- A configuration on a 32-bit machine. -/
def plainConfig : Config where
  abi := ⟨true, false⟩
  board := .IR9
  OS_IMG_START := 0
  IH_MAGIC := 0x27051956
  IMAGENAME := []
  name_fits := by decide
  pageSize := 4096
  HMAC := fun _ => []

/-- A header for one byte of payload, with the checksum of the header right and that of
the payload 0. -/
def plainHeader : Bytes :=
  htonl 0x27051956 ++ htonl 0xbcf13c06 ++ [0, 0, 0, 0] ++ htonl 1 ++ List.replicate 48 0

theorem header_ok_plainHeader : header_ok plainConfig 65 plainHeader = true := by decide +kernel

end Boxing.Iburn
