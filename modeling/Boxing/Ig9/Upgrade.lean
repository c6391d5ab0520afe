import Boxing.C.Num
import Boxing.C.StrList
import Boxing.Device.Wp

/-!
# `upgrade_main_board` of `iburn_ig9.c`

The boards with an eMMC keep two OS banks and a flag word that names the one to
boot.  An upgrade may first replace the boot loader (`-u`), then checks the file,
and then writes it to the bank that is not to be booted, and sets the flag.

The constants come from headers that are not in the repository, and the two checks
of `image-fit.c` only read the mapped image: both are fields of a `Config`.  The
version scan can look behind the stack buffer; what it finds there is `behind`, and
behind that the program crashes.
-/

namespace Boxing.Ig9

open C Device

/-! ### The header of a flattened device tree -/

/-- `sizeof(struct fdt_header)`. -/
def fdtHeaderSize : Nat := 40

/-- `fdt_magic`. -/
def fdt_magic (h : Bytes) : Nat := be32 h 0

/-- `fdt_totalsize`. -/
def fdt_totalsize (h : Bytes) : Nat := be32 h 4

/-- `fdt_version`. -/
def fdt_version (h : Bytes) : Nat := be32 h 20

/-- `fdt_last_comp_version`. -/
def fdt_last_comp_version (h : Bytes) : Nat := be32 h 24

/-- `fdt_size_dt_struct`. -/
def fdt_size_dt_struct (h : Bytes) : Nat := be32 h 36

/-- `FDT_MAGIC`. -/
def FDT_MAGIC : Nat := 0xd00dfeed

/-- `FDT_SW_MAGIC`: `~FDT_MAGIC`. -/
def FDT_SW_MAGIC : Nat := 0x2ff20112

/-- `fdt_check_header`: 0, or `-FDT_ERR_BADVERSION`, `-FDT_ERR_BADSTATE` and
`-FDT_ERR_BADMAGIC`. -/
def fdt_check_header (h : Bytes) : Int :=
  if fdt_magic h = FDT_MAGIC then
    if fdt_version h < 0x10 then -10
    else if fdt_last_comp_version h > 0x11 then -10
    else 0
  else if fdt_magic h = FDT_SW_MAGIC then
    if fdt_size_dt_struct h = 0 then -7 else 0
  else -9

/-! ### The calls -/

/-- The partitions `upgrade_main_board` opens. -/
inductive Part
  | bootloader
  | firstos
  | secondos
  | bootflag
deriving DecidableEq, Repr

/-- What is fixed outside the function. -/
structure Config where
  EMMC_WRITE_BUFF_SIZE : Nat
  BOOTLOADER_PART_START : Nat
  BOOTLOADER_SIZE : Nat
  BOOTLOADER_IMG_START : Nat
  CFG_ENV_OFFSET : Nat
  BOOT_ENV_SIZE : Nat
  BOOT_ENV_MODIFIED_NUM : Nat
  OS_IMG_START : Nat
  fit_check_format : Bytes → Bool
  fit_all_image_verify : Bytes → Bool

/-- What `upgrade_main_board` asks of the outside; `read` and `mmap` are of the
firmware file, `mtd_erase` is the command given to `system`. -/
inductive IgCall
  | f_exists
  | open_file
  | fstat
  | mtd_erase (part : Part) (start count : Nat)
  | part_open (part : Part)
  | read (pos len : Nat)
  | write (part : Part) (buf : Bytes) (size : Nat)
  | bootenv_set (name value : Bytes)
  | mmap (pos len : Nat)
  | munmap
  | read_bootflag
  | set_bootflag (flag : BitVec 32)

/-- The answers: a failed `read` or `mmap` is none. -/
abbrev IgRet : IgCall → Type
  | .f_exists => Bool
  | .open_file => Bool
  | .fstat => Int
  | .mtd_erase _ _ _ => Int
  | .part_open _ => Bool
  | .read _ _ => Option Bytes
  | .write _ _ _ => Int
  | .bootenv_set _ _ => Int
  | .mmap _ _ => Option Bytes
  | .munmap => Int
  | .read_bootflag => BitVec 32
  | .set_bootflag _ => Int

/-- One call of the burner. -/
abbrev askIg (c : IgCall) : Prog IgRet (IgRet c) := Prog.ask c

/-- Where the function ends. -/
inductive Exit
  | noFile
  | openFailed
  | bootPartFailed
  | crashed
  | readFailed
  | badHeader
  | badSize
  | mmapFailed
  | badFormat
  | badHash
  | munmapFailed
  | flagPartFailed
  | osPartFailed
  | flagFailed
  | success
deriving DecidableEq, Repr

/-- What it returns there, if it does. -/
def Exit.code : Exit → Option Int
  | .crashed => none
  | .success => some 0
  | _ => some (-1)

/-- The file was rejected by one of the four checks. -/
def Exit.rejected (e : Exit) : Prop :=
  e = .badHeader ∨ e = .badSize ∨ e = .badFormat ∨ e = .badHash

/-! ### The boot loader -/

/-- The state of the copy loop. -/
structure Copy where
  n : Int
  pos : Nat
  buf : Bytes

/-- `while (n > 0) { ... size = read(...); write(bootFd, buf, size); n -= size; }`. -/
def copy_body (cfg : Config) (s : Copy) : Prog IgRet (Copy ⊕ Copy) :=
  if 0 < s.n then do
    let r : Option Bytes ← askIg (.read s.pos (min s.n.toNat cfg.EMMC_WRITE_BUFF_SIZE))
    let _ : Int ←
      askIg (.write .bootloader ((take_in s.buf r).take (size_of r)) (size_of r))
    pure (.inl ⟨int32 (s.n - size_of r), s.pos + moved r, take_in s.buf r⟩)
  else pure (.inr s)

/-- The state of the scan of one block. -/
structure Scan where
  pbuf : Nat
  setenv_num : Nat

/-- Behind the entry of `k` characters, unless enough was found. -/
def scan_next (cfg : Config) (s : Scan) (k : Nat) : Scan ⊕ Option Scan :=
  if s.setenv_num = cfg.BOOT_ENV_MODIFIED_NUM then .inr (some s)
  else .inl { s with pbuf := s.pbuf + k + 1 }

/-- `while (*pbuf && pbuf - (char *)buf < sizeof(buf))`, over the buffer and what
lies behind it; none is a crash. -/
def scan_body (cfg : Config) (mem : Bytes) (s : Scan) : Prog IgRet (Scan ⊕ Option Scan) :=
  match mem.drop s.pbuf with
  | [] => pure (.inr none)
  | c :: m =>
    if c = 0 ∨ cfg.EMMC_WRITE_BUFF_SIZE ≤ s.pbuf then pure (.inr (some s))
    else
      match strlen (c :: m) with
      | none => pure (.inr none)
      | some k =>
        if strncmpEq ((c :: m).take k) (asc "version") 7 then
          match strlen (mem.drop (s.pbuf + 8)) with
          | none => pure (.inr none)
          | some _ => do
            let _ : Int ← askIg (.bootenv_set (asc "version") (str (mem.drop (s.pbuf + 8))))
            pure (scan_next cfg { s with setenv_num := s.setenv_num + 1 } k)
        else pure (scan_next cfg s k)

/-- The state of the loop over the blocks of the environment. -/
structure Blocks where
  i : Nat
  first_flag : Bool
  setenv_num : Nat
  pos : Nat
  buf : Bytes

/-- `*pbuf && pbuf - (char *)buf < sizeof(buf) && setenv_num == BOOT_ENV_MODIFIED_NUM`. -/
def scan_done (cfg : Config) (mem : Bytes) (s : Scan) : Bool :=
  mem.getD s.pbuf 0 ≠ 0 ∧ s.pbuf < cfg.EMMC_WRITE_BUFF_SIZE ∧
    s.setenv_num = cfg.BOOT_ENV_MODIFIED_NUM

/-- `for (i = 0; i < BOOT_ENV_SIZE/EMMC_WRITE_BUFF_SIZE; i++)`; false is a crash. -/
def blocks_body (cfg : Config) (behind : Bytes) (s : Blocks) : Prog IgRet (Blocks ⊕ Bool) :=
  if s.i < cfg.BOOT_ENV_SIZE / cfg.EMMC_WRITE_BUFF_SIZE then do
    let r : Option Bytes ← askIg (.read s.pos cfg.EMMC_WRITE_BUFF_SIZE)
    let scan : Option Scan ← Prog.iterate (scan_body cfg (take_in s.buf r ++ behind))
      ⟨if s.first_flag then 4 else 0, s.setenv_num⟩
    match scan with
    | none => pure (.inr false)
    | some scan =>
      if scan_done cfg (take_in s.buf r ++ behind) scan then pure (.inr true)
      else pure (.inl ⟨s.i + 1, false, scan.setenv_num, s.pos + moved r, take_in s.buf r⟩)
  else pure (.inr true)

/-- The boot loader and the version in the boot environment: none when all went
through, or the exit taken. -/
def upgrade_bootloader (cfg : Config) (buf behind : Bytes) : Prog IgRet (Option Exit) := do
  let _ : Int ← askIg (.mtd_erase .bootloader cfg.BOOTLOADER_PART_START cfg.BOOTLOADER_SIZE)
  let bootFd : Bool ← askIg (.part_open .bootloader)
  if bootFd = false then pure (some .bootPartFailed) else do
  let copy : Copy ← Prog.iterate (copy_body cfg)
    ⟨int32 (cfg.BOOTLOADER_SIZE * cfg.EMMC_WRITE_BUFF_SIZE), cfg.BOOTLOADER_IMG_START, buf⟩
  let ok : Bool ← Prog.iterate (blocks_body cfg behind) ⟨0, true, 0, cfg.CFG_ENV_OFFSET, copy.buf⟩
  if ok then pure none else pure (some .crashed)

/-! ### The checks -/

/-- `datalen < OS_IMG_START + len`, in unsigned arithmetic. -/
def too_short (cfg : Config) (datalen : Int) (len : Nat) : Bool :=
  datalen % 2 ^ 32 < ((cfg.OS_IMG_START + len) % 2 ^ 32 : Nat)

/-- The checks from `fdt_check_header` on: none when the file passed, or the exit
taken. -/
def check_header (cfg : Config) (datalen : Int) (fit_image_header : Bytes) :
    Prog IgRet (Option Exit) :=
  if fdt_check_header fit_image_header ≠ 0 then pure (some .badHeader)
  else if too_short cfg datalen (fdt_totalsize fit_image_header) then pure (some .badSize)
  else do
    let p_map : Option Bytes ← askIg (.mmap cfg.OS_IMG_START (fdt_totalsize fit_image_header))
    match p_map with
    | none => pure (some .mmapFailed)
    | some img_start =>
      if cfg.fit_check_format img_start = false then do
        let _ : Int ← askIg .munmap
        pure (some .badFormat)
      else if cfg.fit_all_image_verify img_start = false then do
        let _ : Int ← askIg .munmap
        pure (some .badHash)
      else do
        let ret : Int ← askIg .munmap
        if ret < 0 then pure (some .munmapFailed) else pure none

/-- All checks; the header is cleared before it is read. -/
def check_image (cfg : Config) (datalen : Int) : Prog IgRet (Option Exit) := do
  let r : Option Bytes ← askIg (.read cfg.OS_IMG_START fdtHeaderSize)
  match r with
  | none => pure (some .readFailed)
  | some d => check_header cfg datalen (padded fdtHeaderSize d)

/-- The calls the checks make: none of them writes. -/
def Looks : IgCall → Prop
  | .read _ _ => True
  | .mmap _ _ => True
  | .munmap => True
  | _ => False

theorem only_header (cfg : Config) (datalen : Int) (h : Bytes) :
    Prog.Only Looks (check_header cfg datalen h) := by
  rw [check_header]
  split
  · exact trivial
  split
  · exact trivial
  rw [Prog.ask_bind, Prog.only_call]
  refine ⟨trivial, fun p_map => ?_⟩
  cases p_map with
  | none => exact trivial
  | some img =>
    simp only
    split
    · exact ⟨trivial, fun _ => trivial⟩
    split
    · exact ⟨trivial, fun _ => trivial⟩
    rw [Prog.ask_bind, Prog.only_call]
    refine ⟨trivial, fun ret => ?_⟩
    split
    · exact trivial
    · exact trivial

theorem only_check (cfg : Config) (datalen : Int) :
    Prog.Only Looks (check_image cfg datalen) := by
  rw [check_image, Prog.ask_bind, Prog.only_call]
  refine ⟨trivial, fun r => ?_⟩
  cases r with
  | none => exact trivial
  | some d => exact only_header cfg datalen _

/-! ### The bank -/

/-- `if (bootflag & 0xff) bootflag = ~(bootflag & 0x80000000);`. -/
def turned (bootflag : BitVec 32) : BitVec 32 :=
  if bootflag &&& 0xff ≠ 0 then ~~~(bootflag &&& 0x80000000) else bootflag

/-- The bank to be written. -/
def target (bootflag : BitVec 32) : Part :=
  if turned bootflag &&& 0x80000000 ≠ 0 then .firstos else .secondos

/-- The flag to be set. -/
def new_flag (bootflag : BitVec 32) : BitVec 32 :=
  if turned bootflag &&& 0x80000000 ≠ 0 then 0x7ffffffe else 0xfffffffe

/-- `while ((n = read(imageFd, buf, sizeof(buf))) > 0) { ...; write(OsFd, buf, n); }`. -/
def write_body (cfg : Config) (part : Part) (s : Nat × Bytes) :
    Prog IgRet ((Nat × Bytes) ⊕ Unit) := do
  let r : Option Bytes ← askIg (.read s.1 cfg.EMMC_WRITE_BUFF_SIZE)
  if moved r = 0 then pure (.inr ())
  else do
    let _ : Int ← askIg (.write part ((take_in s.2 r).take (moved r)) (moved r))
    pure (.inl (s.1 + moved r, take_in s.2 r))

/-- From the boot flag on. -/
def write_bank (cfg : Config) (buf : Bytes) : Prog IgRet Exit := do
  let fd : Bool ← askIg (.part_open .bootflag)
  if fd = false then pure .flagPartFailed else do
  let bootflag : BitVec 32 ← askIg .read_bootflag
  let _ : Int ← askIg (.mtd_erase (target bootflag) 0 1024)
  let OsFd : Bool ← askIg (.part_open (target bootflag))
  if OsFd = false then pure .osPartFailed else do
  let _ : Unit ← Prog.iterate (write_body cfg (target bootflag)) (cfg.OS_IMG_START, buf)
  let err : Int ← askIg (.set_bootflag (new_flag bootflag))
  if err < 0 then pure .flagFailed else pure .success

/-! ### The function -/

/-- The checks, and the bank when the file passed. -/
def check_and_write (cfg : Config) (buf : Bytes) (datalen : Int) : Prog IgRet Exit := do
  let checked : Option Exit ← check_image cfg datalen
  match checked with
  | some e => pure e
  | none => write_bank cfg buf

/-- `upgrade_main_board(file, upgrade_boot)`, with what is in `buf` at first and
what lies behind it. -/
def upgrade_main_board (cfg : Config) (upgrade_boot : Bool) (buf behind : Bytes) :
    Prog IgRet Exit := do
  let there : Bool ← askIg .f_exists
  if there = false then pure .noFile else do
  let imageFd : Bool ← askIg .open_file
  if imageFd = false then pure .openFailed else do
  let st_size : Int ← askIg .fstat
  if upgrade_boot then do
    let done : Option Exit ← upgrade_bootloader cfg buf behind
    match done with
    | some e => pure e
    | none => check_and_write cfg buf (int32 st_size)
  else check_and_write cfg buf (int32 st_size)

/-- A configuration for runs on paper, with blocks of one byte. -/
def tinyConfig : Config where
  EMMC_WRITE_BUFF_SIZE := 1
  BOOTLOADER_PART_START := 0
  BOOTLOADER_SIZE := 1
  BOOTLOADER_IMG_START := 0
  CFG_ENV_OFFSET := 1
  BOOT_ENV_SIZE := 1
  BOOT_ENV_MODIFIED_NUM := 1
  OS_IMG_START := 2
  fit_check_format := fun _ => true
  fit_all_image_verify := fun _ => true

end Boxing.Ig9
