import Mathlib.Logic.Function.Basic
import Boxing.Uboot.WellFormed

/-!
# A session of `intools`

`intools` is the third writer of the environment: it lists the block, takes the
fields it knows out of the list, asks for each of them at the terminal with the
old value as the default, writes the answers behind the entries that are left, and
saves the block when the last answer begins with `y`.

What a field is, which ones a board has, and in which order they are asked is
fixed by the build: `Variant`.  The terminal is the text `stdin`, and `tmpbuf` is
the one buffer all answers go through; `fgets` at the end of the text leaves it as
it was, and nobody looks at what `fgets` returns.

The prompts write into the data area as they go.  They are written here over a
`put` that appends an entry, once with the data area in the buffer and once with
the list of entries: the second says what the first leaves (`asks_toMem`).
-/

namespace Boxing.Intools

open C Device Uboot

/-! ### What the build fixes -/

/-- The `INHAND_...` builds that differ in `intools.c`. -/
inductive Variant
  | IG9
  | IG5
  | IG502
  | VG9
  | IR8
  | IP812
  | other
deriving DecidableEq, Repr

/-- The buffers `lanmacbuf`, `lan2macbuf`, ... of `intools_main`. -/
inductive Field
  | lanmac
  | lan2mac
  | wlanmac
  | btmac
  | wlanmac_5g
  | re_mac
  | re1_mac
  | re2_mac
  | productnum
  | serialnum
  | desc
  | hdinit
  | familyname
  | modelname
  | oemname
deriving DecidableEq, Repr

/-- `lanmacname`, `lan2macname`, ... -/
def Field.name : Field → Bytes
  | .lanmac => asc "ethaddr="
  | .lan2mac => asc "ethaddr2="
  | .wlanmac => asc "wlanaddr="
  | .btmac => asc "btaddr="
  | .wlanmac_5g => asc "wlanaddr_5g="
  | .re_mac => asc "ethaddr_re="
  | .re1_mac => asc "ethaddr_re1="
  | .re2_mac => asc "ethaddr_re2="
  | .productnum => asc "productnumber="
  | .serialnum => asc "serialnumber="
  | .desc => asc "description="
  | .hdinit => asc "hardware_init="
  | .familyname => asc "family_name="
  | .modelname => asc "model_name="
  | .oemname => asc "oem_name="

/-- What the buffers hold at first. -/
def initial (v : Variant) : Field → Bytes
  | .lanmac => asc "00:18:05:A0:00:01"
  | .lan2mac => asc "00:18:05:A0:00:02"
  | .wlanmac => asc "00:18:05:A0:00:03"
  | .btmac => asc "00:18:05:A0:00:02"
  | .wlanmac_5g => asc "00:18:05:A0:00:04"
  | .re_mac => asc "00:18:05:A0:00:03"
  | .re1_mac => asc "00:18:05:A0:00:04"
  | .re2_mac => asc "00:18:05:A0:00:05"
  | .productnum => if v = .IG9 ∨ v = .IG5 ∨ v = .IG502 then asc "EN00" else asc "UE00"
  | .familyname => if v = .IG9 ∨ v = .IG5 ∨ v = .IG502 then asc "IG" else asc "IR"
  | .modelname =>
    match v with
    | .IG9 => asc "902B"
    | .IG5 => asc "501L"
    | .IG502 => asc "502L"
    | _ => asc "912P"
  | .hdinit => asc "0"
  | .desc => asc "www.inhand.com.cn"
  | .serialnum => asc "00000000"
  | .oemname => asc "inhand"

/-- The order of the `else if` chain. -/
def chain (v : Variant) : List Field :=
  (match v with
    | .IG9 => [.re_mac, .re1_mac, .re2_mac]
    | .VG9 => [.wlanmac_5g, .wlanmac, .btmac]
    | _ => [.wlanmac])
  ++ [.lanmac, .lan2mac, .productnum, .serialnum, .desc, .hdinit, .familyname, .modelname,
    .oemname]

/-- `defaultenv`: the entries of the block that replaces one with a bad CRC. -/
def defaultenv (v : Variant) : List Bytes :=
  if v = .IG9 ∨ v = .IG502 then
    [asc "version=2017.01.r10211",
     asc "bootargs=console=ttyO0,115200n8 root=/dev/ram0 rootfstype=squashfs rw rootwait",
     asc "bootdelay=3", asc "baudrate=115200", asc "ipaddr=192.168.2.2",
     asc "serverip=192.168.2.1", asc "autoload=n", asc "netmask=255.255.255.0",
     asc "stdin=serial", asc "stdout=serial", asc "stderr=serial", asc "fileaddr=800000",
     asc "hardware_init=1", asc "family_name=IG",
     if v = .IG9 then asc "model_name=902B" else asc "model_name=502L",
     asc "oem_name=inhand", asc "ethaddr=00:18:05:A0:00:01", asc "ethaddr2=00:18:05:A0:00:02",
     asc "ethaddr_re=00:18:05:A0:00:03", asc "ethaddr_re1=00:18:05:A0:00:04",
     asc "ethaddr_re2=00:18:05:A0:00:05", asc "productnumber=EN00", asc "serialnumber=00000000",
     asc "bootm_size=0x20000000", asc "initrd_high=0xffffffff", asc "mmcdev=1",
     asc "description=www.inhand.com.cn"]
  else
    [asc "version=1.1.3.r4103", asc "bootargs=console=ttyS0,115200", asc "bootdelay=0",
     asc "baudrate=115200", asc "ipaddr=192.168.2.2", asc "serverip=192.168.2.1",
     asc "autoload=n", asc "netmask=255.255.255.0", asc "stdin=serial", asc "stdout=serial",
     asc "stderr=serial", asc "fileaddr=800000", asc "hardware_init=1", asc "family_name=IR",
     asc "model_name=912P", asc "oem_name=inhand", asc "ethaddr=00:18:05:A0:00:01",
     asc "ethaddr2=00:18:05:A0:00:02", asc "wlanaddr=00:18:05:A0:00:03",
     asc "productnumber=UE00", asc "serialnumber=00000000", asc "description=www.inhand.com.cn"]

/-- `sizeof(defaultenv.data)`. -/
def defaultSize : Nat := 1024

/-- `BUF_LEN`. -/
def bufLen : Nat := 128

/-! ### Reading the block -/

/-- The bytes `memcpy(envptr, &defaultenv, sizeof(defaultenv))` puts into the data
area.  The CRC of the structure is an `unsigned long`, so with 64 bits its upper
half comes first. -/
def defaultBytes (abi : Abi) (v : Variant) : Bytes :=
  (if abi.wide then List.replicate 4 0 else []) ++ padded defaultSize (pack (defaultenv v))

/-- The data area the session starts from. -/
def load (abi : Abi) (v : Variant) (env : EnvBlock) : Option Bytes :=
  if crc_int abi env.data ≠ env.crc then
    store (List.replicate env.data.length 0) 0 (defaultBytes abi v)
  else some env.data

/-- The listing loop: `ptmp` goes from entry to entry, and one of more than 128
characters behind another is cut off with all that follows. -/
def count_cut (data : Bytes) (ptmp : Nat) : Option (Bytes × Nat) :=
  match _h : strlen (data.drop ptmp) with
  | none => none
  | some 0 => some (data, ptmp)
  | some (n + 1) =>
    match strlen (data.drop (ptmp + (n + 1) + 1)) with
    | none => none
    | some k =>
      if 128 < k then
        (store data (ptmp + (n + 1) + 1) [0]).map fun data => (data, ptmp + (n + 1) + 1)
      else count_cut data (ptmp + (n + 1) + 1)
termination_by data.length - ptmp
decreasing_by
  have := lt_length_of_strlen ‹_›
  rw [List.length_drop] at this
  omega

/-- The field whose name begins the entry. -/
def match_field (v : Variant) (ptmp : Bytes) : Option Field :=
  (chain v).find? fun f => strncmpEq ptmp f.name f.name.length

/-- The body of the loop over the copy: the entry of a field goes to the field's
buffer, any other back into the data area. -/
def load_entry (v : Variant) (st : (Bytes × Nat) × (Field → Bytes)) (ptmp : Bytes) :
    Option ((Bytes × Nat) × (Field → Bytes)) :=
  match match_field v ptmp with
  | some f =>
    if (ptmp.drop f.name.length).length < bufLen then
      some (st.1, Function.update st.2 f (ptmp.drop f.name.length))
    else none
  | none => (strcpy st.1.1 st.1.2 ptmp).map fun data => ((data, st.1.2 + ptmp.length + 1), st.2)

/-- `memcpy(p, dataptr, datalen+1)`, `memset` of the whole data area, and the loop. -/
def load_fields (v : Variant) (data : Bytes) (datalen : Nat) :
    Option ((Bytes × Nat) × (Field → Bytes)) :=
  walk (load_entry v) ((List.replicate data.length 0, 0), initial v) (data.take (datalen + 1))

/-! ### The prompts -/

/-- At most `n` bytes of the text, up to and with a newline. -/
def line : Nat → Bytes → Bytes × Bytes
  | 0, s => ([], s)
  | _ + 1, [] => ([], [])
  | n + 1, c :: s => if c = 10 then ([c], s) else (c :: (line n s).1, (line n s).2)

/-- `fgets(tmpbuf, BUF_LEN, stdin)`: the string in `tmpbuf` afterwards, and the
rest of the text. -/
def fgets (tmpbuf : Option Bytes) (stdin : Bytes) : Option Bytes × Bytes :=
  if stdin = [] then (tmpbuf, [])
  else (some (str (line (bufLen - 1) stdin).1), (line (bufLen - 1) stdin).2)

/-- The state of the dialogue: the data area, the terminal, the answer buffer and
the fields. -/
structure Talk (σ : Type) where
  out : σ
  stdin : Bytes
  tmpbuf : Option Bytes
  buf : Field → Bytes

section Prompts

variable {σ : Type} (put : σ → Bytes → Bytes → Option σ)

/-- `fgets(...); if (strcmp(tmpbuf, "\n") != 0) { tmpbuf[strlen(tmpbuf)-1] = 0;
strcpy(buf, tmpbuf); }`.  An unset `tmpbuf` and `tmpbuf[-1]` are none. -/
def hear (f : Field) (t : Talk σ) : Option (Talk σ) :=
  (fgets t.tmpbuf t.stdin).1.bind fun s =>
    if s = asc "\n" then some { t with stdin := (fgets t.tmpbuf t.stdin).2, tmpbuf := some s }
    else if s = [] then none
    else
      some { t with
        stdin := (fgets t.tmpbuf t.stdin).2
        tmpbuf := some s.dropLast
        buf := Function.update t.buf f s.dropLast }

/-- `strcpy(pbuf, name); pbuf += strlen(pbuf); strcpy(pbuf, buf); pbuf += strlen(pbuf) + 1`. -/
def tell (f : Field) (t : Talk σ) : Option (Talk σ) :=
  (put t.out f.name (t.buf f)).map fun out => { t with out := out }

/-- One prompt. -/
def ask (f : Field) (t : Talk σ) : Option (Talk σ) := (hear f t).bind (tell put f)

/-- Prompts in a row. -/
def asks (fs : List Field) (t : Talk σ) : Option (Talk σ) := fs.foldlM (fun t f => ask put f t) t

/-- Fields written back without a prompt. -/
def tells (fs : List Field) (t : Talk σ) : Option (Talk σ) := fs.foldlM (fun t f => tell put f t) t

/-- `strchr(modelnamebuf, 'H') && strstr(productnumbuf, "RE")`. -/
def realtime (buf : Field → Bytes) : Bool :=
  decide (asc "H" <:+: buf .modelname) && decide (asc "RE" <:+: buf .productnum)

/-- The prompts before the wireless address is taken from the factory partition. -/
def firstFields (v : Variant) : List Field :=
  [.lanmac, .lan2mac] ++ if v = .VG9 then [.btmac] else []

/-- The prompts for the addresses that the boards do not share. -/
def board_prompts (v : Variant) (t : Talk σ) : Option (Talk σ) :=
  if v = .IG9 then
    if realtime t.buf then asks put [.re_mac, .re1_mac, .re2_mac] t
    else tells put [.re_mac, .re1_mac, .re2_mac] t
  else asks put ([.wlanmac] ++ if v = .VG9 then [.wlanmac_5g] else []) t

/-- The prompts all boards share. -/
def lastFields : List Field :=
  [.serialnum, .desc, .hdinit, .familyname, .modelname, .oemname, .productnum]

end Prompts

/-- The two `strcpy` on the data area. -/
def putMem (out : Bytes × Nat) (name value : Bytes) : Option (Bytes × Nat) :=
  (strcpy out.1 out.2 name).bind fun data =>
    (strcpy data (out.2 + name.length) value).map fun data =>
      (data, out.2 + name.length + value.length + 1)

/-- One digit of `%02X`. -/
def hexDigit (n : Nat) : UInt8 := if n < 10 then (48 + n).toUInt8 else (55 + n).toUInt8

/-- `%02X`. -/
def hex2 (b : UInt8) : Bytes := [hexDigit (b.toNat / 16), hexDigit (b.toNat % 16)]

/-- `eeprom_get_wlanmac`. -/
def eeprom_get_wlanmac : Option (Vector UInt8 6) → Bytes
  | none => asc "00:18:05:00:00:03"
  | some mac => (asc ":").intercalate (mac.toList.map hex2)

/-! ### The session -/

/-- The boards whose wireless address is in the factory partition. -/
def Variant.factoryMac (v : Variant) : Bool := v = .IR8 ∨ v = .IP812

/-- `eeprom_get_wlanmac(wlanmacbuf)` on these boards. -/
def factory_mac (v : Variant) (buf : Field → Bytes) : Prog EnvRet (Field → Bytes) :=
  if v.factoryMac then do
    let mac : Option (Vector UInt8 6) ← askEnv .readFactory
    pure (Function.update buf .wlanmac (eeprom_get_wlanmac mac))
  else pure buf

/-- `part_open(BOOTLOADER_PART)` where the boot loader is in an eMMC. -/
def open_bootenv (v : Variant) : Prog EnvRet Bool :=
  if v = .IG9 then askEnv .partOpen else pure true

/-- `part_erase` or `flash_erase`. -/
def erase_bootenv (v : Variant) : Prog EnvRet Int :=
  if v = .IG9 then askEnv .partErase else askEnv .flashErase

/-- `init_mt7620_eeprom` or `set_wifi_mac`. -/
def tell_radio (v : Variant) (buf : Field → Bytes) : Prog EnvRet Unit :=
  if v.factoryMac then askEnv (.init_mt7620_eeprom (buf .wlanmac))
  else if v = .VG9 then askEnv (.set_wifi_mac (buf .wlanmac) (buf .wlanmac_5g))
  else pure ()

/-- The last question and, after `y`, the save. -/
def save (abi : Abi) (v : Variant) (t : Talk (Bytes × Nat)) : Prog EnvRet Int :=
  match (fgets t.tmpbuf t.stdin).1 with
  | none => askEnv .undefined
  | some s =>
    if s.head? = some 121 ∨ s.head? = some 89 then do
      let fd : Bool ← open_bootenv v
      if fd = false then pure (-1) else do
      let _ ← erase_bootenv v
      let fp : Bool ← askEnv .fopenWrite
      if fp = false then pure (-1) else do
      let _ ← askEnv (.writeBlock ⟨crc_int abi t.out.1, t.out.1⟩)
      let _ ← tell_radio v t.buf
      pure 0
    else pure 0

/-- `intools_main`, with the text at the terminal. -/
def intools_main (abi : Abi) (v : Variant) (stdin : Bytes) : Prog EnvRet Int := do
  let fp : Bool ← askEnv .fopenRead
  if fp = false then pure (-1) else do
  let envptr : Bool ← askEnv .malloc
  if envptr = false then pure (-1) else do
  let env : EnvBlock ← askEnv .readBlock
  match (load abi v env).bind fun data => count_cut data 0 with
  | none => askEnv .undefined
  | some (data, datalen) => do
    let p : Bool ← askEnv .malloc
    if p = false then pure (-1) else do
    match (load_fields v data datalen).bind fun st =>
        asks putMem (firstFields v) ⟨st.1, stdin, none, st.2⟩ with
    | none => askEnv .undefined
    | some t => do
      let buf ← factory_mac v t.buf
      match (board_prompts putMem v { t with buf := buf }).bind (asks putMem lastFields) with
      | none => askEnv .undefined
      | some t => save abi v t

/-- Where the calls before the dialogue succeed, the program goes on with what it has read. -/
theorem run_intools_main {abi : Abi} {v : Variant} {stdin : Bytes} {env env' : EnvBlock}
    (hr : Run allOk
      (match (load abi v env).bind fun data => count_cut data 0 with
        | none => askEnv .undefined
        | some (data, datalen) => do
          let p : Bool ← askEnv .malloc
          if p = false then pure (-1) else do
          match (load_fields v data datalen).bind fun st =>
              asks putMem (firstFields v) ⟨st.1, stdin, none, st.2⟩ with
          | none => askEnv .undefined
          | some t => do
            let buf ← factory_mac v t.buf
            match (board_prompts putMem v { t with buf := buf }).bind (asks putMem lastFields) with
            | none => askEnv .undefined
            | some t => save abi v t) env (some 0) env') :
    Run allOk (intools_main abi v stdin) env (some 0) env' := by
  unfold intools_main
  rw [Prog.ask_bind]
  refine Run.some_call.mpr ⟨true, env, ⟨rfl, rfl⟩, ?_⟩
  rw [if_neg (by simp), Prog.ask_bind]
  refine Run.some_call.mpr ⟨true, env, ⟨rfl, rfl⟩, ?_⟩
  rw [if_neg (by simp), Prog.ask_bind]
  exact Run.some_call.mpr ⟨env, env, ⟨rfl, rfl⟩, hr⟩

end Boxing.Intools
