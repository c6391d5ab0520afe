import Boxing.C.Num
import Boxing.Device.Prog

/-!
# Installing a Python SDK

`pysdk_install_main` unpacks `/tmp/pysdk.zip` into one of two slots and writes the
number of that slot into a flag file.  It reads the flag first and takes the other
slot; without a flag file it takes the first one.

The program is a `Prog` whose calls are the file-system operations, one by one: a
shell command is the sequence of what it runs.  The three functions that are called
from elsewhere are calls too, answered by their documented results: `_pysdk_verify`,
`sync_file_write` and `kill_pidfile`.
-/

namespace Boxing.Pysdk

open C Device

/-- `PYSDK1_PATH` and `PYSDK2_PATH`. -/
inductive Slot
  | pysdk1 | pysdk2
deriving DecidableEq, Repr

/-- The number that stands for a slot. -/
def Slot.number : Slot → Nat
  | pysdk1 => 1
  | pysdk2 => 2

/-- The operations. -/
inductive SdkCall
  /-- `access(PYSDK_ZIP_FILE, F_OK)` -/
  | access_zip
  /-- `access(PYUPAGRADE_FLAG, F_OK)` -/
  | access_flag
  /-- `fopen(PYUPAGRADE_FLAG, "r")`, and the file as far as it can be read -/
  | read_flag
  /-- `cd` -/
  | cd (part : Slot)
  /-- `rm -rf` of everything in a slot -/
  | rm (part : Slot)
  /-- `unzip -q -o` in a slot, or where the process stands -/
  | unzip (dir : Option Slot)
  /-- `sync` -/
  | sync
  /-- `rm -f` of the archive -/
  | rm_zip
  /-- `opendir` and `readdir`: the names in a slot -/
  | list (part : Slot)
  /-- `_pysdk_verify` of a file in a slot, with `pysdk.sign` next to it -/
  | verify (part : Slot) (file : Bytes)
  /-- `fopen(PYUPAGRADE_FLAG, "w")` -/
  | open_flag
  /-- `fprintf`, `fflush` and `fclose` -/
  | write_flag (partition : Nat)
  /-- `sync_file_write(PYUPAGRADE_FLAG)` -/
  | sync_flag
  /-- `restart_python` -/
  | restart_python

/-- What each is answered with. -/
abbrev SdkRet : SdkCall → Type
  | .access_zip => Bool
  | .access_flag => Bool
  | .read_flag => Option Bytes
  | .cd _ => Bool
  | .rm _ => Unit
  | .unzip _ => Unit
  | .sync => Unit
  | .rm_zip => Int
  | .list _ => Option (List Bytes)
  | .verify _ _ => Bool
  | .open_flag => Bool
  | .write_flag _ => Unit
  | .sync_flag => Unit
  | .restart_python => Unit

/-- One operation. -/
abbrev op (c : SdkCall) : Prog SdkRet (SdkRet c) := Prog.ask c

/-- `buf` and `atoi(buf)`: `char buf[8]`. -/
def flag_value (content : Bytes) : Int := atoi (str (gets 7 content))

/-- The slot that is free for a flag. -/
def other (content : Bytes) : Option Slot :=
  if flag_value content = 1 then some .pysdk2
  else if flag_value content = 2 then some .pysdk1
  else none

/-- `pysdk_upgrade_partition`. -/
def pysdk_upgrade_partition : Prog SdkRet (Option Slot) := do
  let there ← op .access_flag
  if there = false then Prog.pure (some .pysdk1)
  else do
    let content ← op .read_flag
    Prog.pure (content.bind other)

/-- `cd part && rm -rf ..` -/
def clear (part : Slot) : Prog SdkRet Unit := do
  let there ← op (.cd part)
  if there = false then Prog.pure () else op (.rm part)

/-- `cd part;unzip -q -o ..;sync;rm -f ..` -/
def unpack (part : Slot) : Prog SdkRet Int := do
  let there ← op (.cd part)
  let _ ← op (.unzip (if there = false then none else some part))
  let _ ← op .sync
  op .rm_zip

/-- The name of the first archive, as `strlcpy(file, .., sizeof(file))` leaves it. -/
def archive (names : List Bytes) : Option Bytes :=
  (names.find? fun name => (strstr name (asc ".tar.gz")).isSome).map (·.take 63)

/-- `pysdk_verify_ok`. -/
def pysdk_verify_ok (part : Slot) : Prog SdkRet Bool := do
  let names ← op (.list part)
  match names.bind archive with
  | none => Prog.pure false
  | some file => op (.verify part file)

/-- `write_pysdk_upgarde_flag`. -/
def write_pysdk_upgarde_flag (partition : Nat) : Prog SdkRet Int := do
  let fp ← op .open_flag
  if fp = false then Prog.pure (-1)
  else do
    let _ ← op (.write_flag partition)
    let _ ← op .sync_flag
    Prog.pure 0

/-- `pysdk_install_main` behind the verification. -/
def finish (part : Slot) (ok : Bool) : Prog SdkRet Int :=
  if ok = false then do
    clear part
    Prog.pure (-1)
  else do
    let _ ← write_pysdk_upgarde_flag part.number
    let _ ← op .restart_python
    Prog.pure 0

/-- `pysdk_install_main` with the slot it has chosen. -/
def install (part : Slot) : Prog SdkRet Int := do
  clear part
  let ret ← unpack part
  if ret ≠ 0 then Prog.pure ret
  else do
    let ok ← pysdk_verify_ok part
    finish part ok

/-- `pysdk_install_main`. -/
def pysdk_install_main : Prog SdkRet Int := do
  let there ← op .access_zip
  if there = false then Prog.pure (-1)
  else do
    let part ← pysdk_upgrade_partition
    match part with
    | none => Prog.pure (-1)
    | some part => install part

end Boxing.Pysdk
