import Boxing.C.Str

/-!
# What the builds of `iburn` differ in

With `INHAND_IDTU9` the second board is a security chip and the main image is
signed; without it the second board is the wireless one.
-/

namespace Boxing.Iburn

open C

/-- Is `INHAND_IDTU9` defined? -/
inductive Board
  | IR9
  | IDTU9
deriving DecidableEq, Repr

/-- `IR9_FIRMWARE_FILE`. -/
def IR9_FIRMWARE_FILE : Bytes := asc "/var/tmp/IR9.bin"

/-- `IR6_FIRMWARE_FILE`. -/
def IR6_FIRMWARE_FILE : Bytes := asc "/var/tmp/IR6.bin"

/-- `SECURITY_CHIP_FILE`. -/
def SECURITY_CHIP_FILE : Bytes := asc "/var/tmp/SECURITY.bin"

/-- `SECURITY_COS_FILE`. -/
def SECURITY_COS_FILE : Bytes := asc "/var/tmp/SECURITY_cos.bin"

/-- `SECURITY_BOOT_FILE`. -/
def SECURITY_BOOT_FILE : Bytes := asc "/var/tmp/SECURITY_boot.bin"

/-- `TMP_FIRMWARE_IMAGE`. -/
def TMP_FIRMWARE_IMAGE : Bytes := asc "/var/tmp/fwimage.img"

/-- The files a burner and its children read, and the parent removes at the end. -/
def firmwareFiles : Board → List Bytes
  | .IR9 => [IR9_FIRMWARE_FILE, IR6_FIRMWARE_FILE]
  | .IDTU9 => [IR9_FIRMWARE_FILE, IR6_FIRMWARE_FILE, SECURITY_CHIP_FILE, SECURITY_COS_FILE,
      SECURITY_BOOT_FILE]

end Boxing.Iburn
