import Boxing.Device.Wp
import Boxing.Iburn.Board

/-!
# The burner and its children

`iburn_main` unpacks the firmware, starts a child for the second board and, on
most builds, one for the Python part, burns the main board itself, waits for the
children and removes the files.

The parent learns what its children did from `waitpid` only, one exit at a time,
in whatever order they come, with interrupted calls in between.  The semantics
lets `waitpid` hand out any child that has not been reaped, with any status, as
often as it likes an interruption, and an error only when no child is left.

`iburn_main_iff` says when the result can be trusted: always, except when the first
`fork` succeeds and the second fails.  That exit goes past the wait loop.
-/

namespace Boxing.Iburn

open C Device

/-! ### The calls -/

/-- How a child ended, as `WIFEXITED` and `WEXITSTATUS` tell it. -/
inductive Status
  | exited (code : Nat)
  | signaled
deriving DecidableEq, Repr

/-- `WIFEXITED(status) && WEXITSTATUS(status) == EXIT_SUCCESS`. -/
def Status.success (st : Status) : Bool := st = .exited 0

/-- What a child does. -/
inductive Job
  | upgrade_security_board (file : Bytes) (upgrade_io_boot : Bool)
  | upgrade_wifi_board (file : Bytes) (upgrade_io_boot : Bool)
  | inpython (upgrade_python : Bool)

/-- The commands given to `system`. -/
inductive Command
  | unzipImage (srcfile : Bytes)
  | unzipApp (srcfile : Bytes)
  | mvPython
  | tar (srcfile : Bytes)
  | rmPython

/-- An answer of `waitpid`: a child's end, `EINTR`, or another error. -/
inductive Waited
  | reaped (pid : Int) (status : Status)
  | interrupted
  | failed

/-- What `iburn_main` asks of the outside. -/
inductive KidCall
  | f_exists (file : Bytes)
  | chdir
  | mime_type (file : Bytes)
  | system (command : Command)
  | unlink (file : Bytes)
  | rename (src dst : Bytes)
  | fork (job : Job)
  | upgrade_main_board (file : Bytes) (upgrade_boot : Bool)
  | waitpid

/-- The answers; `mime_type` is what `popen` printed, if it did. -/
abbrev KidRet : KidCall → Type
  | .f_exists _ => Bool
  | .chdir => Int
  | .mime_type _ => Option Bytes
  | .system _ => Int
  | .unlink _ => Int
  | .rename _ _ => Int
  | .fork _ => Int
  | .upgrade_main_board _ _ => Int
  | .waitpid => Waited

/-- One call of the parent. -/
abbrev askKid (c : KidCall) : Prog KidRet (KidRet c) := Prog.ask c

/-! ### The source -/

/-- How the parent ends: `exit(0)` in `usage`, or a return. -/
inductive Ended
  | exited
  | returned (ret : Int)

/-- `while ((c = getopt(argc, argv, "huis")) != -1)`: the flags `upgrade_boot` and
`upgrade_io_boot`, or none when `-h` calls `usage`. -/
def getopts : List Char → Bool → Bool → Option (Bool × Bool)
  | [], upgrade_boot, upgrade_io_boot => some (upgrade_boot, upgrade_io_boot)
  | c :: opts, upgrade_boot, upgrade_io_boot =>
    if c = 'h' then none
    else if c = 'u' then getopts opts true upgrade_io_boot
    else if c = 'i' then getopts opts upgrade_boot true
    else getopts opts upgrade_boot upgrade_io_boot

/-- `get_file_type(file, buf, sizeof(buf))`: the text in `buf`, or none for -1. -/
def get_file_type (file : Bytes) : Prog KidRet (Option Bytes) := do
  let there : Bool ← askKid (.f_exists file)
  if there = false then pure none else askKid (.mime_type file)

/-- The parent's variables in the wait loop. -/
structure Waiting where
  ret : Int
  ir6_pid : Int
  py_pid : Int
  sec_pid : Int

/-- `if (!ret && (!WIFEXITED(status) || EXIT_SUCCESS != WEXITSTATUS(status))) ret = code;` -/
def failWith (code : Int) (status : Status) (ret : Int) : Int :=
  if ret = 0 ∧ status.success = false then code else ret

/-- What the loop does about the end of a child. -/
def note (board : Board) (pid : Int) (status : Status) (w : Waiting) : Waiting :=
  let w :=
    if pid = w.ir6_pid then { w with ir6_pid := -1, ret := failWith (-2) status w.ret } else w
  let w :=
    if pid = w.py_pid then { w with py_pid := -1, ret := failWith (-3) status w.ret } else w
  -- the pid that is forgotten here is not the one that was compared
  if board = .IDTU9 ∧ pid = w.sec_pid then
    { w with ir6_pid := -1, ret := failWith (-4) status w.ret }
  else w

/-- `ir6_pid == -1 && py_pid == -1 && sec_pid == -1`. -/
def Waiting.over (w : Waiting) : Bool := w.ir6_pid = -1 ∧ w.py_pid = -1 ∧ w.sec_pid = -1

/-- One round of `while ((pid = waitpid(-1, &status, 0)) > 0 || ...)`. -/
def wait_body (board : Board) (w : Waiting) : Prog KidRet (Waiting ⊕ Int) := do
  let r : Waited ← askKid .waitpid
  match r with
  | .interrupted => pure (.inl w)
  | .failed => pure (.inr w.ret)
  | .reaped pid status =>
    if (note board pid status w).over then pure (.inr (note board pid status w).ret)
    else pure (.inl (note board pid status w))

/-- `unlink` one file after the other. -/
def unlinkAll : List Bytes → Prog KidRet Unit
  | [] => pure ()
  | file :: files => do
    let _ : Int ← askKid (.unlink file)
    unlinkAll files

/-- The code behind the label `EXIT`. -/
def at_exit (board : Board) (upgrade_python : Bool) (ret : Int) : Prog KidRet Ended := do
  let _ ← unlinkAll (firmwareFiles board)
  if upgrade_python then do
    let _ : Int ← askKid (.system .rmPython)
    pure (.returned ret)
  else pure (.returned ret)

/-- `upgrade_main_board` and the wait loop. -/
def burn_and_wait (board : Board) (upgrade_boot upgrade_python : Bool)
    (ir6_pid py_pid sec_pid : Int) : Prog KidRet Ended := do
  let ret : Int ← askKid (.upgrade_main_board IR9_FIRMWARE_FILE upgrade_boot)
  let ret ← Prog.iterate (wait_body board)
    ⟨if ret ≠ 0 then -1 else 0, ir6_pid, py_pid, sec_pid⟩
  at_exit board upgrade_python ret

/-- The forks, in the parent. -/
def start_children (board : Board) (upgrade_boot upgrade_io_boot upgrade_python : Bool) :
    Prog KidRet Ended :=
  match board with
  | .IDTU9 => do
    let pid : Int ← askKid (.fork (.upgrade_security_board SECURITY_CHIP_FILE upgrade_io_boot))
    if pid < 0 then at_exit board upgrade_python (-1)
    else burn_and_wait board upgrade_boot upgrade_python (-1) (-1) pid
  | .IR9 => do
    let pid : Int ← askKid (.fork (.upgrade_wifi_board IR6_FIRMWARE_FILE upgrade_io_boot))
    if pid < 0 then at_exit board upgrade_python (-1) else do
    let pid_p : Int ← askKid (.fork (.inpython upgrade_python))
    if pid_p < 0 then at_exit board upgrade_python (-1)
    else burn_and_wait board upgrade_boot upgrade_python pid pid_p (-1)

/-- From the second look at the file type on. -/
def unpack (board : Board) (upgrade_boot upgrade_io_boot upgrade_python : Bool)
    (srcfile : Bytes) : Prog KidRet Ended := do
  let type ← get_file_type srcfile
  match type with
  | none => at_exit board upgrade_python (-1)
  | some buf =>
    if asc "application/octet-stream" <:+: buf then do
      let _ : Int ← askKid (.rename srcfile IR9_FIRMWARE_FILE)
      start_children board upgrade_boot upgrade_io_boot upgrade_python
    else if asc "application/x-tar" <:+: buf then do
      let _ : Int ← askKid (.system (.tar srcfile))
      let _ : Int ← askKid (.unlink srcfile)
      start_children board upgrade_boot upgrade_io_boot upgrade_python
    else at_exit board upgrade_python (-1)

/-- `iburn_main`, with `argv[1]` and the options `getopt` finds. -/
def iburn_main (board : Board) (argv1 : Option Bytes) (opts : List Char) : Prog KidRet Ended :=
  match argv1 with
  | none => pure .exited
  | some srcfile => do
    let there : Bool ← askKid (.f_exists srcfile)
    if there = false then pure (.returned (-1)) else do
    match getopts opts false false with
    | none => pure .exited
    | some (upgrade_boot, upgrade_io_boot) => do
      let _ : Int ← askKid .chdir
      let type ← get_file_type srcfile
      match type with
      | none => pure (.returned (-1))
      | some buf =>
        if asc "application/zip" <:+: buf then do
          let r : Int ← askKid (.system (.unzipImage srcfile))
          if r ≠ 0 then at_exit board true (-1) else do
          let r : Int ← askKid (.system (.unzipApp srcfile))
          if r ≠ 0 then at_exit board true (-1) else do
          let _ : Int ← askKid (.unlink srcfile)
          let _ : Int ← askKid (.system .mvPython)
          unpack board upgrade_boot upgrade_io_boot true TMP_FIRMWARE_IMAGE
        else unpack board upgrade_boot upgrade_io_boot false srcfile

end Boxing.Iburn
