import Boxing.C.Decimal
import Boxing.Device.Gives

/-!
# Installing an app

An archive is unpacked into a scratch directory, its signature is checked there, the old
version of the app is removed, and the app is unpacked from what was in the archive.  There
are two programs for it.  `pyapp_install_main` makes the name of the app of that of the
archive; the younger `pyapp_install` looks for it in the scratch directory.

The programs are `Prog`s whose calls are the operations one by one; a shell command is one
call, with its text.  A buffer that overflows ends the program with `none`.
-/

namespace Boxing.Pyapp

open C Device

/-- The operations. -/
inductive AppCall
  /-- `access(path, F_OK)` -/
  | access (path : Bytes)
  | mkdir (path : Bytes)
  /-- `cd` to the scratch directory, `tar` of the archive, `sync`, and `rm` of the archive -/
  | untar (app cmd : Bytes)
  /-- `ls` of the scratch directory, `grep info`, and the first fields of the lines; the word
  that is read, or none if there is no pipe -/
  | ls_info
  /-- `ls` of the scratch directory and `grep tar.gz` -/
  | ls_tar
  /-- `_pyapp_verify` -/
  | verify (pyappfile signfile : Bytes)
  /-- `rm -rf` of the scratch directory -/
  | rm_tmp
  /-- `rm -rf` of the old version -/
  | rm_old (path : Bytes)
  /-- `cd` to the apps, `tar` of the app, `cp` of its info file, `sync`, and `rm -rf` of the scratch
  directory -/
  | unpack (file appname cmd : Bytes)
  /-- `rm -rf` of a version that is not complete -/
  | rm_new (path : Bytes)
  | remove (linkfile : Bytes)
  | symlink (target linkfile : Bytes)
  | chmod (cmd : Bytes)
  /-- `cp -rf` of the libraries of the apps, and `rm -rf` of what has been copied -/
  | copy_lib (cmd : Bytes)
  | sync
  | printf (text : Bytes)

/-- What each is answered with. -/
abbrev AppRet : AppCall → Type
  | .access _ => Bool
  | .mkdir _ => Unit
  | .untar _ _ => Int
  | .ls_info => Option Bytes
  | .ls_tar => Option Bytes
  | .verify _ _ => Bool
  | .rm_tmp => Unit
  | .rm_old _ => Unit
  | .unpack _ _ _ => Int
  | .rm_new _ => Unit
  | .remove _ => Unit
  | .symlink _ _ => Unit
  | .chmod _ => Unit
  | .copy_lib _ => Int
  | .sync => Unit
  | .printf _ => Unit

/-- One operation. -/
abbrev op (c : AppCall) : Prog AppRet (AppRet c) := Prog.ask c

/-- `sprintf` into a buffer, and what is done with the text. -/
def in_buffer (size : Nat) (text : Bytes) (next : Bytes → Prog AppRet (Option Int)) :
    Prog AppRet (Option Int) :=
  match sprintf size text with
  | none => Prog.pure none
  | some cmd => next cmd

/-- What stands behind the last slash. -/
def basename (app : Bytes) : Bytes := (app.reverse.takeWhile (· ≠ 47)).reverse

/-- `pyapp_tmp`. -/
def pyapp_tmp : Bytes := asc "/tmp/pyapp"

/-- The scratch directory is made if it is not there. -/
def make_tmp : Prog AppRet Unit := do
  let there ← op (.access pyapp_tmp)
  if there = true then Prog.pure () else op (.mkdir pyapp_tmp)

/-- An old version is removed. -/
def remove_old (pyapp : Bytes) : Prog AppRet Unit := do
  let there ← op (.access pyapp)
  if there = true then op (.rm_old pyapp) else Prog.pure ()

/-- `sprintf(dir, ..)` and `mkdir(dir, ..)`. -/
def make_dir (dir : Bytes) (next : Prog AppRet (Option Int)) : Prog AppRet (Option Int) :=
  in_buffer 128 dir fun dir => do
    let _ ← op (.mkdir dir)
    next

/-! ### `pyapp_install_main` -/

/-- The name of the app: up to the first `-`, or else up to the first `.`. -/
def app_name (filename : Bytes) : Bytes :=
  if 45 ∈ filename then filename.takeWhile (· ≠ 45) else filename.takeWhile (· ≠ 46)

/-- `appname` as `snprintf` leaves it. -/
def file_name (app : Bytes) : Bytes := snprintf 128 (basename app)

section Main

/- `-xf` or `-xzf`, as the board has it. -/
variable (tar : Bytes)

/-- The first command. -/
def untar_cmd (app : Bytes) : Bytes :=
  asc "cd " ++ pyapp_tmp ++ asc ";tar " ++ tar ++ asc " " ++ app ++ asc ";sync;rm -f " ++ app

/-- A file in the scratch directory. -/
def tmp_file (name : Bytes) : Bytes := snprintf 128 (pyapp_tmp ++ asc "/" ++ name)

/-- The second command. -/
def unpack_cmd (apps file appname : Bytes) : Bytes :=
  asc "cd " ++ apps ++ asc ";tar -xf " ++ file ++ asc ";cp -f " ++ pyapp_tmp ++ asc "/" ++ appname
    ++ asc ".info " ++ apps ++ asc "/" ++ appname ++ asc ";sync;rm -rf " ++ pyapp_tmp

/-- `PYAPP_PATH`. -/
def PYAPP : Bytes := asc "/var/app"

/-- `pyapp_install_main` behind the second command. -/
def link_main (appname : Bytes) : Prog AppRet (Option Int) := do
  let filename := snprintf 128 (PYAPP ++ asc "/" ++ appname ++ asc "/src/main.pyc")
  let whole ← op (.access filename)
  if whole = false then do
    let _ ← op (.rm_new (snprintf 256 (asc "rm -rf " ++ PYAPP ++ asc "/" ++ appname)))
    Prog.pure (some (-1))
  else do
    let linkfile := snprintf 128 (PYAPP ++ asc "/bin/" ++ appname)
    let _ ← op (.remove linkfile)
    let _ ← op (.symlink filename linkfile)
    make_dir (PYAPP ++ asc "/data/" ++ appname) (make_dir (PYAPP ++ asc "/log/" ++ appname) do
      let _ ← op (.chmod (asc "chmod 777 -R " ++ PYAPP ++ asc "/*"))
      let _ ← op (.printf (asc "OK"))
      Prog.pure (some 0))

/-- `pyapp_install_main` behind the verification. -/
def install_main (filename appname : Bytes) : Prog AppRet (Option Int) := do
  remove_old (snprintf 128 (PYAPP ++ asc "/" ++ appname))
  in_buffer 256 (unpack_cmd PYAPP (tmp_file filename) appname) fun cmd => do
    let ret ← op (.unpack (tmp_file filename) appname cmd)
    if ret ≠ 0 then Prog.pure (some (-1)) else link_main appname

/-- `pyapp_install_main`, with `argv[1]` if there is one. -/
def pyapp_install_main (argv1 : Option Bytes) : Prog AppRet (Option Int) :=
  match argv1 with
  | none => do
    let _ ← op (.printf (asc "Please specify the app you want to install\n"))
    Prog.pure (some (-1))
  | some app => do
    let there ← op (.access app)
    if there = false then do
      let _ ← op (.printf (asc "Failed\n"))
      Prog.pure (some (-1))
    else do
      make_tmp
      in_buffer 256 (untar_cmd tar app) fun cmd => do
        let ret ← op (.untar app cmd)
        if ret ≠ 0 then Prog.pure (some (-1))
        else do
          let ok ← op (.verify (tmp_file (file_name app))
            (tmp_file (app_name (file_name app) ++ asc ".sign")))
          if ok = false then do
            let _ ← op .rm_tmp
            Prog.pure (some (-1))
          else install_main (file_name app) (app_name (file_name app))

end Main

/-! ### `pyapp_install` -/

/-- What the headers of the younger program give. -/
structure Paths where
  PYUSER_APP_PATH : Bytes
  PYUSER_BIN_PATH : Bytes
  PYUSER_LIB_PATH : Bytes
  PYUSER_DATA_PATH : Bytes
  PYUSER_LOG_PATH : Bytes
  MAX_BUFF_LEN : Nat

section Mobius

variable (paths : Paths)

/-- `pyapp_install` behind the link. -/
def finish_install (appname : Bytes) : Prog AppRet (Option Int) := do
  let _ ← op (.chmod (snprintf paths.MAX_BUFF_LEN
    (asc "chmod 777 " ++ paths.PYUSER_APP_PATH ++ asc "/" ++ appname ++ asc " -R")))
  let ret ← op (.copy_lib (snprintf paths.MAX_BUFF_LEN
    (asc "cp -rf " ++ paths.PYUSER_APP_PATH ++ asc "/lib/* " ++ paths.PYUSER_LIB_PATH ++ asc "/;rm -rf "
      ++ paths.PYUSER_APP_PATH ++ asc "/lib")))
  if ret ≠ 0 then Prog.pure (some (-1))
  else
    make_dir (paths.PYUSER_DATA_PATH ++ asc "/" ++ appname)
      (make_dir (paths.PYUSER_LOG_PATH ++ asc "/" ++ appname) do
        let _ ← op .sync
        let _ ← op (.printf (asc "pyapp " ++ appname ++ asc " install successfully\nOK\n"))
        Prog.pure (some 0))

/-- `pyapp_install` behind the second command. -/
def link_app (appname : Bytes) : Prog AppRet (Option Int) := do
  let filename := snprintf 128 (paths.PYUSER_APP_PATH ++ asc "/" ++ appname ++ asc "/src/main.pyc")
  let whole ← op (.access filename)
  if whole = false then do
    let _ ← op (.rm_new (snprintf paths.MAX_BUFF_LEN
      (asc "rm -rf " ++ paths.PYUSER_APP_PATH ++ asc "/" ++ appname)))
    Prog.pure (some (-1))
  else do
    let linkfile := snprintf 128 (paths.PYUSER_BIN_PATH ++ asc "/" ++ appname)
    let _ ← op (.printf (asc "create " ++ filename ++ asc " link file\n"))
    let _ ← op (.remove linkfile)
    let _ ← op (.symlink filename linkfile)
    finish_install paths appname

/-- `pyapp_install` behind the verification. -/
def install_app (filename appname : Bytes) : Prog AppRet (Option Int) := do
  let _ ← op (.printf (asc "PyAPP " ++ tmp_file filename ++ asc " verify OK!\n"))
  remove_old (snprintf 128 (paths.PYUSER_APP_PATH ++ asc "/" ++ appname))
  in_buffer paths.MAX_BUFF_LEN
      (unpack_cmd paths.PYUSER_APP_PATH (tmp_file filename) appname) fun cmd => do
    let ret ← op (.unpack (tmp_file filename) appname cmd)
    if ret ≠ 0 then Prog.pure (some (-1)) else link_app paths appname

/-- `pyapp_install`, from the verification on. -/
def verify_app (filename appname : Bytes) : Prog AppRet (Option Int) := do
  let ok ← op (.verify (tmp_file filename) (tmp_file (appname ++ asc ".sign")))
  if ok = false then do
    let _ ← op .rm_tmp
    Prog.pure (some (-1))
  else install_app paths filename appname

/-- `fscanf` into a buffer of 128 bytes: nothing is stored if there is no word. -/
def scan_word (word old : Bytes) (next : Bytes → Prog AppRet (Option Int)) : Prog AppRet (Option Int) :=
  if word = [] then next old else in_buffer 128 word next

/-- `pyapp_install`, from the file name on. -/
def find_file (filename appname : Bytes) : Prog AppRet (Option Int) := do
  let word ← op .ls_tar
  match word with
  | none => Prog.pure (some (-1))
  | some word =>
    scan_word word filename fun filename =>
      if filename = [] then Prog.pure (some (-1)) else verify_app paths filename appname

/-- `pyapp_install`, from the app name on. -/
def find_app (filename : Bytes) : Prog AppRet (Option Int) := do
  let word ← op .ls_info
  match word with
  | none => Prog.pure (some (-1))
  | some word =>
    scan_word word [] fun appname =>
      if appname = [] then Prog.pure (some (-1)) else find_file paths filename appname

/-- `pyapp_install`. -/
def pyapp_install (app : Option Bytes) : Prog AppRet (Option Int) :=
  match app with
  | none => Prog.pure (some (-1))
  | some app =>
    if app = [] then Prog.pure (some (-1))
    else do
      make_tmp
      in_buffer paths.MAX_BUFF_LEN (untar_cmd (asc "-xf") app) fun cmd => do
        let ret ← op (.untar app cmd)
        if ret ≠ 0 then Prog.pure (some (-1)) else find_app paths (file_name app)

end Mobius

end Boxing.Pyapp
