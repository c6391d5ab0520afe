import Boxing.C.Decimal
import Boxing.Device.Gives

/-!
# Installing the SDK image

`mobius_pysdk_install` erases the flag and the main image, unpacks the archive, and advances
the flag as it goes.  It fails in three ways: with -1, with the status of the shell, and with
nothing at all, where the result of a call is not looked at.

`mobius_pysdk_install_main` asks for a value below 0.  The status of a command that has failed
is above it, so that most of the failures of `unzip` are a success to the caller.

`reports_iff_sound` says which outcomes are reported as they are.
-/

namespace Boxing.Mobius

open C Device

/-- `PYSDK_IMG_FLAG_S0` and the others. -/
inductive Flag
  | S0 | S1 | S2 | S3 | other
deriving DecidableEq

/-- The operations. -/
inductive ImgCall
  /-- `access(file, F_OK)` -/
  | access (file : Bytes)
  | pysdk_img_flag
  | erase_pysdk_img_flag
  | set_pysdk_img_flag (flag : Flag)
  | backup_pysdk_img
  | verify_pysdk_img_sign (path : Bytes)
  | recover_pysdk_img
  /-- `system` of a command that removes images -/
  | clear (cmd : Bytes)
  /-- `system` of the command that unpacks the archive -/
  | unzip (cmd : Bytes)
  /-- `system` of the command that removes the archive -/
  | rm_zip (cmd : Bytes)
  /-- `kill_pidfile(pidfile, SIGUSR2)` -/
  | kill_pidfile (pidfile : Bytes)
  /-- `mobius_pysdk_install_main_help` -/
  | help
  | printf (text : Bytes)

/-- What each is answered with. -/
abbrev ImgRet : ImgCall → Type
  | .access _ => Bool
  | .pysdk_img_flag => Flag
  | .erase_pysdk_img_flag => Unit
  | .set_pysdk_img_flag _ => Unit
  | .backup_pysdk_img => Bool
  | .verify_pysdk_img_sign _ => Bool
  | .recover_pysdk_img => Bool
  | .clear _ => Int
  | .unzip _ => Int
  | .rm_zip _ => Int
  | .kill_pidfile _ => Unit
  | .help => Unit
  | .printf _ => Unit

/-- One operation. -/
abbrev op (c : ImgCall) : Prog ImgRet (ImgRet c) := Prog.ask c

/-- The names that the board's header gives. -/
structure Names where
  MAIN_PYSDK_IMG_PATH : Bytes
  BACKUP_PYSDK_IMG_PATH : Bytes
  DEFAULT_PYSDK_ZIP_FILE : Bytes
  PYAGENT_IDENT : Bytes

/-- What `getopt` finds. -/
inductive Opt
  | r | h | i (optarg : Bytes) | s | u | unknown (optarg : Bytes)

/-- `PYSDK_IMG_CMD`. -/
inductive Cmd
  | install | recover | uninstall

/-- The variables of `mobius_pysdk_install_main`. -/
structure Args where
  cmd : Cmd
  file : Bytes
  restart : Bool

section Program

variable (names : Names)

/-- The command that unpacks. -/
def unzip_cmd (file : Bytes) : Bytes :=
  asc "cd " ++ names.MAIN_PYSDK_IMG_PATH ++ asc ";unzip -q -o " ++ file

/-- `mobius_pysdk_install`, from the erasing on. -/
def replace (file : Bytes) : Prog ImgRet (Option Int) := do
  let _ ← op .erase_pysdk_img_flag
  let _ ← op (.clear (snprintf 128 (asc "rm -rf " ++ names.MAIN_PYSDK_IMG_PATH ++ asc "/*;sync")))
  let _ ← op (.set_pysdk_img_flag .S1)
  match sprintf 128 (unzip_cmd names file) with
  | none => Prog.pure none
  | some cmd => do
    let ret ← op (.unzip cmd)
    if ret ≠ 0 then Prog.pure (some ret)
    else do
      let _ ← op (.rm_zip (snprintf 128 (asc "sync;rm -f " ++ file)))
      let _ ← op (.set_pysdk_img_flag .S2)
      Prog.pure (some 0)

/-- `mobius_pysdk_install`; `none` if a buffer overflows. -/
def mobius_pysdk_install (file : Bytes) : Prog ImgRet (Option Int) := do
  let there ← op (.access file)
  if there = false then Prog.pure (some (-1))
  else do
    let flag ← op .pysdk_img_flag
    if flag = .S3 then do
      let saved ← op .backup_pysdk_img
      if saved = false then Prog.pure (some (-1)) else replace names file
    else replace names file

/-- `mobius_pysdk_img_uninstall`. -/
def mobius_pysdk_img_uninstall : Prog ImgRet (Option Int) := do
  let _ ← op .erase_pysdk_img_flag
  let _ ← op (.clear (snprintf 128 (asc "rm -rf " ++ names.MAIN_PYSDK_IMG_PATH ++ asc "/*;rm -rf "
    ++ names.BACKUP_PYSDK_IMG_PATH ++ asc "/*;sync")))
  Prog.pure (some 0)

/-- `mobius_pysdk_img_recover`. -/
def mobius_pysdk_img_recover : Prog ImgRet (Option Int) := do
  let whole ← op (.verify_pysdk_img_sign names.BACKUP_PYSDK_IMG_PATH)
  if whole = false then Prog.pure (some (-1))
  else do
    let done ← op .recover_pysdk_img
    if done = false then Prog.pure (some (-1)) else Prog.pure (some 0)

/-- `notice_restart_python`. -/
def notice_restart_python : Prog ImgRet Unit :=
  op (.kill_pidfile (asc "/var/run/" ++ names.PYAGENT_IDENT ++ asc ".pid"))

/-- The loop over the options; `.inl` is a return from within. -/
def options (argc : Nat) : List Opt → Args → Prog ImgRet (Int ⊕ Args)
  | [], args => Prog.pure (.inr args)
  | .r :: opts, args => options argc opts { args with cmd := .recover }
  | .h :: _, _ => do
    let _ ← op .help
    Prog.pure (.inl 0)
  | .i optarg :: opts, args =>
    if argc < 3 then do
      let _ ← op .help
      Prog.pure (.inl (-1))
    else options argc opts { args with cmd := .install, file := snprintf 128 (str optarg) }
  | .s :: opts, args => options argc opts { args with restart := true }
  | .u :: opts, args => options argc opts { args with cmd := .uninstall }
  | .unknown optarg :: _, _ => do
    let _ ← op (.printf (asc "ignore unknown arg: -? " ++ optarg ++ asc "\n"))
    Prog.pure (.inl (-1))

/-- The file to install. -/
def zip_file (file : Bytes) : Bytes :=
  if file = [] then snprintf 128 names.DEFAULT_PYSDK_ZIP_FILE else file

/-- `switch(cmd)`. -/
def command (args : Args) : Prog ImgRet (Option Int) :=
  match args.cmd with
  | .uninstall => mobius_pysdk_img_uninstall names
  | .install => mobius_pysdk_install names (zip_file names args.file)
  | .recover => mobius_pysdk_img_recover names

/-- `mobius_pysdk_install_main` behind the command. -/
def report (restart : Bool) (ret : Int) : Prog ImgRet (Option Int) :=
  if ret < 0 then do
    let _ ← op (.printf (asc "error\n"))
    Prog.pure (some (-1))
  else if restart = true then do
    let _ ← notice_restart_python names
    let _ ← op (.printf (asc "OK\n"))
    Prog.pure (some 0)
  else do
    let _ ← op (.printf (asc "OK\n"))
    Prog.pure (some 0)

/-- `mobius_pysdk_install_main`. -/
def mobius_pysdk_install_main (argc : Nat) (opts : List Opt) : Prog ImgRet (Option Int) :=
  if argc < 2 then do
    let _ ← op .help
    Prog.pure (some 0)
  else do
    let args ← options argc opts ⟨.install, [], false⟩
    match args with
    | .inl ret => Prog.pure (some ret)
    | .inr args => do
      let ret ← command names args
      match ret with
      | none => Prog.pure none
      | some ret => report names args.restart ret

end Program

/-! ### What comes of it -/

/-- What the steps come to: the answer of each of them, whether the archive is in the main
partition behind `unzip`, and whether the flag is `PYSDK_IMG_FLAG_S2` when it has been set so. -/
structure Outcomes where
  answer : (c : ImgCall) → ImgRet c
  unpacked : Bool
  advanced : Bool

/-- What can be seen from outside. -/
structure World where
  unpacked : Bool
  advanced : Bool
  usage : Bool
  restarted : Bool
  out : List Bytes

/-- Before the call. -/
def World.start : World := ⟨false, false, false, false, []⟩

/-- What an operation changes. -/
def Outcomes.effect (o : Outcomes) : ImgCall → World → World
  | .unzip _, w => { w with unpacked := o.unpacked }
  | .set_pysdk_img_flag .S2, w => { w with advanced := o.advanced }
  | .kill_pidfile _, w => { w with restarted := true }
  | .help, w => { w with usage := true }
  | .printf text, w => { w with out := w.out ++ [text] }
  | _, w => w

/-- The operations, with their outcomes. -/
def Outcomes.sem (o : Outcomes) : Sem ImgRet World := Sem.fixed (fun c _ => o.answer c) o.effect

/-- The archive has been unpacked, and the flag says so. -/
def Installed (w : World) : Prop := w.unpacked = true ∧ w.advanced = true

/-- What a run reports is so: it returns 0 without showing the usage, prints `OK` and restarts
Python only behind a whole installation. -/
structure Truthful (r : Option Int) (w : World) : Prop where
  defined : r ≠ none
  ret : r = some 0 → w.usage = false → Installed w
  ok : asc "OK\n" ∈ w.out → Installed w
  restarted : w.restarted = true → Installed w

/-- The program comes to its end, and every end of it is truthful. -/
def Reports (names : Names) (o : Outcomes) (argc : Nat) (opts : List Opt) : Prop :=
  Comes o.sem (mobius_pysdk_install_main names argc opts) .start Truthful

section Runs

variable {names : Names} {o : Outcomes} {file cmd : Bytes} {w w' w₁ : World} {argc : Nat}
  {opts : List Opt} {args : Args} {ret : Int} {α β : Type} {a : α} {b : β}

/-- What the steps leave when the command fits. -/
def Outcomes.replaced (o : Outcomes) (cmd : Bytes) (w : World) : World :=
  if o.answer (.unzip cmd) = 0 then { w with unpacked := o.unpacked, advanced := o.advanced }
  else { w with unpacked := o.unpacked }

theorem gives_replace_none (h : sprintf 128 (unzip_cmd names file) = none) :
    Gives o.sem (replace names file) w none w := by
  refine gives_ask (gives_ask (gives_ask ?_))
  rw [h]
  exact gives_pure _ none w

/-- What `unzip` returns is returned, and if it is 0 the flag has been set. -/
theorem gives_replace (h : sprintf 128 (unzip_cmd names file) = some cmd) :
    Gives o.sem (replace names file) w (some (o.answer (.unzip cmd))) (o.replaced cmd w) := by
  refine gives_ask (gives_ask (gives_ask ?_))
  rw [h]
  refine gives_ask ?_
  rw [Outcomes.replaced]
  by_cases hret : o.answer (.unzip cmd) = 0
  · rw [if_neg (not_not.mpr hret), if_pos hret, hret]
    exact gives_ask (gives_ask (gives_pure _ _ _))
  · rw [if_pos hret, if_neg hret]
    exact gives_pure _ _ _

/-- `mobius_pysdk_install` gets to the erasing. -/
def Begun (o : Outcomes) (file : Bytes) : Prop :=
  o.answer (.access file) = true ∧
    (o.answer .pysdk_img_flag = .S3 → o.answer .backup_pysdk_img = true)

theorem gives_install_refused (h : ¬ Begun o file) :
    Gives o.sem (mobius_pysdk_install names file) w (some (-1)) w := by
  refine gives_ask ?_
  by_cases hthere : o.answer (.access file) = false
  · rw [if_pos hthere]
    exact gives_pure _ _ w
  rw [if_neg hthere]
  refine gives_ask ?_
  by_cases hflag : o.answer .pysdk_img_flag = .S3
  swap
  · exact absurd ⟨(Bool.not_eq_false _).mp hthere, fun hS3 => absurd hS3 hflag⟩ h
  rw [if_pos hflag]
  refine gives_ask ?_
  by_cases hsaved : o.answer .backup_pysdk_img = false
  · rw [if_pos hsaved]
    exact gives_pure _ _ w
  · exact absurd ⟨(Bool.not_eq_false _).mp hthere,
      fun _ => (Bool.not_eq_false _).mp hsaved⟩ h

theorem gives_install {r : Option Int} (h : Begun o file)
    (hrest : Gives o.sem (replace names file) w r w') :
    Gives o.sem (mobius_pysdk_install names file) w r w' := by
  obtain ⟨hthere, hsaved⟩ := h
  refine gives_ask ?_
  rw [if_neg fun h => Bool.noConfusion (hthere.symm.trans h)]
  refine gives_ask ?_
  by_cases hflag : o.answer .pysdk_img_flag = .S3
  · rw [if_pos hflag]
    refine gives_ask ?_
    rw [if_neg fun h => Bool.noConfusion ((hsaved hflag).symm.trans h)]
    exact hrest
  · rw [if_neg hflag]
    exact hrest

/-- The options are `-i` and `-s`. -/
def Combined (opts : List Opt) : Prop := ∀ x ∈ opts, x = .s ∨ ∃ optarg, x = .i optarg

/-- The file of the last `-i`. -/
def last_file (file : Bytes) : List Opt → Bytes
  | [] => file
  | .i optarg :: opts => last_file (snprintf 128 (str optarg)) opts
  | _ :: opts => last_file file opts

/-- There is a `-s`. -/
def restarts (restart : Bool) : List Opt → Bool
  | [] => restart
  | .s :: opts => restarts true opts
  | _ :: opts => restarts restart opts

/-- With fewer than three arguments, `-i` shows the usage. -/
theorem gives_options_usage (hopts : Combined opts) (hargc : argc < 3) (hi : ∃ f, .i f ∈ opts)
    (args : Args) :
    Gives o.sem (options argc opts args) w (.inl (-1)) { w with usage := true } := by
  induction opts generalizing args with
  | nil => exact absurd hi (by simp)
  | cons x opts ih =>
    have htail : Combined opts := fun y hy => hopts y (List.mem_cons_of_mem _ hy)
    rcases hopts x List.mem_cons_self with rfl | ⟨optarg, rfl⟩
    · refine ih htail ?_ _
      obtain ⟨f, hf⟩ := hi
      exact ⟨f, (List.mem_cons.mp hf).resolve_left (by simp)⟩
    · rw [options, if_pos hargc]
      exact gives_ask (gives_pure _ _ _)

theorem gives_options (hopts : Combined opts) (hargc : argc < 3 → ∀ f, .i f ∉ opts) (file : Bytes)
    (restart : Bool) :
    Gives o.sem (options argc opts ⟨.install, file, restart⟩) w
      (.inr ⟨.install, last_file file opts, restarts restart opts⟩) w := by
  induction opts generalizing file restart with
  | nil => exact gives_pure _ _ w
  | cons x opts ih =>
    have htail : Combined opts := fun y hy => hopts y (List.mem_cons_of_mem _ hy)
    have hargc' : argc < 3 → ∀ f, .i f ∉ opts := fun hlt f hf =>
      hargc hlt f (List.mem_cons_of_mem _ hf)
    rcases hopts x List.mem_cons_self with rfl | ⟨optarg, rfl⟩
    · exact ih htail hargc' _ _
    · rw [options, if_neg fun hlt => hargc hlt optarg List.mem_cons_self]
      exact ih htail hargc' _ _

/-- A report of success. -/
def World.reported (w : World) (restart : Bool) : World :=
  { w with restarted := w.restarted || restart, out := w.out ++ [asc "OK\n"] }

theorem gives_report_error (h : ret < 0) (restart : Bool) :
    Gives o.sem (report names restart ret) w (some (-1)) { w with out := w.out ++ [asc "error\n"] } := by
  rw [report, if_pos h]
  exact gives_ask (gives_pure _ _ _)

theorem gives_report (h : ¬ ret < 0) (restart : Bool) :
    Gives o.sem (report names restart ret) w (some 0) (w.reported restart) := by
  rw [report, if_neg h]
  cases restart with
  | true =>
    rw [if_pos rfl, World.reported, Bool.or_true]
    exact gives_ask (gives_ask (gives_pure _ _ _))
  | false =>
    rw [if_neg (by decide), World.reported, Bool.or_false]
    exact gives_ask (gives_pure _ _ _)

/-- The file that is installed. -/
def chosen (names : Names) (opts : List Opt) : Bytes := zip_file names (last_file [] opts)

/-- The command line is understood, and the old image is about to be erased. -/
structure Reached (names : Names) (o : Outcomes) (argc : Nat) (opts : List Opt) : Prop where
  args : 2 ≤ argc
  usage : argc < 3 → ∀ f, .i f ∉ opts
  begun : Begun o (chosen names opts)

/-- `unzip` is asked for, with a command that fits: it could not even be started, or it has
done its work and the flag has been advanced. -/
structure Sound (names : Names) (o : Outcomes) (file : Bytes) : Prop where
  fits : (unzip_cmd names file).length < 128
  status : o.answer (.unzip (unzip_cmd names file)) < 0 ∨
    o.answer (.unzip (unzip_cmd names file)) = 0 ∧ o.unpacked = true ∧ o.advanced = true

theorem gives_main {args : Args} {r : Option Int} {r' : Option Int} (hargc : ¬ argc < 2)
    (hopts : Gives o.sem (options argc opts ⟨.install, [], false⟩) w (.inr args) w)
    (hcmd : Gives o.sem (command names args) w r w₁)
    (hrest : Gives o.sem (match r with
      | none => Prog.pure none
      | some ret => report names args.restart ret) w₁ r' w') :
    Gives o.sem (mobius_pysdk_install_main names argc opts) w r' w' := by
  rw [mobius_pysdk_install_main, if_neg hargc]
  exact Gives.bind hopts (Gives.bind hcmd hrest)

theorem reports_iff {r : Option Int}
    (h : Gives o.sem (mobius_pysdk_install_main names argc opts) .start r w) :
    Reports names o argc opts ↔ Truthful r w := h.comes

/-- Without a success there is nothing to be checked. -/
theorem truthful_of_error (hok : asc "OK\n" ∉ w.out) (hrestarted : w.restarted = false)
    (hret : ret ≠ 0 ∨ w.usage = true) : Truthful (some ret) w where
  defined := Option.some_ne_none ret
  ret h hu := by
    rcases hret with hret | hret
    · exact absurd (Option.some.inj h) hret
    · exact Bool.noConfusion (hu.symm.trans hret)
  ok h := absurd h hok
  restarted h := Bool.noConfusion (hrestarted.symm.trans h)

/-- **Installing an image.**  What is reported is so exactly when `unzip` is not reached, or its
status is below 0, or its status is 0 and it has unpacked the archive and the flag has been
advanced; the command line for it has to fit. -/
theorem reports_iff_sound (names : Names) (o : Outcomes) (argc : Nat) (opts : List Opt)
    (hopts : Combined opts) :
    Reports names o argc opts ↔ (Reached names o argc opts → Sound names o (chosen names opts)) := by
  by_cases hargc : argc < 2
  · have hgives : Gives o.sem (mobius_pysdk_install_main names argc opts) .start (some 0)
        { World.start with usage := true } := by
      rw [mobius_pysdk_install_main, if_pos hargc]
      exact gives_ask (gives_pure _ _ _)
    rw [reports_iff hgives]
    exact iff_of_true (truthful_of_error (by simp [World.start]) rfl (Or.inr rfl))
      fun h => absurd h.args (by omega)
  by_cases hi : argc < 3 → ∀ f, .i f ∉ opts
  swap
  · -- the usage, because of `-i`
    obtain ⟨hlt, f, hf⟩ : argc < 3 ∧ ∃ f, Opt.i f ∈ opts := by simpa using hi
    have hgives : Gives o.sem (mobius_pysdk_install_main names argc opts) .start (some (-1))
        { World.start with usage := true } := by
      rw [mobius_pysdk_install_main, if_neg hargc]
      exact Gives.bind (gives_options_usage hopts hlt ⟨f, hf⟩ _) (gives_pure _ _ _)
    rw [reports_iff hgives]
    exact iff_of_true (truthful_of_error (by simp [World.start]) rfl (Or.inr rfl))
      fun h => absurd hf (h.usage hlt f)
  have hoptions := gives_options (o := o) (w := .start) hopts hi [] false
  by_cases hbegun : Begun o (chosen names opts)
  swap
  · have hgives := gives_main hargc hoptions (gives_install_refused hbegun)
      (gives_report_error (by decide) (restarts false opts))
    rw [reports_iff hgives]
    exact iff_of_true (truthful_of_error (by simp [World.start]; decide) rfl (Or.inl (by decide)))
      fun h => absurd h.begun hbegun
  rw [imp_iff_right ⟨by omega, hi, hbegun⟩]
  by_cases hfit : (unzip_cmd names (chosen names opts)).length < 128
  swap
  · have hgives := gives_main hargc hoptions
      (gives_install hbegun (gives_replace_none (if_neg hfit))) (gives_pure _ none _)
    rw [reports_iff hgives]
    exact iff_of_false (fun h => h.defined rfl) fun h => hfit h.fits
  have hinstall : Gives o.sem (command names ⟨.install, last_file [] opts, restarts false opts⟩) .start
      (some (o.answer (.unzip (unzip_cmd names (chosen names opts)))))
      (o.replaced (unzip_cmd names (chosen names opts)) .start) :=
    gives_install hbegun (gives_replace (if_pos hfit))
  by_cases hneg : o.answer (.unzip (unzip_cmd names (chosen names opts))) < 0
  · have hgives := gives_main hargc hoptions hinstall (gives_report_error hneg _)
    rw [reports_iff hgives, Outcomes.replaced, if_neg (Int.ne_of_lt hneg)]
    exact iff_of_true (truthful_of_error (by simp [World.start]; decide) rfl (Or.inl (by decide)))
      ⟨hfit, Or.inl hneg⟩
  have hgives := gives_main hargc hoptions hinstall (gives_report hneg _)
  rw [reports_iff hgives, Outcomes.replaced]
  by_cases hzero : o.answer (.unzip (unzip_cmd names (chosen names opts))) = 0
  · rw [if_pos hzero]
    constructor
    · exact fun h => ⟨hfit, Or.inr ⟨hzero, h.ret rfl rfl⟩⟩
    · intro h
      have hdone : o.unpacked = true ∧ o.advanced = true := (h.status.resolve_left hneg).2
      exact ⟨Option.some_ne_none 0, fun _ _ => hdone, fun _ => hdone, fun _ => hdone⟩
  · rw [if_neg hzero]
    refine iff_of_false (fun h => ?_) fun h => hzero (h.status.resolve_left hneg).1
    exact Bool.noConfusion (h.ret rfl rfl).2

/-- An archive that cannot be read. -/
def corrupt : Outcomes where
  answer
    | .access _ => true
    | .pysdk_img_flag => .S2
    | .erase_pysdk_img_flag => ()
    | .set_pysdk_img_flag _ => ()
    | .backup_pysdk_img => true
    | .verify_pysdk_img_sign _ => true
    | .recover_pysdk_img => true
    | .clear _ => 0
    | .unzip _ => 9 * 256
    | .rm_zip _ => 0
    | .kill_pidfile _ => ()
    | .help => ()
    | .printf _ => ()
  unpacked := false
  advanced := true

/-- A board. -/
def board : Names := ⟨asc "/usr/pysdk1", asc "/usr/pysdk2", asc "/tmp/pysdk.zip", asc "pyagent"⟩

theorem reports_iff_sound_corrupt : Reports board corrupt 4 [.s, .i (asc "sdk.zip")] ↔
    (Reached board corrupt 4 [.s, .i (asc "sdk.zip")] →
      Sound board corrupt (chosen board [.s, .i (asc "sdk.zip")])) :=
  reports_iff_sound board corrupt 4 [.s, .i (asc "sdk.zip")] (by
    intro x hx
    rcases List.mem_cons.mp hx with rfl | hx
    · exact Or.inl rfl
    · exact Or.inr ⟨_, List.mem_singleton.mp hx⟩)

/-- `unzip` fails with status 9, and Python is restarted. -/
theorem corrupt_is_a_success : ¬ ∀ (names : Names) (o : Outcomes) (argc : Nat) (opts : List Opt),
    Combined opts → Reports names o argc opts := by
  intro hall
  have hopts : Combined [.s] := fun x hx => Or.inl (List.mem_singleton.mp hx)
  have hr := hall board corrupt 2 [.s] hopts
  have hbegun : Begun corrupt (chosen board [.s]) := ⟨rfl, fun _ => rfl⟩
  have hfit : (unzip_cmd board (chosen board [.s])).length < 128 := by decide
  have hoptions : Gives corrupt.sem (options 2 [.s] ⟨.install, [], false⟩) .start
      (.inr ⟨.install, [], true⟩) .start := gives_options hopts (fun _ f hf => by simp at hf) [] false
  have hcommand : Gives corrupt.sem (command board ⟨.install, [], true⟩) .start (some (9 * 256))
      (corrupt.replaced (unzip_cmd board (chosen board [.s])) .start) :=
    gives_install hbegun (gives_replace (if_pos hfit))
  have hgives := gives_main (by decide) hoptions hcommand (gives_report (by decide) true)
  have ht := (reports_iff hgives).mp hr
  exact Bool.noConfusion (ht.restarted rfl).1

end Runs

end Boxing.Mobius
