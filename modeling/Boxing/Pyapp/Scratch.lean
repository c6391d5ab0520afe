import Mathlib.Data.List.Sort
import Boxing.C.Lines
import Boxing.Device.Wp
import Boxing.Pyapp.Install

/-!
# What earlier installations have left

`pyapp_install` finds out the names of the app and of its file by listing the scratch
directory, where the archive has just been unpacked.  Whatever was there before is listed
as well.  The directory is removed when the verification fails, and with the second command; the
exits before that leave it as it is.

`Left` is what any earlier installations may have left, and `Cleaned` what is left by those of
which none has stopped at such an exit with files in the directory.  Behind the latter it makes
no difference which they were (`same_of_cleaned`).
-/

namespace Boxing.Pyapp

open C Device

/-- Files with their contents. -/
abbrev Files := List (Bytes × Bytes)

/-- Files are written over those of the same names. -/
def put_all (files old : Files) : Files :=
  files.foldl (fun all file => file :: all.filter fun other => other.1 ≠ file.1) old

/-- `ls`: the lines. -/
def ls (files : Files) : List Bytes :=
  lines ((((files.map Prod.fst).filter fun name => name.head? ≠ some 46).insertionSort (· ≤ ·)).flatMap
    (· ++ [10]))

/-- The word `fscanf("%s")` finds. -/
def first_word (text : Bytes) : Bytes :=
  (text.dropWhile fun c => isSpace c).takeWhile fun c => !isSpace c

/-- `grep info`, and `awk -F '.' '{printf $1}'` with the `printf` of `awk`. -/
def info_word (printf : Bytes → Bytes) (files : Files) : Bytes :=
  first_word (((ls files).filter fun line => (strstr line (asc "info")).isSome).flatMap fun line =>
    printf (line.takeWhile (· ≠ 46)))

/-- `tar.gz` is in the line, with any character for the point. -/
def has_tar : Bytes → Bool
  | [] => false
  | c :: line =>
    (c :: line).take 3 == asc "tar" && ((c :: line).drop 4).take 2 == asc "gz" || has_tar line

/-- `grep tar.gz`. -/
def tar_word (files : Files) : Bytes :=
  first_word (((ls files).filter has_tar).flatMap (· ++ [10]))

/-- The file at a path in the scratch directory. -/
def file_at (files : Files) (path : Bytes) : Option Bytes :=
  (files.find? fun file => pyapp_tmp ++ asc "/" ++ file.1 = path).map Prod.snd

/-- What the commands do, from what they read. -/
structure Env (σ : Type) where
  /-- `access`, outside of the scratch directory -/
  access : σ → Bytes → Bool
  /-- the status of the first command, the files there are then, and what becomes of the rest -/
  untar : σ → Bytes → Files → Int × Files × σ
  /-- `popen` -/
  pipe : σ → Bool
  /-- `printf` of `awk` with a format only -/
  printf : Bytes → Bytes
  /-- the signature of a file -/
  valid : σ → Bytes → Bytes → Bool
  /-- the status of the second command for a file and an app, and what becomes of the rest -/
  unpack : σ → Files → Bytes → Bytes → Int × σ
  copy_lib : σ → Int × σ
  other : AppCall → σ → σ

/-- The scratch directory, the name of the app that has been unpacked, and all the rest: the
apps, the links, the archives. -/
structure Board (σ : Type) where
  tmp : Option Files
  name : Option Bytes
  rest : σ

section Env

variable {σ : Type} (E : Env σ)

/-- The answers. -/
def Env.answer : (c : AppCall) → Board σ → AppRet c
  | .access path, w => if path = pyapp_tmp then w.tmp.isSome else E.access w.rest path
  | .mkdir _, _ => ()
  | .untar app _, w => (E.untar w.rest app (w.tmp.getD [])).1
  | .ls_info, w => if E.pipe w.rest = true then some (info_word E.printf (w.tmp.getD [])) else none
  | .ls_tar, w => if E.pipe w.rest = true then some (tar_word (w.tmp.getD [])) else none
  | .verify pyappfile signfile, w =>
    match file_at (w.tmp.getD []) pyappfile, file_at (w.tmp.getD []) signfile with
    | some content, some sign => E.valid w.rest content sign
    | _, _ => false
  | .rm_tmp, _ => ()
  | .rm_old _, _ => ()
  | .unpack file appname _, w => (E.unpack w.rest (w.tmp.getD []) file appname).1
  | .rm_new _, _ => ()
  | .remove _, _ => ()
  | .symlink _ _, _ => ()
  | .chmod _, _ => ()
  | .copy_lib _, w => (E.copy_lib w.rest).1
  | .sync, _ => ()
  | .printf _, _ => ()

/-- The effects. -/
def Env.effect : AppCall → Board σ → Board σ
  | .access _, w => w
  | .mkdir path, w =>
    if path = pyapp_tmp then { w with tmp := some (w.tmp.getD []) }
    else { w with rest := E.other (.mkdir path) w.rest }
  | .untar app _, w =>
    { w with
      tmp := some (E.untar w.rest app (w.tmp.getD [])).2.1
      rest := (E.untar w.rest app (w.tmp.getD [])).2.2 }
  | .rm_tmp, w => { w with tmp := none }
  | .unpack file appname _, w =>
    ⟨none, some appname, (E.unpack w.rest (w.tmp.getD []) file appname).2⟩
  | .copy_lib _, w => { w with rest := (E.copy_lib w.rest).2 }
  | c, w => { w with rest := E.other c w.rest }

/-- The board. -/
def Env.sem : Sem AppRet (Board σ) := Sem.fixed E.answer E.effect

/-- From two contents of the scratch directory an installation comes to the same end: the
result, the name of the app, and all but the scratch directory. -/
def Same (paths : Paths) (app : Option Bytes) (rest : σ) (t₁ t₂ : Option Files) : Prop :=
  ∃ r name rest', (∃ t, Gives E.sem (pyapp_install paths app) ⟨t₁, none, rest⟩ r ⟨t, name, rest'⟩) ∧
    ∃ t, Gives E.sem (pyapp_install paths app) ⟨t₂, none, rest⟩ r ⟨t, name, rest'⟩

end Env

/-! ### Earlier installations -/

/-- What an operation may do to the scratch directory. -/
def Did : (c : AppCall) → AppRet c → Option Files → Option Files → Prop
  | .access path, there, t, t' => t' = t ∧ (path = pyapp_tmp → there = t.isSome)
  | .mkdir path, _, t, t' => t' = t ∨ path = pyapp_tmp ∧ t = none ∧ t' = some []
  | .untar _ _, _, t, t' => t' = t ∨ t.isSome = true ∧ t'.isSome = true
  | .rm_tmp, _, t, t' => t.isSome = true ∨ t' = none
  | .unpack _ _ _, _, t, t' => t.isSome = true ∨ t' = none
  | _, _, t, t' => t' = t

/-- Any installation, which may also be killed. -/
def any_outcome : Sem AppRet (Option Files) where
  step t c r t' := Did c r t t'
  cut t c t' := t' = t ∨ ∃ r, Did c r t t'

/-- There is no file. -/
def NoFiles (t : Option Files) : Prop := ∀ files, t = some files → files = []

/-- No exit is taken that leaves files: the first command is a success, the names are found, and
the directory is removed where it should be. -/
def Met (app : Bytes) : (c : AppCall) → AppRet c → Option Files → Prop
  | .untar _ _, status, t => status = 0 ∨ NoFiles t
  | .ls_info, word, t => (∃ w, word = some w ∧ w ≠ []) ∨ NoFiles t
  | .ls_tar, word, t => (∃ w, word = some w ∧ (w ≠ [] ∨ file_name app ≠ [])) ∨ NoFiles t
  | .rm_tmp, _, t => NoFiles t
  | .unpack _ _ _, _, t => NoFiles t
  | _, _, _ => True

/-- An installation of which every step is so. -/
def good_outcome (app : Bytes) : Sem AppRet (Option Files) where
  step t c r t' := Did c r t t' ∧ Met app c r t'
  cut _ _ _ := False

/-- What any installations have left. -/
inductive Left (paths : Paths) : Option Files → Prop
  | fresh : Left paths none
  | run {t t' : Option Files} {app : Option Bytes} {o : Option (Option Int)} (h : Left paths t)
      (hrun : Run any_outcome (pyapp_install paths app) t o t') : Left paths t'

/-- What installations have left that have come to their end, and met the condition. -/
inductive Cleaned (paths : Paths) : Option Files → Prop
  | fresh : Cleaned paths none
  | run {t t' : Option Files} {app : Option Bytes} {ret : Int} (h : Cleaned paths t)
      (hrun : Run (good_outcome (app.getD [])) (pyapp_install paths app) t (some (some ret)) t') :
      Cleaned paths t'

/-- They are among those that there may be. -/
theorem Cleaned.left {paths : Paths} {t : Option Files} (h : Cleaned paths t) : Left paths t := by
  induction h with
  | fresh => exact .fresh
  | run _ hrun ih => exact .run ih (hrun.weaken And.left False.elim)

/-! ### What an installation leaves that meets the condition -/

section Cleaned

variable {app : Bytes} {t t' : Option Files}

/-- Where the program gets to a result, there is no file left. -/
def Empties (app : Bytes) (p : Prog AppRet (Option Int)) (t : Option Files) : Prop :=
  ∀ (ret : Int) (t' : Option Files), Run (good_outcome app) p t (some (some ret)) t' → NoFiles t'

theorem empties_none : Empties app (.pure none) t := by
  intro ret t' hr
  have h := (Run.some_pure.mp hr).1
  cases h

theorem empties_pure {r : Option Int} (h : NoFiles t) : Empties app (.pure r) t := by
  intro ret t' hr
  rw [(Run.some_pure.mp hr).2]
  exact h

/-- One operation. -/
theorem empties_op {c : AppCall} {k : AppRet c → Prog AppRet (Option Int)}
    (h : ∀ r t', Did c r t t' → Met app c r t' → Empties app (k r) t') :
    Empties app (op c >>= k) t := by
  intro ret t'' hr
  rw [op, Prog.ask_bind, Run.some_call] at hr
  obtain ⟨r, t', ⟨hdid, hmet⟩, hk⟩ := hr
  exact h r t' hdid hmet ret t'' hk

theorem empties_ite {c : Prop} [Decidable c] {p q : Prog AppRet (Option Int)}
    (hp : c → Empties app p t) (hq : ¬ c → Empties app q t) :
    Empties app (if c then p else q) t := by
  by_cases h : c
  · rw [if_pos h]
    exact hp h
  · rw [if_neg h]
    exact hq h

theorem empties_bind {p : Prog AppRet Unit} {next : Prog AppRet (Option Int)}
    (h : ∀ t, Empties app next t) : Empties app (p >>= fun _ => next) t := by
  intro ret t'' hr
  obtain ⟨_, t', -, hnext⟩ := Run.some_bind.mp hr
  exact h t' ret t'' hnext

theorem empties_in_buffer {size : Nat} {text : Bytes} {next : Bytes → Prog AppRet (Option Int)}
    (h : Empties app (next text) t) : Empties app (in_buffer size text next) t := by
  unfold in_buffer sprintf
  by_cases hlt : text.length < size
  · rw [if_pos hlt]
    exact h
  · rw [if_neg hlt]
    exact empties_none

theorem empties_scan_word {word old : Bytes} {next : Bytes → Prog AppRet (Option Int)}
    (h : Empties app (next (if word = [] then old else word)) t) :
    Empties app (scan_word word old next) t := by
  rw [scan_word]
  by_cases hword : word = []
  · rw [if_pos hword] at h ⊢
    exact h
  · rw [if_neg hword] at h ⊢
    exact empties_in_buffer h

/-- Not the first command. -/
def AppCall.Later : AppCall → Prop
  | .untar _ _ => False
  | _ => True

/-- Only the first command brings files. -/
theorem no_files_step {c : AppCall} {r : AppRet c} (hc : c.Later) (h : NoFiles t)
    (hstep : (good_outcome app).step t c r t') : NoFiles t' := by
  obtain ⟨hdid, hmet⟩ := hstep
  cases c with
  | untar app cmd => exact hc.elim
  | access path => exact hdid.1 ▸ h
  | mkdir path =>
    rcases hdid with rfl | ⟨-, -, rfl⟩
    · exact h
    · exact fun files hfiles => (Option.some.inj hfiles).symm
  | rm_tmp => exact hmet
  | unpack file appname cmd => exact hmet
  | ls_info => exact hdid ▸ h
  | ls_tar => exact hdid ▸ h
  | verify pyappfile signfile => exact hdid ▸ h
  | rm_old path => exact hdid ▸ h
  | rm_new path => exact hdid ▸ h
  | remove linkfile => exact hdid ▸ h
  | symlink target linkfile => exact hdid ▸ h
  | chmod cmd => exact hdid ▸ h
  | copy_lib cmd => exact hdid ▸ h
  | sync => exact hdid ▸ h
  | printf text => exact hdid ▸ h

theorem empties_later {p : Prog AppRet (Option Int)} (hp : p.Straight AppCall.Later) (h : NoFiles t) :
    Empties app p t := by
  intro ret t' hr
  apply hr.keeps (P := AppCall.Later) (I := NoFiles)
  · exact fun t c r t' hc ht hs => no_files_step hc ht hs
  · exact fun t c t' _ _ hcut => hcut.elim
  · exact hp.only
  · exact h

theorem straight_in_buffer {P : AppCall → Prop} {size : Nat} {text : Bytes}
    {next : Bytes → Prog AppRet (Option Int)} (h : ∀ cmd, (next cmd).Straight P) :
    (in_buffer size text next).Straight P := by
  unfold in_buffer
  cases sprintf size text with
  | none => trivial
  | some cmd => exact h cmd

theorem straight_scan_word {P : AppCall → Prop} {word old : Bytes}
    {next : Bytes → Prog AppRet (Option Int)} (h : ∀ word, (next word).Straight P) :
    (scan_word word old next).Straight P := .ite (h old) (straight_in_buffer h)

theorem straight_make_dir {dir : Bytes} {next : Prog AppRet (Option Int)}
    (h : next.Straight AppCall.Later) : (make_dir dir next).Straight AppCall.Later :=
  straight_in_buffer fun _ => ⟨trivial, fun _ => h⟩

theorem straight_finish_install (paths : Paths) (appname : Bytes) :
    (finish_install paths appname).Straight AppCall.Later := by
  refine ⟨trivial, fun _ => ⟨trivial, fun ret => .ite trivial ?_⟩⟩
  exact straight_make_dir (straight_make_dir ⟨trivial, fun _ => ⟨trivial, fun _ => trivial⟩⟩)

theorem straight_link_app (paths : Paths) (appname : Bytes) :
    (link_app paths appname).Straight AppCall.Later := by
  refine ⟨trivial, fun whole => .ite ⟨trivial, fun _ => trivial⟩ ⟨trivial, fun _ => ?_⟩⟩
  exact ⟨trivial, fun _ => ⟨trivial, fun _ => straight_finish_install paths appname⟩⟩

theorem straight_verify_app (paths : Paths) (filename appname : Bytes) :
    (verify_app paths filename appname).Straight AppCall.Later := by
  have hold : (remove_old (snprintf 128 (paths.PYUSER_APP_PATH ++ asc "/" ++ appname))).Straight
      AppCall.Later := ⟨trivial, fun there => .ite ⟨trivial, fun _ => trivial⟩ trivial⟩
  refine ⟨trivial, fun ok => .ite ⟨trivial, fun _ => trivial⟩ ⟨trivial, fun _ => hold.bind fun _ => ?_⟩⟩
  refine straight_in_buffer fun cmd => ⟨trivial, fun ret => .ite trivial ?_⟩
  exact straight_link_app paths appname

theorem straight_find_file (paths : Paths) (filename appname : Bytes) :
    (find_file paths filename appname).Straight AppCall.Later := by
  refine ⟨trivial, fun word => ?_⟩
  cases word with
  | none => trivial
  | some word => exact straight_scan_word fun _ => .ite trivial (straight_verify_app _ _ _)

theorem straight_find_app (paths : Paths) (filename : Bytes) :
    (find_app paths filename).Straight AppCall.Later := by
  refine ⟨trivial, fun word => ?_⟩
  cases word with
  | none => trivial
  | some word => exact straight_scan_word fun _ => .ite trivial (straight_find_file _ _ _)

/-- From the verification on, the directory is removed on every way. -/
theorem empties_verify_app (paths : Paths) (filename appname : Bytes) :
    Empties app (verify_app paths filename appname) t := by
  refine empties_op fun ok t₁ _ _ => empties_ite (fun _ => ?_) fun _ => ?_
  · exact empties_op fun _ t₂ _ hmet => empties_pure hmet
  refine empties_op fun _ t₂ _ _ => empties_bind fun t₃ => empties_in_buffer ?_
  refine empties_op fun ret t₄ _ hmet => empties_ite (fun _ => empties_pure hmet) fun _ => ?_
  exact empties_later (straight_link_app paths appname) hmet

theorem empties_find_file (paths : Paths) (appname : Bytes) :
    Empties app (find_file paths (file_name app) appname) t := by
  refine empties_op fun word t₁ _ htar => ?_
  rcases htar with ⟨word, rfl, hne⟩ | hno
  · refine empties_scan_word (empties_ite (fun hnil => ?_) fun _ => empties_verify_app _ _ _)
    by_cases hword : word = []
    · rw [if_pos hword] at hnil
      exact absurd hnil (hne.resolve_left fun h => h hword)
    · rw [if_neg hword] at hnil
      exact absurd hnil hword
  · exact empties_later ((straight_find_file paths (file_name app) appname).2 word) hno

/-- The names are found, or there is no file. -/
theorem empties_find_app (paths : Paths) : Empties app (find_app paths (file_name app)) t := by
  refine empties_op fun word t₁ _ hinfo => ?_
  rcases hinfo with ⟨word, rfl, hne⟩ | hno
  · refine empties_scan_word ?_
    rw [if_neg hne, if_neg hne]
    exact empties_find_file paths word
  · exact empties_later ((straight_find_app paths (file_name app)).2 word) hno

theorem empties_install (paths : Paths) (happ : app ≠ []) :
    Empties app (pyapp_install paths (some app)) t := by
  rw [pyapp_install, if_neg happ]
  refine empties_bind fun t₁ => empties_in_buffer (empties_op fun ret t₂ _ hmet => ?_)
  refine empties_ite (fun hret => empties_pure (hmet.resolve_left hret)) fun _ => ?_
  exact empties_find_app paths

/-- **There is no file behind any installations that meet the condition.** -/
theorem Cleaned.no_files {paths : Paths} (h : Cleaned paths t) : NoFiles t := by
  induction h with
  | fresh => exact fun files hfiles => nomatch hfiles
  | @run t t' app ret _ hrun ih =>
    cases app with
    | none => exact empties_pure ih ret t' hrun
    | some app =>
      by_cases happ : app = []
      · rw [pyapp_install, if_pos happ] at hrun
        exact empties_pure ih ret t' hrun
      · exact empties_install paths happ ret t' hrun

end Cleaned

/-! ### The next installation -/

section Next

variable {σ : Type} (E : Env σ)

/-- The scratch directory is there, and empty. -/
theorem gives_empty {t : Option Files} (h : NoFiles t) (name : Option Bytes) (rest : σ) :
    Gives E.sem make_tmp ⟨t, name, rest⟩ () ⟨some [], name, rest⟩ := by
  cases t with
  | none => exact gives_of_eval rfl
  | some files =>
    obtain rfl := h files rfl
    exact gives_of_eval rfl

/-- **An installation behind others.**  It makes no difference which they were, when they meet the
condition. -/
theorem same_of_cleaned (paths : Paths) (app : Option Bytes) (rest : σ) {t₁ t₂ : Option Files}
    (h₁ : Cleaned paths t₁) (h₂ : Cleaned paths t₂) : Same E paths app rest t₁ t₂ := by
  have hstop : pyapp_install paths app = .pure (some (-1)) → Same E paths app rest t₁ t₂ := by
    intro h
    rw [Same, h]
    exact ⟨_, _, _, ⟨t₁, gives_pure _ _ _⟩, t₂, gives_pure _ _ _⟩
  cases app with
  | none => exact hstop rfl
  | some app =>
    by_cases happ : app = []
    · exact hstop (if_pos happ)
    rw [Same, pyapp_install, if_neg happ]
    have hrest : (in_buffer paths.MAX_BUFF_LEN (untar_cmd (asc "-xf") app) fun cmd => do
        let ret ← op (.untar app cmd)
        if ret ≠ 0 then Prog.pure (some (-1)) else find_app paths (file_name app)).Straight
          fun _ => True := by
      refine straight_in_buffer fun cmd => ⟨trivial, fun ret => .ite trivial ?_⟩
      exact (straight_find_app paths (file_name app)).mono fun _ _ => trivial
    obtain ⟨r, ⟨t, name, rest'⟩, hgives⟩ := hrest.gives E.answer E.effect ⟨some [], none, rest⟩
    exact ⟨r, name, rest', ⟨t, (gives_empty E h₁.no_files none rest).bind hgives⟩,
      t, (gives_empty E h₂.no_files none rest).bind hgives⟩

end Next

/-- The first command of the first installation fails, and these files are there.  Its status is that
of its last part, `rm -f` of the archive: what `tar` has unpacked stays. -/
theorem run_failed {S : Sem AppRet (Option Files)} {paths : Paths} {app : Bytes} {files : Files}
    (happ : app ≠ []) (hfits : (untar_cmd (asc "-xf") app).length < paths.MAX_BUFF_LEN)
    (haccess : S.step none (.access pyapp_tmp) false none)
    (hmkdir : S.step none (.mkdir pyapp_tmp) () (some []))
    (huntar : S.step (some []) (.untar app (untar_cmd (asc "-xf") app)) 256 (some files)) :
    Run S (pyapp_install paths (some app)) none (some (some (-1))) (some files) := by
  rw [pyapp_install, if_neg happ]
  have hmake : Run S make_tmp none (some ()) (some []) := .call haccess (.call hmkdir (.ret () _))
  refine hmake.bind ?_
  rw [in_buffer, sprintf, if_pos hfits]
  exact .call huntar (.ret _ _)

/-- The paths of a board. -/
def board_paths : Paths where
  PYUSER_APP_PATH := asc "/var/user/app"
  PYUSER_BIN_PATH := asc "/var/user/bin"
  PYUSER_LIB_PATH := asc "/var/user/lib"
  PYUSER_DATA_PATH := asc "/var/user/data"
  PYUSER_LOG_PATH := asc "/var/user/log"
  MAX_BUFF_LEN := 256

/-- An archive with an app and its signature.  The rest is whether the app is installed. -/
def with_camera : Env Bool where
  access there _ := there
  untar there _ files := (0, put_all [(asc "camera.info", asc "1"), (asc "camera.sign", asc "s"),
    (asc "camera.tar.gz", asc "a")] files, there)
  pipe _ := true
  printf text := text
  valid _ content sign := content == asc "a" && sign == asc "s"
  unpack _ _ _ _ := (0, true)
  copy_lib there := (0, there)
  other _ there := there

/-- Behind an empty archive on a read-only medium, which is not removed. -/
theorem same_of_cleaned_failed :
    Cleaned board_paths none ∧ Cleaned board_paths (some []) ∧
      Same with_camera board_paths (some (asc "/tmp/camera.tar")) false none (some []) := by
  have hrun : Run (good_outcome (asc "/mnt/empty.tar"))
      (pyapp_install board_paths (some (asc "/mnt/empty.tar"))) none (some (some (-1))) (some []) := by
    apply run_failed (by decide) (by decide)
    · exact ⟨⟨rfl, fun _ => rfl⟩, trivial⟩
    · exact ⟨.inr ⟨rfl, rfl, rfl⟩, trivial⟩
    · exact ⟨.inl rfl, .inr fun files hfiles => (Option.some.inj hfiles).symm⟩
  have hfailed : Cleaned board_paths (some []) :=
    @Cleaned.run _ _ _ (some (asc "/mnt/empty.tar")) (-1) .fresh hrun
  exact ⟨.fresh, hfailed, same_of_cleaned with_camera _ _ _ .fresh hfailed⟩

set_option maxRecDepth 4000 in
/-- An info file that a failure has left, the removal of its archive from a read-only medium, is
taken for a part of the name of the next app. -/
theorem mixed_names :
    ¬ ∀ (E : Env Bool) (paths : Paths) (app : Option Bytes) (rest : Bool) (t₁ t₂ : Option Files),
      Left paths t₁ → Left paths t₂ → Same E paths app rest t₁ t₂ := by
  intro hall
  have hrun : Run any_outcome (pyapp_install board_paths (some (asc "/mnt/door.tar"))) none
      (some (some (-1))) (some [(asc "door.info", asc "2")]) := by
    apply run_failed (by decide) (by decide)
    · exact ⟨rfl, fun _ => rfl⟩
    · exact .inr ⟨rfl, rfl, rfl⟩
    · exact .inr ⟨rfl, rfl⟩
  obtain ⟨r, name, rest', ⟨t₁, h₁⟩, t₂, h₂⟩ := hall with_camera board_paths
    (some (asc "/tmp/camera.tar")) false none (some [(asc "door.info", asc "2")]) .fresh
    (.run .fresh hrun)
  have hfresh : Gives with_camera.sem (pyapp_install board_paths (some (asc "/tmp/camera.tar")))
      ⟨none, none, false⟩ (some 0) ⟨none, some (asc "camera"), true⟩ := gives_of_eval rfl
  have hmixed : Gives with_camera.sem (pyapp_install board_paths (some (asc "/tmp/camera.tar")))
      ⟨some [(asc "door.info", asc "2")], none, false⟩ (some (-1)) ⟨none, none, false⟩ :=
    gives_of_eval rfl
  have hr : r = some 0 := (hfresh.unique h₁).1
  rw [hr] at h₂
  exact absurd (hmixed.unique h₂).1 (by decide)

end Boxing.Pyapp
