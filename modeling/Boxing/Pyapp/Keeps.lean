import Boxing.Pyapp.Install

/-!
# What a failed installation leaves

Up to the verification the two programs mean to work in the scratch directory, and a failure there
leaves the app alone, if the steps do.  The first command need not: it removes the archive, wherever
that is, and unpacks it where the program stands when the directory cannot be entered.  Then the old
version is removed, and there is no way back: whatever fails behind that point, what is left is what
the last step has made of the app.

`install_keeps_iff` says when a failure keeps the app as it was, for every outcome of the steps,
which may depend on all that is there.
-/

namespace Boxing.Pyapp

open C Device

/-- The steps that can reach the directory of the app or its link: all that write. -/
def AppCall.works : AppCall → Bool
  | .mkdir _ => true
  | .untar _ _ => true
  | .verify _ _ => true
  | .rm_tmp => true
  | .rm_old _ => true
  | .unpack _ _ _ => true
  | .rm_new _ => true
  | .remove _ => true
  | .symlink _ _ => true
  | .chmod _ => true
  | .copy_lib _ => true
  | _ => false

/-- What the steps come to: the answer of each of them, and what it makes of what is there.  `view`
is what is seen of that of the app, its directory and its link. -/
structure Outcomes (σ τ : Type) where
  answer : (c : AppCall) → σ → AppRet c
  after : AppCall → σ → σ
  view : σ → τ

section Outcomes

variable {σ τ : Type} (o : Outcomes σ τ)

/-- What an operation changes. -/
def Outcomes.effect (c : AppCall) (s : σ) : σ := if c.works = true then o.after c s else s

/-- The operations, with their outcomes. -/
def Outcomes.sem : Sem AppRet σ := Sem.fixed o.answer o.effect

/-- The app is what it was. -/
def Outcomes.Same (before now : σ) : Prop := o.view now = o.view before

/-- There is a result, and a failure has left the app as it was. -/
structure Kept (before : σ) (r : Option Int) (now : σ) : Prop where
  defined : r ≠ none
  kept : r = some (-1) → o.Same before now

/-- The first two steps, on the scratch directory: it is there, or it is made. -/
def Outcomes.prepared (s : σ) : σ :=
  if o.answer (.access pyapp_tmp) s = true then s else o.after (.mkdir pyapp_tmp) s

/-- What the first command returns. -/
def Outcomes.untar_status (app cmd : Bytes) (s : σ) : Int := o.answer (.untar app cmd) (o.prepared s)

/-- What is there behind it. -/
def Outcomes.untarred (app cmd : Bytes) (s : σ) : σ := o.after (.untar app cmd) (o.prepared s)

/-- The verification. -/
def verify_call (filename appname : Bytes) : AppCall :=
  .verify (tmp_file filename) (tmp_file (appname ++ asc ".sign"))

/-- What it says. -/
def Outcomes.valid (filename appname : Bytes) (s : σ) : Bool :=
  o.answer (.verify (tmp_file filename) (tmp_file (appname ++ asc ".sign"))) s

/-- What is there behind it. -/
def Outcomes.verified (app cmd filename appname : Bytes) (s : σ) : σ :=
  o.after (verify_call filename appname) (o.untarred app cmd s)

/-- What is there when the old version has been removed. -/
def Outcomes.removed (pyapp : Bytes) (s : σ) : σ :=
  if o.answer (.access pyapp) s = true then o.after (.rm_old pyapp) s else s

/-- The second command. -/
def unpack_call (apps filename appname : Bytes) : AppCall :=
  .unpack (tmp_file filename) appname (unpack_cmd apps (tmp_file filename) appname)

/-- What it returns. -/
def Outcomes.status (apps filename appname : Bytes) (s : σ) : Int :=
  o.answer (.unpack (tmp_file filename) appname (unpack_cmd apps (tmp_file filename) appname))
    (o.removed (snprintf 128 (apps ++ asc "/" ++ appname)) s)

/-- What is there behind it. -/
def Outcomes.unpacked (apps filename appname : Bytes) (s : σ) : σ :=
  o.after (unpack_call apps filename appname) (o.removed (snprintf 128 (apps ++ asc "/" ++ appname)) s)

/-- The program of the app is there. -/
def Outcomes.whole (apps appname : Bytes) (s : σ) : Bool :=
  o.answer (.access (snprintf 128 (apps ++ asc "/" ++ appname ++ asc "/src/main.pyc"))) s

/-- Behind the verification, which leaves `s`: no step fails, or there is again what was there
before. -/
structure Replaced (before s : σ) (apps : Bytes) (size : Nat) (filename appname : Bytes)
    (rest : σ → Prop) : Prop where
  fits : (unpack_cmd apps (tmp_file filename) appname).length < size
  failed : o.status apps filename appname s ≠ 0 → o.Same before (o.unpacked apps filename appname s)
  incomplete : o.status apps filename appname s = 0 →
    o.whole apps appname (o.unpacked apps filename appname s) = false →
      o.Same before (o.after (.rm_new (snprintf size (asc "rm -rf " ++ apps ++ asc "/" ++ appname)))
        (o.unpacked apps filename appname s))
  complete : o.status apps filename appname s = 0 →
    o.whole apps appname (o.unpacked apps filename appname s) = true →
      rest (o.unpacked apps filename appname s)

/-- The directories for the data and the logs fit into their buffer. -/
def DirsFit (data log appname : Bytes) : Prop :=
  (data ++ appname).length < 128 ∧ (log ++ appname).length < 128

/-- `pyapp_install_main` gets through the first command. -/
structure UntarredMain (before : σ) (tar app : Bytes) : Prop where
  there : o.answer (.access app) before = true
  untar : o.untar_status app (untar_cmd tar app) before = 0

/-- When a failure of `pyapp_install_main` keeps the app. -/
structure MainKeeps (before : σ) (tar app : Bytes) : Prop where
  fits : o.answer (.access app) before = true → (untar_cmd tar app).length < 256
  failed : o.answer (.access app) before = true → o.untar_status app (untar_cmd tar app) before ≠ 0 →
    o.Same before (o.untarred app (untar_cmd tar app) before)
  rejected : UntarredMain o before tar app →
    o.valid (file_name app) (app_name (file_name app)) (o.untarred app (untar_cmd tar app) before) =
      false →
    o.Same before (o.after .rm_tmp (o.verified app (untar_cmd tar app) (file_name app)
      (app_name (file_name app)) before))
  replaced : UntarredMain o before tar app →
    o.valid (file_name app) (app_name (file_name app)) (o.untarred app (untar_cmd tar app) before) =
      true →
    Replaced o before
      (o.verified app (untar_cmd tar app) (file_name app) (app_name (file_name app)) before)
      PYAPP 256 (file_name app) (app_name (file_name app)) fun _ =>
        DirsFit (PYAPP ++ asc "/data/") (PYAPP ++ asc "/log/") (app_name (file_name app))

/-- `cp -rf` of the libraries. -/
def copy_call (paths : Paths) : AppCall :=
  .copy_lib (snprintf paths.MAX_BUFF_LEN (asc "cp -rf " ++ paths.PYUSER_APP_PATH ++ asc "/lib/* "
    ++ paths.PYUSER_LIB_PATH ++ asc "/;rm -rf " ++ paths.PYUSER_APP_PATH ++ asc "/lib"))

/-- What is there when the link has been replaced. -/
def Outcomes.linked (paths : Paths) (appname : Bytes) (s : σ) : σ :=
  let filename := snprintf 128 (paths.PYUSER_APP_PATH ++ asc "/" ++ appname ++ asc "/src/main.pyc")
  let linkfile := snprintf 128 (paths.PYUSER_BIN_PATH ++ asc "/" ++ appname)
  o.after (.chmod (snprintf paths.MAX_BUFF_LEN
    (asc "chmod 777 " ++ paths.PYUSER_APP_PATH ++ asc "/" ++ appname ++ asc " -R")))
    (o.after (.symlink filename linkfile) (o.after (.remove linkfile) s))

/-- What the copy returns then. -/
def Outcomes.copied (paths : Paths) (appname : Bytes) (s : σ) : Int :=
  o.answer (.copy_lib (snprintf paths.MAX_BUFF_LEN (asc "cp -rf " ++ paths.PYUSER_APP_PATH
    ++ asc "/lib/* " ++ paths.PYUSER_LIB_PATH ++ asc "/;rm -rf " ++ paths.PYUSER_APP_PATH
    ++ asc "/lib"))) (o.linked paths appname s)

/-- When the rest of `pyapp_install` keeps the app. -/
def FinishKeeps (before : σ) (paths : Paths) (appname : Bytes) (s : σ) : Prop :=
  (o.copied paths appname s ≠ 0 →
    o.Same before (o.after (copy_call paths) (o.linked paths appname s))) ∧
  (o.copied paths appname s = 0 →
    DirsFit (paths.PYUSER_DATA_PATH ++ asc "/") (paths.PYUSER_LOG_PATH ++ asc "/") appname)

/-- `pyapp_install` gets through the first command. -/
def UntarredApp (before : σ) (app : Bytes) : Prop :=
  o.untar_status app (untar_cmd (asc "-xf") app) before = 0

/-- In `s` it finds the names. -/
structure NamedApp (s : σ) (app filename appname : Bytes) : Prop where
  info : o.answer .ls_info s = some appname
  name : appname ≠ []
  tar : ∃ word, o.answer .ls_tar s = some word ∧ filename = if word = [] then file_name app else word
  file : filename ≠ []

/-- It does not find the name of the app, or it finds that and no name of a file. -/
def NotNamed (s : σ) (app : Bytes) : Prop :=
  o.answer .ls_info s = none ∨ o.answer .ls_info s = some [] ∨
    o.answer .ls_tar s = none ∨ (o.answer .ls_tar s = some [] ∧ file_name app = [])

/-- When a failure of `pyapp_install` behind its first command keeps the app. -/
structure NamedKeeps (before : σ) (paths : Paths) (app : Bytes) (s : σ) : Prop where
  info : ∀ word, o.answer .ls_info s = some word → word.length < 128
  tar : (∃ word, o.answer .ls_info s = some word ∧ word ≠ []) →
    ∀ word, o.answer .ls_tar s = some word → word.length < 128
  unnamed : NotNamed o s app → o.Same before s
  rejected : ∀ filename appname, NamedApp o s app filename appname →
    o.valid filename appname s = false →
      o.Same before (o.after .rm_tmp (o.after (verify_call filename appname) s))
  replaced : ∀ filename appname, NamedApp o s app filename appname →
    o.valid filename appname s = true →
      Replaced o before (o.after (verify_call filename appname) s) paths.PYUSER_APP_PATH
        paths.MAX_BUFF_LEN filename appname (FinishKeeps o before paths appname)

/-- When a failure of `pyapp_install` keeps the app. -/
structure AppKeeps (before : σ) (paths : Paths) (app : Bytes) : Prop where
  fits : (untar_cmd (asc "-xf") app).length < paths.MAX_BUFF_LEN
  failed : ¬ UntarredApp o before app →
    o.Same before (o.untarred app (untar_cmd (asc "-xf") app) before)
  named : UntarredApp o before app →
    NamedKeeps o before paths app (o.untarred app (untar_cmd (asc "-xf") app) before)

variable {o} {before s : σ} {apps filename appname pyapp dir : Bytes} {size : Nat}
  {next : Prog AppRet (Option Int)} {P : Option Int → σ → Prop} {α β : Type} {r : Option Int}

theorem comes_op {c : AppCall} {f : AppRet c → Prog AppRet (Option Int)} :
    Comes o.sem (op c >>= f) s P ↔ Comes o.sem (f (o.answer c s)) (o.effect c s) P := comes_ask

theorem kept_iff : Kept o before r s ↔ r ≠ none ∧ (r = some (-1) → o.Same before s) :=
  ⟨fun h => ⟨h.defined, h.kept⟩, fun h => ⟨h.1, h.2⟩⟩

/-- The end of a program. -/
theorem comes_none : ¬ Comes o.sem (.pure none) s (Kept o before) := fun h =>
  (comes_pure.mp h).defined rfl

theorem comes_failed : Comes o.sem (.pure (some (-1))) s (Kept o before) ↔ o.Same before s := by
  rw [comes_pure, kept_iff]
  simp

theorem comes_zero : Comes o.sem (.pure (some 0)) s (Kept o before) :=
  comes_pure.mpr ⟨Option.some_ne_none 0, fun h => absurd (Option.some.inj h) (by decide)⟩

theorem gives_make_tmp : Gives o.sem make_tmp s () (o.prepared s) := by
  refine gives_ask ?_
  rw [Outcomes.prepared]
  cases o.answer (.access pyapp_tmp) s with
  | true => exact gives_pure _ _ _
  | false => exact gives_self _ _

theorem gives_remove_old : Gives o.sem (remove_old pyapp) s () (o.removed pyapp s) := by
  refine gives_ask ?_
  rw [Outcomes.removed]
  cases o.answer (.access pyapp) s with
  | true => exact gives_self _ _
  | false => exact gives_pure _ _ _

/-- A buffer that has to be large enough. -/
theorem comes_in_buffer {text : Bytes} {next : Bytes → Prog AppRet (Option Int)} :
    Comes o.sem (in_buffer size text next) s (Kept o before) ↔
      text.length < size ∧ Comes o.sem (next text) s (Kept o before) := by
  unfold in_buffer sprintf
  by_cases h : text.length < size
  · rw [if_pos h]
    exact (and_iff_right h).symm
  · rw [if_neg h]
    exact iff_of_false comes_none fun hc => h hc.1

theorem comes_make_dir : Comes o.sem (make_dir dir next) s (Kept o before) ↔
    dir.length < 128 ∧ Comes o.sem next (o.after (.mkdir dir) s) (Kept o before) := by
  rw [make_dir, comes_in_buffer, comes_op]
  exact Iff.rfl

/-- Behind the second command of `pyapp_install_main`. -/
theorem comes_link_main : Comes o.sem (link_main appname) s (Kept o before) ↔
    (o.whole PYAPP appname s = false →
      o.Same before
        (o.after (.rm_new (snprintf 256 (asc "rm -rf " ++ PYAPP ++ asc "/" ++ appname))) s)) ∧
    (o.whole PYAPP appname s = true →
      DirsFit (PYAPP ++ asc "/data/") (PYAPP ++ asc "/log/") appname) := by
  rw [link_main, comes_op, comes_ite, Bool.not_eq_false, comes_op, comes_failed, comes_op, comes_op,
    comes_make_dir, comes_make_dir, comes_op, comes_op]
  refine and_congr Iff.rfl (imp_congr_right fun _ => and_congr_right fun _ => ?_)
  exact and_iff_left comes_zero

/-- Behind the verification, whatever follows. -/
theorem comes_replace {next : Prog AppRet (Option Int)} {rest : σ → Prop}
    (hnext : ∀ s, Comes o.sem next s (Kept o before) ↔
      (o.whole apps appname s = false →
        o.Same before
          (o.after (.rm_new (snprintf size (asc "rm -rf " ++ apps ++ asc "/" ++ appname))) s)) ∧
      (o.whole apps appname s = true → rest s)) :
    Comes o.sem (do
      remove_old (snprintf 128 (apps ++ asc "/" ++ appname))
      in_buffer size (unpack_cmd apps (tmp_file filename) appname) fun cmd => do
        let ret ← op (.unpack (tmp_file filename) appname cmd)
        if ret ≠ 0 then Prog.pure (some (-1)) else next) s (Kept o before) ↔
      Replaced o before s apps size filename appname rest := by
  rw [gives_remove_old.comes_bind, comes_in_buffer, comes_op, comes_ite, comes_failed, not_not, hnext]
  constructor
  · rintro ⟨hfits, hfailed, hnext⟩
    exact ⟨hfits, hfailed, fun h0 => (hnext h0).1, fun h0 => (hnext h0).2⟩
  · intro h
    exact ⟨h.fits, h.failed, fun h0 => ⟨h.incomplete h0, h.complete h0⟩⟩

/-- `pyapp_install_main` with an archive. -/
theorem comes_main {tar app : Bytes} :
    Comes o.sem (pyapp_install_main tar (some app)) before (Kept o before) ↔
      MainKeeps o before tar app := by
  rw [pyapp_install_main, comes_op, comes_ite, comes_op, comes_failed, gives_make_tmp.comes_bind,
    comes_in_buffer, comes_op, comes_ite, comes_failed, comes_op, comes_ite, comes_op, comes_failed,
    Bool.not_eq_false, Bool.not_eq_false, not_not]
  have hreplace : Comes o.sem (install_main (file_name app) (app_name (file_name app)))
      (o.verified app (untar_cmd tar app) (file_name app) (app_name (file_name app)) before)
      (Kept o before) ↔ _ := comes_replace fun s => comes_link_main
  constructor
  · rintro ⟨-, h⟩
    refine ⟨fun hthere => (h hthere).1, fun hthere hfailed => (h hthere).2.1 hfailed,
      fun hu hbad => ?_, fun hu hok => ?_⟩
    · exact ((h hu.there).2.2 hu.untar).1 hbad
    · exact hreplace.mp (((h hu.there).2.2 hu.untar).2 hok)
  · intro h
    refine ⟨fun _ => rfl, fun hthere => ⟨h.fits hthere, h.failed hthere, fun huntar => ?_⟩⟩
    exact ⟨h.rejected ⟨hthere, huntar⟩, fun hok => hreplace.mpr (h.replaced ⟨hthere, huntar⟩ hok)⟩

/-- Behind the second command of `pyapp_install`. -/
theorem comes_link_app {paths : Paths} : Comes o.sem (link_app paths appname) s (Kept o before) ↔
    (o.whole paths.PYUSER_APP_PATH appname s = false →
      o.Same before (o.after (.rm_new (snprintf paths.MAX_BUFF_LEN
        (asc "rm -rf " ++ paths.PYUSER_APP_PATH ++ asc "/" ++ appname))) s)) ∧
    (o.whole paths.PYUSER_APP_PATH appname s = true → FinishKeeps o before paths appname s) := by
  rw [link_app, comes_op, comes_ite, Bool.not_eq_false, comes_op, comes_failed, comes_op, comes_op,
    comes_op, finish_install, comes_op, comes_op, comes_ite, comes_failed, comes_make_dir,
    comes_make_dir, comes_op, comes_op, not_not]
  refine and_congr Iff.rfl (imp_congr_right fun _ => and_congr Iff.rfl ?_)
  exact imp_congr_right fun _ => and_congr_right fun _ => and_iff_left comes_zero

theorem comes_verify_app {paths : Paths} :
    Comes o.sem (verify_app paths filename appname) s (Kept o before) ↔
      (o.valid filename appname s = false →
        o.Same before (o.after .rm_tmp (o.after (verify_call filename appname) s))) ∧
      (o.valid filename appname s = true →
        Replaced o before (o.after (verify_call filename appname) s) paths.PYUSER_APP_PATH
          paths.MAX_BUFF_LEN filename appname (FinishKeeps o before paths appname)) := by
  rw [verify_app, comes_op, comes_ite, Bool.not_eq_false, comes_op, comes_failed, install_app, comes_op]
  exact and_congr Iff.rfl (imp_congr_right fun _ => comes_replace fun s => comes_link_app)

theorem comes_scan_word {word old : Bytes} {next : Bytes → Prog AppRet (Option Int)} :
    Comes o.sem (scan_word word old next) s (Kept o before) ↔
      word.length < 128 ∧ Comes o.sem (next (if word = [] then old else word)) s (Kept o before) := by
  rw [scan_word]
  by_cases h : word = []
  · rw [if_pos h, if_pos h, h]
    exact (and_iff_right (by decide)).symm
  · rw [if_neg h, if_neg h, comes_in_buffer]

/-- From the names on. -/
theorem comes_find_file {paths : Paths} {old : Bytes} :
    Comes o.sem (find_file paths old appname) s (Kept o before) ↔
      (o.answer .ls_tar s = none → o.Same before s) ∧
      ∀ word, o.answer .ls_tar s = some word → word.length < 128 ∧
        ((if word = [] then old else word) = [] → o.Same before s) ∧
        ((if word = [] then old else word) ≠ [] →
          Comes o.sem (verify_app paths (if word = [] then old else word) appname) s
            (Kept o before)) := by
  have hsame : o.effect .ls_tar s = s := rfl
  rw [find_file, comes_op, hsame]
  cases htar : o.answer .ls_tar s with
  | none => exact comes_failed.trans ⟨fun h => ⟨fun _ => h, nofun⟩, fun h => h.1 rfl⟩
  | some word =>
    have hword : Comes o.sem (scan_word word old fun filename =>
        if filename = [] then Prog.pure (some (-1)) else verify_app paths filename appname) s
        (Kept o before) ↔ _ := comes_scan_word.trans (and_congr_right fun _ => comes_ite)
    rw [comes_failed] at hword
    refine hword.trans ⟨fun h => ⟨nofun, ?_⟩, fun h => h.2 word rfl⟩
    rintro _ ⟨⟩
    exact h

/-- From the name of the app on. -/
theorem comes_find_app {paths : Paths} {old : Bytes} :
    Comes o.sem (find_app paths old) s (Kept o before) ↔
      (o.answer .ls_info s = none → o.Same before s) ∧
      ∀ word, o.answer .ls_info s = some word →
        word.length < 128 ∧ (word = [] → o.Same before s) ∧
        (word ≠ [] → Comes o.sem (find_file paths old word) s (Kept o before)) := by
  have hsame : o.effect .ls_info s = s := rfl
  rw [find_app, comes_op, hsame]
  cases hinfo : o.answer .ls_info s with
  | none => exact comes_failed.trans ⟨fun h => ⟨fun _ => h, nofun⟩, fun h => h.1 rfl⟩
  | some word =>
    have hword : Comes o.sem (scan_word word [] fun appname =>
        if appname = [] then Prog.pure (some (-1)) else find_file paths old appname) s
        (Kept o before) ↔ _ := comes_scan_word.trans (and_congr_right fun _ => comes_ite)
    rw [comes_failed] at hword
    have hsame : (if word = [] then [] else word) = word := by
      by_cases h : word = [] <;> simp [h]
    rw [hsame] at hword
    refine hword.trans ⟨fun h => ⟨nofun, ?_⟩, fun h => h.2 word rfl⟩
    rintro _ ⟨⟩
    exact h

theorem comes_named {paths : Paths} {app : Bytes} :
    Comes o.sem (find_app paths (file_name app)) s (Kept o before) ↔
      NamedKeeps o before paths app s := by
  rw [comes_find_app]
  constructor
  · intro h
    have hfile : ∀ filename appname, NamedApp o s app filename appname →
        Comes o.sem (verify_app paths filename appname) s (Kept o before) := by
      intro filename appname hn
      obtain ⟨word, hword, rfl⟩ := hn.tar
      have h2 := comes_find_file.mp ((h.2 appname hn.info).2.2 hn.name)
      exact (h2.2 word hword).2.2 hn.file
    refine ⟨fun word hword => (h.2 word hword).1, ?_, ?_,
      fun filename appname hn => (comes_verify_app.mp (hfile filename appname hn)).1,
      fun filename appname hn => (comes_verify_app.mp (hfile filename appname hn)).2⟩
    · rintro ⟨name, hname, hne⟩ word hword
      exact ((comes_find_file.mp ((h.2 name hname).2.2 hne)).2 word hword).1
    · intro hnot
      cases hinfo : o.answer .ls_info s with
      | none => exact h.1 hinfo
      | some name =>
        by_cases hname : name = []
        · exact (h.2 name hinfo).2.1 hname
        have h2 := comes_find_file.mp ((h.2 name hinfo).2.2 hname)
        rcases hnot with hnone | hnil | hnone | ⟨hnil, happ⟩
        · exact absurd (hinfo.symm.trans hnone) (Option.some_ne_none name)
        · exact absurd (Option.some.inj (hinfo.symm.trans hnil)) hname
        · exact h2.1 hnone
        · exact (h2.2 [] hnil).2.1 happ
  · intro h
    refine ⟨fun hnone => h.unnamed (.inl hnone), fun name hname => ?_⟩
    refine ⟨h.info name hname, fun hnil => h.unnamed (.inr (.inl (hnil ▸ hname))),
      fun hne => comes_find_file.mpr ⟨fun hnone => h.unnamed (.inr (.inr (.inl hnone))), ?_⟩⟩
    intro word hword
    refine ⟨h.tar ⟨name, hname, hne⟩ word hword, fun hnil => ?_, fun hfile => ?_⟩
    · by_cases hw : word = []
      · rw [if_pos hw] at hnil
        exact h.unnamed (.inr (.inr (.inr ⟨hw ▸ hword, hnil⟩)))
      · rw [if_neg hw] at hnil
        exact absurd hnil hw
    · have hn : NamedApp o s app _ name := ⟨hname, hne, ⟨word, hword, rfl⟩, hfile⟩
      exact comes_verify_app.mpr ⟨h.rejected _ _ hn, h.replaced _ _ hn⟩

/-- `pyapp_install` with an archive. -/
theorem comes_app {paths : Paths} {app : Bytes} (happ : app ≠ []) :
    Comes o.sem (pyapp_install paths (some app)) before (Kept o before) ↔
      AppKeeps o before paths app := by
  have huntarred : o.effect (.untar app (untar_cmd (asc "-xf") app)) (o.prepared before) =
      o.untarred app (untar_cmd (asc "-xf") app) before := rfl
  rw [pyapp_install, if_neg happ, gives_make_tmp.comes_bind, comes_in_buffer, comes_op, comes_ite,
    comes_failed, not_not, huntarred, comes_named]
  exact ⟨fun h => ⟨h.1, h.2.1, h.2.2⟩, fun h => ⟨h.fits, h.failed, h.named⟩⟩

end Outcomes

/-- **A failed installation.**  It keeps the app exactly when the texts fit into their buffers and no
step fails behind the verification, or the one that does leaves what was there before. -/
theorem install_keeps_iff {σ τ : Type} (o : Outcomes σ τ) (before : σ) :
    (∀ (tar : Bytes) (argv1 : Option Bytes),
        Comes o.sem (pyapp_install_main tar argv1) before (Kept o before) ↔
          ∀ app, argv1 = some app → MainKeeps o before tar app) ∧
      ∀ (paths : Paths) (app : Option Bytes),
        Comes o.sem (pyapp_install paths app) before (Kept o before) ↔
          ∀ archive, app = some archive → archive ≠ [] → AppKeeps o before paths archive := by
  refine ⟨fun tar argv1 => ?_, fun paths app => ?_⟩
  · cases argv1 with
    | none =>
      refine iff_of_true ?_ fun app happ => nomatch happ
      rw [pyapp_install_main, comes_op, comes_failed]
      rfl
    | some app =>
      rw [comes_main]
      exact ⟨fun h a ha => Option.some.inj ha ▸ h, fun h => h app rfl⟩
  · cases app with
    | none => exact iff_of_true (comes_failed.mpr rfl) fun archive h => nomatch h
    | some archive =>
      by_cases hne : archive = []
      · refine iff_of_true ?_ fun a ha hne' => absurd ((Option.some.inj ha).symm.trans hne) hne'
        rw [pyapp_install, if_pos hne]
        exact comes_failed.mpr rfl
      · rw [comes_app hne]
        exact ⟨fun h a ha _ => Option.some.inj ha ▸ h, fun h => h archive rfl hne⟩

/-- There is no space to unpack the app, and the old version, 1, is gone.  The status of the second
command is that of its `rm`, a success, but the program is not there. -/
def full : Outcomes (Option Nat) (Option Nat) where
  answer
    | .access path, _ => path ≠ asc "/var/app/camera/src/main.pyc"
    | .mkdir _, _ => ()
    | .untar _ _, _ => 0
    | .ls_info, _ => some (asc "camera")
    | .ls_tar, _ => some (asc "camera.tar.gz")
    | .verify _ _, _ => true
    | .rm_tmp, _ => ()
    | .rm_old _, _ => ()
    | .unpack _ _ _, _ => 0
    | .rm_new _, _ => ()
    | .remove _, _ => ()
    | .symlink _ _, _ => ()
    | .chmod _, _ => ()
    | .copy_lib _, _ => 0
    | .sync, _ => ()
    | .printf _, _ => ()
  after
    | .rm_old _, _ => none
    | .rm_new _, _ => none
    | _, s => s
  view s := s

/-- A failed update takes the app with it. -/
theorem app_lost_by_update :
    ¬ ∀ (o : Outcomes (Option Nat) (Option Nat)) (before : Option Nat),
      (∀ (tar : Bytes) (argv1 : Option Bytes),
        Comes o.sem (pyapp_install_main tar argv1) before (Kept o before)) ∧
      ∀ (paths : Paths) (app : Option Bytes),
        Comes o.sem (pyapp_install paths app) before (Kept o before) := by
  intro hall
  have h := (hall full (some 1)).1 (asc "-xf") (some (asc "/tmp/camera.tar.gz"))
  have hkeeps : MainKeeps full (some 1) (asc "-xf") (asc "/tmp/camera.tar.gz") := comes_main.mp h
  have hlost : (none : Option Nat) = some 1 :=
    (hkeeps.replaced ⟨by decide, rfl⟩ rfl).incomplete rfl (by decide)
  cases hlost

end Boxing.Pyapp
