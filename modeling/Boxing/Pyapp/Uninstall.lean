import Boxing.Unix.Shell

/-!
# Uninstalling an app

Both programs put the name behind each of their directories and remove what is there: with
`rm -rf` by way of a shell, and the link to the program with `remove`.  The name is not looked
at; the younger one refuses the empty name.

What goes is to be the entry of that name in one of the directories.  `frames_iff` says for
which names this is so: the texts fit; the shell parts them at blanks at most; and every
operand is one that `rm` refuses, or is the directory and the whole name, which is a single
one behind dots and is none of the directories.
-/

namespace Boxing.Pyapp

open C Unix

/-- A directory, as the macros name it. -/
structure Dir where
  path : Bytes
  head : path.head? = some 47
  chars : ∀ c ∈ path, c ∉ special ∧ isBlank c = false
  ne : names path ≠ []
  straight : ∀ d ∈ names path, d ≠ dot ∧ d ≠ dotdot

/-- What the programs call. -/
inductive Action
  | system (cmd : Bytes)
  | remove (filename : Bytes)

/-- The text in the buffer. -/
def Action.text : Action → Bytes
  | system cmd => cmd
  | remove filename => filename

/-! ### The programs -/

def PYAPP_PATH : Dir :=
  ⟨asc "/var/app", by decide, chars_iff_all.mp (by decide), by decide, by decide⟩

def PYAPP_BIN : Dir :=
  ⟨asc "/var/app/bin", by decide, chars_iff_all.mp (by decide), by decide, by decide⟩

def PYAPP_CFG : Dir :=
  ⟨asc "/var/app/cfg", by decide, chars_iff_all.mp (by decide), by decide, by decide⟩

def PYAPP_DATA_PATH : Dir :=
  ⟨asc "/var/app/data", by decide, chars_iff_all.mp (by decide), by decide, by decide⟩

def PYAPP_LOG_PATH : Dir :=
  ⟨asc "/var/app/log", by decide, chars_iff_all.mp (by decide), by decide, by decide⟩

/-- `pyapp_uninstall_main`, with `argv[1]` if there is one. -/
def pyapp_uninstall_main (argv1 : Option Bytes) : Int × List Action :=
  match argv1 with
  | none => (-1, [])
  | some app => (0,
    [.system (asc "rm -rf " ++ PYAPP_PATH.path ++ asc "/" ++ app),
      .remove (PYAPP_BIN.path ++ asc "/" ++ app),
      .system (asc "rm -rf " ++ PYAPP_CFG.path ++ asc "/" ++ app),
      .system (asc "rm -rf " ++ PYAPP_DATA_PATH.path ++ asc "/" ++ app),
      .system (asc "rm -rf " ++ PYAPP_LOG_PATH.path ++ asc "/" ++ app)])

/-- The directories of the younger program. -/
structure Home where
  PYUSER_APP_PATH : Dir
  PYUSER_BIN_PATH : Dir
  PYUSER_CFG_PATH : Dir
  PYUSER_DATA_PATH : Dir
  PYUSER_DBHOME_PATH : Dir
  PYUSER_LOG_PATH : Dir

/-- `pyapp_uninstall`. -/
def pyapp_uninstall (home : Home) (app : Option Bytes) : Int × List Action :=
  match app with
  | none => (-1, [])
  | some app =>
    if app = [] then (-1, [])
    else (0,
      [.system (asc "rm -rf " ++ home.PYUSER_APP_PATH.path ++ asc "/" ++ app),
        .remove (home.PYUSER_BIN_PATH.path ++ asc "/" ++ app),
        .remove (home.PYUSER_APP_PATH.path ++ asc "/bin/" ++ app),
        .system (asc "rm -rf " ++ home.PYUSER_CFG_PATH.path ++ asc "/" ++ app),
        .system (asc "rm -rf " ++ home.PYUSER_DATA_PATH.path ++ asc "/" ++ app),
        .system (asc "rm -rf " ++ home.PYUSER_DBHOME_PATH.path ++ asc "/" ++ app),
        .system (asc "rm -rf " ++ home.PYUSER_LOG_PATH.path ++ asc "/" ++ app)])

/-- What an action may do to the files. -/
def Does (cwd : Path) : Action → Fs → Fs → Prop
  | .system cmd => ShellRm cwd cmd
  | .remove filename => Rm false cwd filename

/-- The actions, one after the other; `none` when a text does not fit into its buffer. -/
inductive Runs (cwd : Path) : List Action → Fs → Option Fs → Prop
  | done (fs : Fs) : Runs cwd [] fs (some fs)
  | overflow {a : Action} {rest : List Action} {fs : Fs} (h : 128 ≤ a.text.length) :
      Runs cwd (a :: rest) fs none
  | step {a : Action} {rest : List Action} {fs fs' : Fs} {o : Option Fs} (h : a.text.length < 128)
      (hdoes : Does cwd a fs fs') (hrest : Runs cwd rest fs' o) : Runs cwd (a :: rest) fs o

/-! ### What may go -/

/-- The argument is the name of an entry, behind dots and slashes. -/
def Named (app name : Bytes) : Prop := (names app).filter (· ≠ dot) = [name] ∧ name ≠ dotdot

/-- A path at or below an entry of that name, and none of the directories. -/
def Entries (dirs : List Dir) (app : Bytes) (p : Path) : Prop :=
  (∃ d ∈ dirs, ∃ name, Named app name ∧ names d.path ++ [name] <+: p) ∧
    ∀ d ∈ dirs, p ≠ names d.path

/-- The directories are not reached by links. -/
def Unlinked (dirs : List Dir) (fs : Fs) : Prop :=
  ∀ d ∈ dirs, ∀ p, p <+: names d.path → ∀ target, fs p ≠ some (.link target)

/-- Every run comes to its end, and nothing but such entries is gone. -/
def Frames (dirs : List Dir) (app : Bytes) (actions : List Action) : Prop :=
  ∀ cwd fs o, Unlinked dirs fs → Runs cwd actions fs o →
    ∃ fs', o = some fs' ∧ Lost (Entries dirs app) fs fs'

/-- A directory, and whether what is in it goes with `rm -rf`. -/
structure Place where
  deep : Bool
  dir : Dir

/-- Its action. -/
def Place.action (app : Bytes) (s : Place) : Action :=
  match s.deep with
  | true => .system (asc "rm -rf " ++ s.dir.path ++ asc "/" ++ app)
  | false => .remove (s.dir.path ++ asc "/" ++ app)

/-- The directory and the name. -/
def Place.whole (app : Bytes) (s : Place) : Bytes := s.dir.path ++ 47 :: app

/-- The operands. -/
def Place.targets (app : Bytes) (s : Place) : List Bytes :=
  match s.deep with
  | true => words (s.whole app)
  | false => [s.whole app]

/-- An operand that does no harm. -/
def Harmless (places : List Place) (app : Bytes) (s : Place) (operand : Bytes) : Prop :=
  Refused operand ∨ operand = s.whole app ∧ ∃ name, Named app name ∧
    (∀ s' ∈ places, ¬ Reach s.deep (names s.dir.path ++ [name]) (names s'.dir.path)) ∧
    (app.getLast? ≠ some 47 ∨ ∃ s' ∈ places, names s.dir.path ++ [name] <+: names s'.dir.path)

/-- A name that does no harm. -/
structure Safe (places : List Place) (app : Bytes) : Prop where
  fits : ∀ s ∈ places, (s.action app).text.length < 128
  plain : ∀ s ∈ places, s.deep = true → Plain (s.action app).text
  harmless : ∀ s ∈ places, ∀ operand ∈ s.targets app, Harmless places app s operand

section Steps

variable {cwd : Path} {fs fs' : Fs} {places : List Place} {dirs : List Dir} {app name operand : Bytes}
  {s : Place} {o : Option Fs} {actions : List Action} {a : Action}

theorem names_whole (app : Bytes) (s : Place) : names (s.whole app) = names s.dir.path ++ names app :=
  names_append _ _

theorem origin_whole (cwd : Path) (app : Bytes) (s : Place) : origin cwd (s.whole app) = [] := by
  refine if_pos ?_
  rw [Place.whole, List.head?_append, s.dir.head]
  rfl

theorem slash : asc "/" = [47] := by decide

theorem action_remove (app : Bytes) (hs : s.deep = false) : s.action app = .remove (s.whole app) := by
  obtain ⟨deep, dir⟩ := s
  obtain rfl : deep = false := hs
  simp only [Place.action, Place.whole, slash, List.append_assoc, List.cons_append, List.nil_append]

/-- The operands of `rm -rf` are the words of the path name. -/
theorem operands_rm (app : Bytes) (s : Place) (hs : s.deep = true) :
    operands (s.action app).text = words (s.whole app) := by
  obtain ⟨deep, dir⟩ := s
  obtain rfl : deep = true := hs
  have htext : (Place.action app ⟨true, dir⟩).text
      = asc "rm" ++ 32 :: (asc "-rf" ++ 32 :: Place.whole app ⟨true, dir⟩) := by
    have hrm : asc "rm -rf " = asc "rm" ++ 32 :: (asc "-rf" ++ [32]) := by decide
    simp only [Place.action, Action.text, Place.whole, hrm, slash, List.append_assoc, List.cons_append,
      List.nil_append]
  rw [operands, htext, words_append, words_append]
  rfl

theorem parts_whole (happ : app ≠ []) (s : Place) :
    parts (s.whole app) = names s.dir.path ++ parts app := by
  rw [parts, parts, names_whole, List.append_assoc, Place.whole,
    List.getLast?_append_of_ne_nil _ (List.cons_ne_nil _ _), List.getLast?_cons_of_ne_nil happ]

theorem Named.ne_nil (h : Named app name) : app ≠ [] := by
  rintro rfl
  exact absurd h.1 (by simp [names])

theorem Named.mem (h : Named app name) : name ∈ names app ∧ name ≠ dot := by
  have := List.mem_filter.mp (h.1 ▸ List.mem_singleton_self name)
  exact ⟨this.1, by simpa using this.2⟩

/-- The name stands behind dots, unless it is refused. -/
theorem Named.eq_append (h : Named app name) (hr : ¬ Refused (s.whole app)) :
    ∃ ds, names app = ds ++ [name] ∧ ∀ d ∈ ds, d = dot := by
  refine eq_dots_append h.1 fun hlast => hr (Or.inr (Or.inl ?_))
  rw [names_whole, List.getLast?_append_of_ne_nil _ (List.ne_nil_of_mem h.mem.1), hlast]

theorem Unlinked.lost {P : Path → Prop} (h : Unlinked dirs fs) (hlost : Lost P fs fs') :
    Unlinked dirs fs' := fun d hd p hp target hnode => h d hd p hp target (hlost.node hnode)

/-- The directory and a single name lead to the entry of that name. -/
theorem resolve_whole {q : Path} (hs : s.dir ∈ dirs) (hl : Unlinked dirs fs) (hname : Named app name)
    (hr : ¬ Refused (s.whole app))
    (hlast : app.getLast? ≠ some 47 ∨ ∀ target, fs (names s.dir.path ++ [name]) ≠ some (.link target))
    (hq : resolve fs cwd (s.whole app) = some q) : q = names s.dir.path ++ [name] := by
  obtain ⟨ds, hds, hdots⟩ := hname.eq_append hr
  have htail : (if app.getLast? = some 47 then [dot] else []) = ([] : List Bytes) ∨
      (if app.getLast? = some 47 then [dot] else []) = [dot] ∧
        ∀ target, fs (names s.dir.path ++ [name]) ≠ some (.link target) := by
    split
    · rename_i h
      exact Or.inr ⟨rfl, hlast.resolve_left (not_not.mpr h)⟩
    · exact Or.inl rfl
  rw [resolve, origin_whole, parts_whole hname.ne_nil, parts, hds] at hq
  have hwalk := walk_append s.dir.straight (by simp) (fun p hp => hl s.dir hs p hp) hq
  rw [List.nil_append, List.append_assoc, walk_dots _ _ _ hdots] at hwalk
  exact walk_last hname.mem.2 hname.2 htail hwalk

/-- An operand that does no harm takes entries only. -/
theorem Harmless.lost (h : Harmless places app s operand) (hs : s ∈ places)
    (hl : Unlinked (places.map Place.dir) fs) (hrm : Rm s.deep cwd operand fs fs') :
    Lost (Entries (places.map Place.dir) app) fs fs' := by
  rcases hrm with rfl | ⟨hr, q, hq, -, hlost⟩
  · exact Lost.refl _ _
  rcases h with h | ⟨rfl, name, hname, hclear, hlast⟩
  · exact absurd h hr
  have hdir : s.dir ∈ places.map Place.dir := List.mem_map_of_mem hs
  have hnolink : app.getLast? ≠ some 47 ∨
      ∀ target, fs (names s.dir.path ++ [name]) ≠ some (.link target) := by
    refine hlast.imp_right fun ⟨s', hs', hp⟩ target => ?_
    exact hl s'.dir (List.mem_map_of_mem hs') _ hp target
  obtain rfl := resolve_whole hdir hl hname hr hnolink hq
  refine hlost.mono fun p hp => ⟨⟨s.dir, hdir, name, hname, ?_⟩, ?_⟩
  · exact hp.below
  · intro d hd
    rintro rfl
    obtain ⟨s', hs', rfl⟩ := List.mem_map.mp hd
    exact hclear s' hs' hp

/-- One action. -/
theorem Does.lost (h : Safe places app) (hs : s ∈ places) (hl : Unlinked (places.map Place.dir) fs)
    (hdoes : Does cwd (s.action app) fs fs') : Lost (Entries (places.map Place.dir) app) fs fs' := by
  have hharm := h.harmless s hs
  have hplain := h.plain s hs
  obtain ⟨deep, dir⟩ := s
  cases deep with
  | false =>
    rw [action_remove app rfl] at hdoes
    exact (hharm _ (List.mem_singleton_self _)).lost hs hl hdoes
  | true =>
    have hall : RmAll cwd (words (Place.whole app ⟨true, dir⟩)) fs fs' :=
      operands_rm app ⟨true, dir⟩ rfl ▸ hdoes (hplain rfl)
    have hharm' : ∀ operand ∈ words (Place.whole app ⟨true, dir⟩),
        Harmless places app ⟨true, dir⟩ operand := hharm
    clear hdoes hharm hplain
    generalize words (Place.whole app ⟨true, dir⟩) = rest at hall hharm'
    induction rest generalizing fs with
    | nil =>
      obtain rfl : fs' = fs := hall
      exact Lost.refl _ _
    | cons operand rest ih =>
      obtain ⟨fs₁, hrm, hrest⟩ := hall
      have hfirst := (hharm' operand List.mem_cons_self).lost hs hl hrm
      exact hfirst.trans (ih (hl.lost hfirst) hrest fun operand ho =>
        hharm' operand (List.mem_cons_of_mem _ ho))

/-- **A safe name**: whatever happens, the other files are still there. -/
theorem Safe.runs (h : Safe places app) {rest : List Place} (hrest : ∀ s ∈ rest, s ∈ places)
    (hl : Unlinked (places.map Place.dir) fs) (hrun : Runs cwd (rest.map (Place.action app)) fs o) :
    ∃ fs', o = some fs' ∧ Lost (Entries (places.map Place.dir) app) fs fs' := by
  induction rest generalizing fs with
  | nil =>
    cases hrun
    exact ⟨fs, rfl, Lost.refl _ _⟩
  | cons s rest ih =>
    have hs := hrest s List.mem_cons_self
    cases hrun with
    | overflow hlen => exact absurd (h.fits s hs) (Nat.not_lt.mpr hlen)
    | step _ hdoes hnext =>
      have hfirst := Does.lost h hs hl hdoes
      obtain ⟨fs', ho, hlost⟩ :=
        ih (fun s' hs' => hrest s' (List.mem_cons_of_mem _ hs')) (hl.lost hfirst) hnext
      exact ⟨fs', ho, hfirst.trans hlost⟩

/-! ### A name that is not safe -/

/-- Directories everywhere. -/
def dirs_only : Fs := fun _ => some .dir

theorem unlinked_dirs_only (dirs : List Dir) : Unlinked dirs dirs_only :=
  fun _ _ _ _ _ h => Node.noConfusion (Option.some.inj h)

theorem Does.refl (cwd : Path) (a : Action) (fs : Fs) : Does cwd a fs fs := by
  cases a with
  | system cmd => exact fun _ => RmAll.refl _ _ _
  | remove filename => exact Or.inl rfl

/-- The actions that are left do nothing, or one of them does not fit. -/
theorem exists_runs (cwd : Path) (actions : List Action) (fs : Fs) :
    Runs cwd actions fs none ∨ Runs cwd actions fs (some fs) := by
  induction actions with
  | nil => exact Or.inr (.done fs)
  | cons a rest ih =>
    rcases Nat.lt_or_ge a.text.length 128 with hlt | hge
    · exact ih.imp (.step hlt (Does.refl cwd a fs)) (.step hlt (Does.refl cwd a fs))
    · exact Or.inl (.overflow hge)

/-- One action does its work, and the others do nothing. -/
theorem exists_runs_of_does (ha : a ∈ actions) (hdoes : Does cwd a fs fs') :
    Runs cwd actions fs none ∨ Runs cwd actions fs (some fs') := by
  induction actions with
  | nil => cases ha
  | cons b rest ih =>
    rcases Nat.lt_or_ge b.text.length 128 with hlt | hge
    · rcases List.mem_cons.mp ha with rfl | ha
      · exact (exists_runs cwd rest fs').imp (.step hlt hdoes) (.step hlt hdoes)
      · exact (ih ha).imp (.step hlt (Does.refl cwd b fs)) (.step hlt (Does.refl cwd b fs))
    · exact Or.inl (.overflow hge)

theorem runs_none_of_length (ha : a ∈ actions) (hlen : 128 ≤ a.text.length) :
    Runs cwd actions fs none := by
  induction actions with
  | nil => cases ha
  | cons b rest ih =>
    rcases Nat.lt_or_ge b.text.length 128 with hlt | hge
    · rcases List.mem_cons.mp ha with rfl | ha
      · exact absurd hlt (Nat.not_lt.mpr hlen)
      · exact .step hlt (Does.refl cwd b fs) (ih ha)
    · exact .overflow hge

/-- What an action does is allowed. -/
theorem Frames.does (h : Frames dirs app actions) (ha : a ∈ actions) (hl : Unlinked dirs fs)
    (hdoes : Does cwd a fs fs') : Lost (Entries dirs app) fs fs' := by
  rcases exists_runs_of_does ha hdoes with hrun | hrun
  · obtain ⟨_, ho, -⟩ := h _ _ _ hl hrun
    cases ho
  · obtain ⟨_, ho, hlost⟩ := h _ _ _ hl hrun
    cases ho
    exact hlost

/-- A target can be removed by the action. -/
theorem does_of_rm (hplain : s.deep = true → Plain (s.action app).text)
    (ho : operand ∈ s.targets app) (hrm : Rm s.deep cwd operand fs fs') :
    Does cwd (s.action app) fs fs' := by
  obtain ⟨deep, dir⟩ := s
  cases deep with
  | false =>
    rw [action_remove app rfl, ← List.mem_singleton.mp ho]
    exact hrm
  | true =>
    intro _
    refine rmAll_of_mem ?_ hrm
    have hops : operands (Place.action app ⟨true, dir⟩).text = words (Place.whole app ⟨true, dir⟩) :=
      operands_rm app ⟨true, dir⟩ rfl
    exact hops ▸ ho

/-- A word of the path name is all of it if it leads to an entry: a blank in the name would be
in its path. -/
theorem eq_whole (ho : operand ∈ s.targets app) (hname : Named app name)
    (hmem : name ∈ go [] (parts operand)) : operand = s.whole app := by
  obtain ⟨deep, dir⟩ := s
  cases deep with
  | false => exact List.mem_singleton.mp ho
  | true =>
    have hword : operand ∈ words (Place.whole app ⟨true, dir⟩) := ho
    have hclean : ∀ c ∈ Place.whole app ⟨true, dir⟩, isBlank c = false := by
      intro c hc
      rw [← Bool.not_eq_true]
      intro hblank
      have h47 : c ≠ 47 := by
        rintro rfl
        exact absurd hblank (by decide)
      have hcapp : c ∈ app := by
        rcases List.mem_append.mp hc with hc | hc
        · exact absurd ((dir.chars c hc).2.symm.trans hblank) (by decide)
        · exact (List.mem_cons.mp hc).resolve_left h47
      obtain ⟨part, hpart, hcpart⟩ := exists_mem_names hcapp h47
      have hdot : part ≠ dot := by
        rintro rfl
        obtain rfl := List.mem_singleton.mp hcpart
        exact absurd hblank (by decide)
      have hfilter : part ∈ (names app).filter (· ≠ dot) :=
        List.mem_filter.mpr ⟨hpart, by simpa using hdot⟩
      rw [hname.1] at hfilter
      obtain rfl := List.mem_singleton.mp hfilter
      rw [go_parts] at hmem
      rcases mem_go hmem with hmem | hmem
      · cases hmem
      · exact absurd ((not_isBlank_of_mem_words hword (mem_of_mem_names hmem hcpart)).symm.trans hblank)
          (by decide)
    have hne : Place.whole app ⟨true, dir⟩ ≠ [] :=
      List.append_ne_nil_of_right_ne_nil _ (List.cons_ne_nil _ _)
    rw [words_eq_singleton hclean hne] at hword
    exact List.mem_singleton.mp hword

/-- Where it leads, when there are directories everywhere. -/
theorem go_whole (hname : Named app name) (s : Place) :
    go [] (parts (s.whole app)) = names s.dir.path ++ [name] := by
  have hplain : ∀ d ∈ [name], d ≠ dot ∧ d ≠ dotdot := fun d hd =>
    List.mem_singleton.mp hd ▸ ⟨hname.mem.2, hname.2⟩
  rw [go_parts, names_whole, go_append, go_plain s.dir.straight, List.nil_append, go_filter, hname.1,
    go_plain hplain]

/-- A link in the place of an entry, to a directory by the root. -/
def linked (p : Path) : Fs := fun p' => if p' = p then some (.link (asc "/x")) else some .dir

theorem resolve_linked (hname : Named app name) (hr : ¬ Refused (s.whole app))
    (hlast : app.getLast? = some 47) :
    resolve (linked (names s.dir.path ++ [name])) [] (s.whole app) = some [asc "x"] := by
  obtain ⟨ds, hds, hdots⟩ := hname.eq_append hr
  have hdir : ∀ p, p.length ≠ (names s.dir.path ++ [name]).length →
      linked (names s.dir.path ++ [name]) p = some .dir := by
    intro p hp
    refine if_neg ?_
    rintro rfl
    exact hp rfl
  have hlen : 1 < (names s.dir.path ++ [name]).length := by
    have := List.length_pos_iff.mpr s.dir.ne
    rw [List.length_append, List.length_singleton]
    omega
  have hway : ∀ p, p <+: names s.dir.path → p ≠ [] →
      linked (names s.dir.path ++ [name]) ([] ++ p) = some .dir := by
    intro p hp _
    have := hp.length_le
    exact hdir p (by rw [List.length_append, List.length_singleton]; omega)
  have hlink : linked (names s.dir.path ++ [name]) (names s.dir.path ++ [name])
      = some (.link (asc "/x")) := if_pos rfl
  have hx : ∀ p, p <+: [asc "x"] → p ≠ [] →
      linked (names s.dir.path ++ [name]) ([] ++ p) = some .dir := by
    intro p hp _
    have hle : p.length ≤ 1 := hp.length_le
    exact hdir p (by omega)
  rw [resolve, origin_whole, parts_whole hname.ne_nil, parts, if_pos hlast, hds,
    walk_through s.dir.straight hway, List.nil_append, List.append_assoc, walk_dots _ _ _ hdots,
    List.singleton_append, Unix.walk, if_neg hname.mem.2, if_neg hname.2, hlink]
  dsimp only
  rw [if_neg (List.cons_ne_nil _ _)]
  show Unix.walk _ 39 [] ([asc "x"] ++ [dot]) = _
  rw [walk_through (by decide) hx, walk_dot, walk_nil]
  rfl

/-- A directory is reached without the link. -/
theorem unlinked_linked {p : Path} (hfree : ∀ d ∈ dirs, ¬ p <+: names d.path) :
    Unlinked dirs (linked p) := by
  intro d hd p' hp target hnode
  unfold linked at hnode
  split at hnode
  · rename_i hpath
    exact hfree d hd (hpath ▸ hp)
  · cases hnode

/-- Every path that is gone is at or below an entry. -/
theorem entries_of_lost {p : Path} {node : Node} (h : Lost (Entries dirs app) fs fs')
    (hnode : fs p = some node) (hgone : fs' p = none) : Entries dirs app p := by
  rcases h p with heq | ⟨-, hentry⟩
  · rw [hnode, hgone] at heq
    cases heq
  · exact hentry

section Frames

variable (h : Frames (places.map Place.dir) app (places.map (Place.action app)))
include h

/-- The text of a safe removal is for the shell nothing but words. -/
theorem Frames.plain (hs : s ∈ places) (hdeep : s.deep = true) : Plain (s.action app).text := by
  by_contra hnot
  have hdoes : Does [] (s.action app) dirs_only fun _ => none := by
    obtain ⟨deep, dir⟩ := s
    obtain rfl : deep = true := hdeep
    exact fun hp => absurd hp hnot
  have hlost := h.does (List.mem_map_of_mem hs) (unlinked_dirs_only _) hdoes
  obtain ⟨⟨d, -, name, -, hpre⟩, -⟩ := entries_of_lost hlost (p := []) rfl rfl
  exact List.append_ne_nil_of_right_ne_nil _ (List.cons_ne_nil _ _) (List.prefix_nil.mp hpre)

/-- Whatever it reaches is at or below an entry. -/
theorem Frames.entries {p : Path} (hs : s ∈ places) (ho : operand ∈ s.targets app)
    (hr : ¬ Refused operand) (hp : Reach s.deep (go [] (parts operand)) p) :
    Entries (places.map Place.dir) app p := by
  have horigin : origin [] operand = [] := ite_self []
  have hlost := h.does (List.mem_map_of_mem hs) (unlinked_dirs_only _)
    (does_of_rm (h.plain hs) ho (rm_dirs s.deep [] hr))
  rw [horigin] at hlost
  exact entries_of_lost hlost rfl (if_pos hp)

/-- A link in the place of the entry is not followed, unless a directory is behind it. -/
theorem Frames.getLast_ne (hs : s ∈ places) (ho : s.whole app ∈ s.targets app)
    (hr : ¬ Refused (s.whole app)) (hname : Named app name)
    (hfree : ∀ s' ∈ places, ¬ names s.dir.path ++ [name] <+: names s'.dir.path) :
    app.getLast? ≠ some 47 := by
  intro hlast
  have hl : Unlinked (places.map Place.dir) (linked (names s.dir.path ++ [name])) :=
    unlinked_linked (List.forall_mem_map.mpr hfree)
  have hrm : Rm s.deep [] (s.whole app) (linked (names s.dir.path ++ [name])) _ :=
    rm_without hr (resolve_linked hname hr hlast) (List.cons_ne_nil _ _)
  have hlost := h.does (List.mem_map_of_mem hs) hl (does_of_rm (h.plain hs) ho hrm)
  have hlong : 1 < (names s.dir.path ++ [name]).length := by
    have := List.length_pos_iff.mpr s.dir.ne
    rw [List.length_append, List.length_singleton]
    omega
  -- what the link leads to is gone
  have hnode : linked (names s.dir.path ++ [name]) [asc "x"] = some .dir := by
    refine if_neg fun heq => ?_
    rw [← heq] at hlong
    exact absurd hlong (by decide)
  obtain ⟨⟨d, -, name', -, hpre⟩, -⟩ := entries_of_lost hlost hnode (if_pos (Reach.refl _ _))
  have hle := hpre.length_le
  have hlen := List.length_pos_iff.mpr d.ne
  rw [List.length_append, List.length_singleton, List.length_singleton] at hle
  omega

/-- **A name is safe if nothing else can go.** -/
theorem Frames.safe : Safe places app := by
  refine ⟨fun s hs => ?_, fun s hs => h.plain hs, fun s hs operand ho => ?_⟩
  · by_contra hnot
    obtain ⟨_, hcontra, -⟩ := h [] dirs_only none (unlinked_dirs_only _)
      (runs_none_of_length (List.mem_map_of_mem hs) (Nat.not_lt.mp hnot))
    cases hcontra
  by_cases hr : Refused operand
  · exact Or.inl hr
  obtain ⟨⟨d, -, name, hname, hpre⟩, -⟩ := h.entries hs ho hr (Reach.refl _ _)
  have hmem : name ∈ go [] (parts operand) :=
    hpre.subset (List.mem_append_right _ (List.mem_singleton_self name))
  obtain rfl := eq_whole ho hname hmem
  refine Or.inr ⟨rfl, name, hname, fun s' hs' hreach => ?_, ?_⟩
  · rw [← go_whole hname] at hreach
    exact (h.entries hs ho hr hreach).2 s'.dir (List.mem_map_of_mem hs') rfl
  · by_cases hfree : ∃ s' ∈ places, names s.dir.path ++ [name] <+: names s'.dir.path
    · exact Or.inr hfree
    · exact Or.inl (h.getLast_ne hs ho hr hname fun s' hs' hpre' => hfree ⟨s', hs', hpre'⟩)

end Frames

/-- **Which names are safe.** -/
theorem frames_iff (places : List Place) (app : Bytes) :
    Frames (places.map Place.dir) app (places.map (Place.action app)) ↔ Safe places app :=
  ⟨Frames.safe, fun h _ _ _ hl hrun => h.runs (fun _ hs => hs) hl hrun⟩

/-- The words of a path name without blanks. -/
theorem words_whole (s : Place) (h : ∀ c ∈ app, isBlank c = false) :
    words (s.whole app) = [s.whole app] := by
  have hne : s.whole app ≠ [] := List.append_ne_nil_of_right_ne_nil _ (List.cons_ne_nil _ _)
  refine words_eq_singleton (fun c hc => ?_) hne
  rcases List.mem_append.mp hc with hc | hc
  · exact (s.dir.chars c hc).2
  · rcases List.mem_cons.mp hc with rfl | hc
    · decide
    · exact h c hc

/-- A plain name that fits, and is none of the directories, is safe. -/
theorem safe_of_name (hne : app ≠ []) (hdot : app ≠ dot) (hdotdot : app ≠ dotdot)
    (hchars : ∀ c ∈ app, c ∉ special ∧ isBlank c = false) (hslash : 47 ∉ app)
    (hfits : ∀ s ∈ places, (s.action app).text.length < 128)
    (hclear : ∀ s ∈ places, ∀ s' ∈ places, ¬ names s.dir.path ++ [app] <+: names s'.dir.path) :
    Safe places app := by
  have hnames : names app = [app] := by
    rw [names, List.splitOnP_eq_singleton fun c hc => by simpa using ne_of_mem_of_not_mem hc hslash,
      List.filter_cons_of_pos (by simpa using hne)]
    rfl
  have hname : Named app app := by
    refine ⟨?_, hdotdot⟩
    rw [hnames, List.filter_cons_of_pos (by simpa using hdot)]
    rfl
  have hlast : app.getLast? ≠ some 47 := fun h => hslash (List.mem_of_getLast? h)
  have hwords := fun s : Place => words_whole s fun c hc => (hchars c hc).2
  refine ⟨hfits, fun s hs hdeep => ⟨fun c hc => ?_, fun word hword => ?_⟩, fun s hs operand ho => ?_⟩
  · obtain ⟨deep, dir⟩ := s
    obtain rfl : deep = true := hdeep
    have hrm : ((asc "rm -rf ").all fun c => !special.contains c) = true := by decide
    have hsep : ((asc "/").all fun c => !special.contains c) = true := by decide
    rcases List.mem_append.mp hc with hc | hc
    · rcases List.mem_append.mp hc with hc | hc
      · rcases List.mem_append.mp hc with hc | hc
        · simpa using List.all_eq_true.mp hrm c hc
        · exact (dir.chars c hc).1
      · simpa using List.all_eq_true.mp hsep c hc
    · exact (hchars c hc).1
  · rw [operands_rm app s hdeep, hwords, List.mem_singleton] at hword
    rw [hword, Place.whole, List.head?_append, s.dir.head, Option.some_or]
    decide
  · have hwhole : operand = s.whole app := by
      obtain ⟨deep, dir⟩ := s
      cases deep with
      | false => exact List.mem_singleton.mp ho
      | true => exact List.mem_singleton.mp (hwords ⟨true, dir⟩ ▸ ho)
    have hfree := fun s' hs' (hreach : Reach s.deep _ _) => hclear s hs s' hs' hreach.below
    exact Or.inr ⟨hwhole, app, hname, hfree, Or.inl hlast⟩

end Steps

/-! ### The two programs -/

/-- The directories of `pyapp_uninstall_main`. -/
def main_places : List Place :=
  [⟨true, PYAPP_PATH⟩, ⟨false, PYAPP_BIN⟩, ⟨true, PYAPP_CFG⟩, ⟨true, PYAPP_DATA_PATH⟩,
    ⟨true, PYAPP_LOG_PATH⟩]

theorem actions_main (app : Bytes) :
    (pyapp_uninstall_main (some app)).2 = main_places.map (Place.action app) := rfl

/-- The second directory for links. -/
def Home.bin (home : Home) : Dir where
  path := home.PYUSER_APP_PATH.path ++ asc "/bin"
  head := by
    rw [List.head?_append, home.PYUSER_APP_PATH.head]
    rfl
  chars c hc := by
    rcases List.mem_append.mp hc with hc | hc
    · exact home.PYUSER_APP_PATH.chars c hc
    · exact chars_iff_all.mp (by decide : ((asc "/bin").all _) = true) c hc
  ne := by
    rw [show asc "/bin" = 47 :: asc "bin" by decide, names_append]
    exact List.append_ne_nil_of_left_ne_nil home.PYUSER_APP_PATH.ne _
  straight d hd := by
    rw [show asc "/bin" = 47 :: asc "bin" by decide, names_append] at hd
    rcases List.mem_append.mp hd with hd | hd
    · exact home.PYUSER_APP_PATH.straight d hd
    · exact (by decide : ∀ d ∈ names (asc "bin"), d ≠ dot ∧ d ≠ dotdot) d hd

/-- The directories of `pyapp_uninstall`. -/
def Home.places (home : Home) : List Place :=
  [⟨true, home.PYUSER_APP_PATH⟩, ⟨false, home.PYUSER_BIN_PATH⟩, ⟨false, home.bin⟩,
    ⟨true, home.PYUSER_CFG_PATH⟩, ⟨true, home.PYUSER_DATA_PATH⟩, ⟨true, home.PYUSER_DBHOME_PATH⟩,
    ⟨true, home.PYUSER_LOG_PATH⟩]

theorem actions_uninstall (home : Home) {app : Bytes} (happ : app ≠ []) :
    (pyapp_uninstall home (some app)).2 = home.places.map (Place.action app) := by
  have hbin : asc "/bin/" = asc "/bin" ++ asc "/" := by decide
  rw [pyapp_uninstall, if_neg happ, hbin, ← List.append_assoc]
  rfl

example : Safe main_places (asc "camera") :=
  safe_of_name (by decide) (by decide) (by decide) (chars_iff_all.mp (by decide)) (by decide)
    (by decide) (by decide)

/-- **Uninstalling.**  Nothing but the entries of the name goes exactly when the name is safe; the
younger program does nothing for the empty one. -/
theorem uninstall_iff (home : Home) (app : Bytes) :
    (Frames (main_places.map Place.dir) app (pyapp_uninstall_main (some app)).2 ↔
        Safe main_places app) ∧
      (Frames (home.places.map Place.dir) app (pyapp_uninstall home (some app)).2 ↔
        app = [] ∨ Safe home.places app) := by
  constructor
  · rw [actions_main, frames_iff]
  by_cases happ : app = []
  · subst happ
    refine iff_of_true (fun cwd fs o _ hrun => ?_) (Or.inl rfl)
    cases hrun
    exact ⟨fs, rfl, Lost.refl _ _⟩
  · rw [actions_uninstall home happ, frames_iff, or_iff_right happ]

/-- The empty name takes all of the apps. -/
theorem all_apps_uninstalled :
    ¬ ((∀ app, Frames (main_places.map Place.dir) app (pyapp_uninstall_main (some app)).2) ∧
      ∀ (home : Home) (app : Bytes),
        Frames (home.places.map Place.dir) app (pyapp_uninstall home (some app)).2) := by
  rintro ⟨hall, -⟩
  have hsafe : Safe main_places [] := (frames_iff main_places []).mp (hall [])
  rcases hsafe.harmless ⟨true, PYAPP_PATH⟩ List.mem_cons_self (asc "/var/app/") (by decide) with
    hr | ⟨-, name, hname, -⟩
  · rcases hr with hr | hr | hr <;> exact absurd hr (by decide)
  · exact hname.ne_nil rfl

end Boxing.Pyapp
