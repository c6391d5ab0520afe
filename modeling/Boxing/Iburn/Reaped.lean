import Boxing.Iburn.Children

/-!
# What the burner's result says

The world of the parent is what has become of its children: which run, how those
ended that were reaped, what `upgrade_main_board` returned, and whether a firmware
file was removed while a child was running.  `Told ret w` is what a caller of
`iburn_main` wants to read off the result.

The wait loop keeps `Following`: every running child is one whose pid the parent
still knows, and `ret` is 0 exactly when everything so far went well.  Whichever
child comes next, and however often the wait is interrupted, that is all there is
to it: when the loop ends, no child runs.
-/

namespace Boxing.Iburn

open C Device

/-! ### The world -/

/-- The children of one run of `iburn_main`, and what went on beside them. -/
structure Kids where
  running : List Int
  statuses : List Status
  main : Option Int
  early : Bool
  forks : Nat

/-- Nothing has happened yet. -/
def Kids.start : Kids := ⟨[], [], none, false, 0⟩

/-- The calls, when `forked n` says whether the `n`-th `fork` succeeds.  A child
may end at any time and with any status, and is there to be reaped in any order. -/
def kidStep (board : Board) (forked : Nat → Bool) :
    Kids → (c : KidCall) → KidRet c → Kids → Prop
  | w, .fork _, pid, w' =>
    if forked w.forks then
      0 < (pid : Int) ∧ pid ∉ w.running ∧
        w' = { w with running := pid :: w.running, forks := w.forks + 1 }
    else (pid : Int) < 0 ∧ w' = { w with forks := w.forks + 1 }
  | w, .waitpid, .reaped pid status, w' =>
    pid ∈ w.running ∧
      w' = { w with
        running := w.running.filter (· ≠ pid)
        statuses := w.statuses ++ [status] }
  | w, .waitpid, .interrupted, w' => w' = w
  | w, .waitpid, .failed, w' => w.running = [] ∧ w' = w
  | w, .upgrade_main_board _ _, r, w' => w' = { w with main := some r }
  | w, .unlink file, _, w' =>
    w' = { w with
      early := w.early || (decide (file ∈ firmwareFiles board) && !w.running.isEmpty) }
  | w, .f_exists _, _, w' => w' = w
  | w, .chdir, _, w' => w' = w
  | w, .mime_type _, _, w' => w' = w
  | w, .system _, _, w' => w' = w
  | w, .rename _ _, _, w' => w' = w

/-- The parent is not cut short. -/
def kidSem (board : Board) (forked : Nat → Bool) : Sem KidRet Kids where
  step := kidStep board forked
  cut := fun _ _ _ => False

/-- Every child was reaped, no firmware file went before, and the result is 0 if
and only if the main board and all children succeeded. -/
def Told (ret : Int) (w : Kids) : Prop :=
  w.running = [] ∧ w.early = false ∧
    (ret = 0 ↔ w.main = some 0 ∧ ∀ status ∈ w.statuses, status.success = true)

/-- `Told` for a parent that returns. -/
def Ended.Told : Ended → Kids → Prop
  | .exited, _ => True
  | .returned ret, w => Iburn.Told ret w

/-- In the wait loop: the parent knows the pid of every running child, and `ret`
says how it went so far. -/
structure Following (board : Board) (s : Waiting) (w : Kids) : Prop where
  early : w.early = false
  known : ∀ pid ∈ w.running, 0 < pid ∧
    (pid = s.ir6_pid ∨ pid = s.py_pid ∨ (board = .IDTU9 ∧ pid = s.sec_pid))
  noWifi : board = .IDTU9 → s.ir6_pid = -1
  ret : s.ret = 0 ↔ w.main = some 0 ∧ ∀ status ∈ w.statuses, status.success = true

/-! ### One child -/

section Note

variable {board : Board} {pid : Int} {status : Status} {s : Waiting}

theorem failWith_eq_zero {code ret : Int} (h : code ≠ 0) :
    failWith code status ret = 0 ↔ ret = 0 ∧ status.success = true := by
  rw [failWith]
  by_cases hret : ret = 0
  · by_cases hst : status.success = true
    · simp [hret, hst]
    · simp [hret, hst, h]
  · simp [hret]

/-- The end of a known child goes into `ret`. -/
theorem note_ret (h : pid = s.ir6_pid ∨ pid = s.py_pid ∨ (board = .IDTU9 ∧ pid = s.sec_pid)) :
    (note board pid status s).ret = 0 ↔ s.ret = 0 ∧ status.success = true := by
  have h2 : (-2 : Int) ≠ 0 := by decide
  have h3 : (-3 : Int) ≠ 0 := by decide
  have h4 : (-4 : Int) ≠ 0 := by decide
  rw [note]
  by_cases hi : pid = s.ir6_pid
  · by_cases hp : pid = s.py_pid
    · by_cases hs : board = .IDTU9 ∧ pid = s.sec_pid
      · simp only [if_pos hi, if_pos hp, if_pos hs, failWith_eq_zero h2, failWith_eq_zero h3,
          failWith_eq_zero h4, and_assoc, and_self]
      · simp only [if_pos hi, if_pos hp, if_neg hs, failWith_eq_zero h2, failWith_eq_zero h3,
          and_assoc, and_self]
    · by_cases hs : board = .IDTU9 ∧ pid = s.sec_pid
      · simp only [if_pos hi, if_neg hp, if_pos hs, failWith_eq_zero h2, failWith_eq_zero h4,
          and_assoc, and_self]
      · simp only [if_pos hi, if_neg hp, if_neg hs, failWith_eq_zero h2]
  · by_cases hp : pid = s.py_pid
    · by_cases hs : board = .IDTU9 ∧ pid = s.sec_pid
      · simp only [if_neg hi, if_pos hp, if_pos hs, failWith_eq_zero h3, failWith_eq_zero h4,
          and_assoc, and_self]
      · simp only [if_neg hi, if_pos hp, if_neg hs, failWith_eq_zero h3]
    · have hs : board = .IDTU9 ∧ pid = s.sec_pid := (h.resolve_left hi).resolve_left hp
      simp only [if_neg hi, if_neg hp, if_pos hs, failWith_eq_zero h4]

theorem note_sec : (note board pid status s).sec_pid = s.sec_pid := by
  rw [note]
  split
  · split <;> split <;> rfl
  · split <;> split <;> rfl

theorem note_py {p : Int} (hne : p ≠ pid) (h : p = s.py_pid) :
    p = (note board pid status s).py_pid := by
  have hpy : pid ≠ s.py_pid := fun he => hne (h.trans he.symm)
  rw [note]
  by_cases hi : pid = s.ir6_pid
  · simp only [if_pos hi, if_neg hpy]
    split <;> exact h
  · simp only [if_neg hi, if_neg hpy]
    split <;> exact h

theorem note_ir6 {p : Int} (hb : board ≠ .IDTU9) (hne : p ≠ pid) (h : p = s.ir6_pid) :
    p = (note board pid status s).ir6_pid := by
  have hir6 : pid ≠ s.ir6_pid := fun he => hne (h.trans he.symm)
  rw [note]
  by_cases hp : pid = s.py_pid
  · simp only [if_neg hir6, if_pos hp, hb, false_and, if_false]
    exact h
  · simp only [if_neg hir6, if_neg hp, hb, false_and, if_false]
    exact h

theorem note_noWifi (h : s.ir6_pid = -1) : (note board pid status s).ir6_pid = -1 := by
  rw [note]
  by_cases hi : pid = s.ir6_pid
  · simp only [if_pos hi]
    split <;> split <;> rfl
  · simp only [if_neg hi]
    split <;> split <;> first | rfl | exact h

end Note

/-! ### The wait loop -/

section Loop

variable {board : Board} {forked : Nat → Bool} {s : Waiting} {w : Kids}

/-- **One child reaped**: what the parent knows of the others stays right. -/
theorem Following.note {pid : Int} (h : Following board s w) (status : Status)
    (hpid : pid ∈ w.running) :
    Following board (note board pid status s)
      { w with
        running := w.running.filter (· ≠ pid)
        statuses := w.statuses ++ [status] } := by
  refine ⟨h.early, fun p hp => ?_, fun hb => note_noWifi (h.noWifi hb), ?_⟩
  · obtain ⟨hrun, hne⟩ := List.mem_filter.mp hp
    have hne : p ≠ pid := by simpa using hne
    obtain ⟨hpos, hi | hpy | ⟨hb, hs⟩⟩ := h.known p hrun
    · have hb : board ≠ .IDTU9 := by
        intro hb
        have := h.noWifi hb
        omega
      exact ⟨hpos, Or.inl (note_ir6 hb hne hi)⟩
    · exact ⟨hpos, Or.inr (Or.inl (note_py hne hpy))⟩
    · exact ⟨hpos, Or.inr (Or.inr ⟨hb, by rw [note_sec]; exact hs⟩)⟩
  · rw [note_ret (h.known pid hpid).2, h.ret]
    simp only [List.mem_append, List.mem_singleton, and_assoc]
    refine and_congr_right fun _ => ⟨?_, fun hall => ⟨fun st hst => hall st (Or.inl hst),
      hall status (Or.inr rfl)⟩⟩
    rintro ⟨hall, hlast⟩ st (hst | rfl)
    · exact hall st hst
    · exact hlast

/-- When the parent knows of no child any more, none runs. -/
theorem Following.running_nil (h : Following board s w) (hover : s.over = true) :
    w.running = [] := by
  obtain ⟨hi, hp, hs⟩ : s.ir6_pid = -1 ∧ s.py_pid = -1 ∧ s.sec_pid = -1 := by
    simpa [Waiting.over] using hover
  refine List.eq_nil_iff_forall_not_mem.mpr fun pid hpid => ?_
  obtain ⟨hpos, hpid | hpid | ⟨-, hpid⟩⟩ := h.known pid hpid
  · omega
  · omega
  · omega

/-- One round of the loop goes on following, or leaves with everybody reaped. -/
theorem wp_wait_body (h : Following board s w) :
    wp (kidSem board forked) (wait_body board s)
      (fun r w' => r.elim (fun s' => Following board s' w')
        (fun ret => w'.running = [] ∧ Told ret w')) (fun _ => True) w := by
  rw [wait_body, Prog.ask_bind, wp_call]
  refine ⟨trivial, fun _ hc => hc.elim, ?_⟩
  rintro (⟨pid, status⟩ | - | -) w' hstep
  · obtain ⟨hpid, rfl⟩ := hstep
    have hnext := h.note status hpid
    simp only
    by_cases hover : (note board pid status s).over = true
    · rw [if_pos hover]
      have hnil := hnext.running_nil hover
      exact wp_pure.mpr ⟨⟨hnil, hnil, hnext.early, hnext.ret⟩, trivial⟩
    · rw [if_neg hover]
      exact wp_pure.mpr ⟨hnext, trivial⟩
  · obtain rfl : w' = w := hstep
    exact wp_pure.mpr ⟨h, trivial⟩
  · obtain ⟨hnil, rfl⟩ : w.running = [] ∧ w' = w := hstep
    exact wp_pure.mpr ⟨⟨hnil, hnil, h.early, h.ret⟩, trivial⟩

/-- Removing the files when no child runs changes nothing else. -/
theorem wp_at_exit {upgrade_python : Bool} {ret : Int} (hnil : w.running = [])
    (h : Told ret w) :
    wp (kidSem board forked) (at_exit board upgrade_python ret) Ended.Told (fun _ => True) w := by
  have hfiles : ∀ files : List Bytes,
      wp (kidSem board forked) (unlinkAll files) (fun _ w' => w' = w) (fun _ => True) w := by
    intro files
    induction files with
    | nil => exact wp_pure.mpr ⟨rfl, trivial⟩
    | cons file files ih =>
      rw [unlinkAll, Prog.ask_bind, wp_call]
      refine ⟨trivial, fun _ hc => hc.elim, fun r w' hstep => ?_⟩
      have hearly : (w.early || (decide (file ∈ firmwareFiles board) && !w.running.isEmpty))
          = w.early := by rw [hnil]; simp
      have hw : w' = { w with early := w.early ||
          (decide (file ∈ firmwareFiles board) && !w.running.isEmpty) } := hstep
      rw [hw, hearly]
      exact ih
  rw [at_exit]
  refine wp_bind (wp_mono (hfiles _) ?_ fun _ _ => trivial)
  rintro - w' rfl
  by_cases hpy : upgrade_python = true
  · rw [if_pos hpy, Prog.ask_bind, wp_call]
    refine ⟨trivial, fun _ hc => hc.elim, fun r w'' hstep => ?_⟩
    obtain rfl : w'' = w' := hstep
    exact wp_pure.mpr ⟨h, trivial⟩
  · rw [if_neg hpy]
    exact wp_pure.mpr ⟨h, trivial⟩

/-- **Burn, wait, remove**: with all running children known, the result tells. -/
theorem wp_burn_and_wait {upgrade_boot upgrade_python : Bool} {ir6_pid py_pid sec_pid : Int}
    (hearly : w.early = false) (hst : w.statuses = [])
    (hknown : ∀ pid ∈ w.running, 0 < pid ∧
      (pid = ir6_pid ∨ pid = py_pid ∨ (board = .IDTU9 ∧ pid = sec_pid)))
    (hno : board = .IDTU9 → ir6_pid = -1) :
    wp (kidSem board forked)
      (burn_and_wait board upgrade_boot upgrade_python ir6_pid py_pid sec_pid)
      Ended.Told (fun _ => True) w := by
  rw [burn_and_wait, Prog.ask_bind, wp_call]
  refine ⟨trivial, fun _ hc => hc.elim, fun r w' hstep => ?_⟩
  obtain rfl : w' = { w with main := some r } := hstep
  rw [Prog.iterate_bind]
  refine wp_loop (Following board) ⟨hearly, hknown, hno, ?_⟩ fun s w' h => ?_
  · simp only [hst, List.not_mem_nil, false_implies, implies_true, and_true, Option.some.injEq]
    split
    · rename_i hr
      exact ⟨fun h => absurd h (by decide), fun h => absurd h hr⟩
    · rename_i hr
      exact ⟨fun _ => not_not.mp hr, fun _ => rfl⟩
  · refine wp_mono (wp_wait_body h) ?_ fun _ _ => trivial
    rintro (s' | ret) w'' hr
    · exact hr
    · exact wp_at_exit hr.1 hr.2

end Loop

/-! ### The whole run -/

section Whole

variable {board : Board} {forked : Nat → Bool}

/-- A result of -1 is right as long as no child was started. -/
theorem told_before {w : Kids} (hrun : w.running = []) (hearly : w.early = false)
    (hmain : w.main = none) : Told (-1) w := by
  refine ⟨hrun, hearly, fun h => absurd h (by decide), ?_⟩
  rintro ⟨h, -⟩
  rw [hmain] at h
  cases h

theorem wp_start_children {upgrade_boot upgrade_io_boot upgrade_python : Bool}
    (h : board = .IDTU9 ∨ forked 0 = false ∨ forked 1 = true) :
    wp (kidSem board forked) (start_children board upgrade_boot upgrade_io_boot upgrade_python)
      Ended.Told (fun _ => True) Kids.start := by
  have hfork : ∀ (job : Job) (r : Int) (w' : Kids),
      (kidSem board forked).step Kids.start (.fork job) r w' →
      if forked 0 then 0 < r ∧ w' = { Kids.start with running := [r], forks := 1 }
      else r < 0 ∧ w' = { Kids.start with forks := 1 } := by
    intro job r w' hstep
    have hstep' : if forked 0 then 0 < r ∧ r ∉ Kids.start.running ∧
        w' = { Kids.start with running := [r], forks := 1 }
      else r < 0 ∧ w' = { Kids.start with forks := 1 } := hstep
    by_cases h0 : forked 0 = true
    · rw [if_pos h0] at hstep' ⊢
      exact ⟨hstep'.1, hstep'.2.2⟩
    · rw [if_neg h0] at hstep' ⊢
      exact hstep'
  cases board with
  | IDTU9 =>
    rw [start_children, Prog.ask_bind, wp_call]
    refine ⟨trivial, fun _ hc => hc.elim, fun r w' hstep => ?_⟩
    have hr := hfork _ _ _ hstep
    by_cases h0 : forked 0 = true
    · rw [if_pos h0] at hr
      obtain ⟨hpos, rfl⟩ := hr
      rw [if_neg (by omega)]
      refine wp_burn_and_wait rfl rfl (fun pid hpid => ?_) fun _ => rfl
      rw [List.mem_singleton.mp hpid]
      exact ⟨hpos, Or.inr (Or.inr ⟨rfl, rfl⟩)⟩
    · rw [if_neg h0] at hr
      obtain ⟨hneg, rfl⟩ := hr
      rw [if_pos hneg]
      exact wp_at_exit rfl (told_before rfl rfl rfl)
  | IR9 =>
    rw [start_children, Prog.ask_bind, wp_call]
    refine ⟨trivial, fun _ hc => hc.elim, fun r w' hstep => ?_⟩
    have hr := hfork _ _ _ hstep
    by_cases h0 : forked 0 = true
    · have h1 : forked 1 = true := by
        rcases h with hb | h0' | h1
        · cases hb
        · rw [h0] at h0'
          cases h0'
        · exact h1
      rw [if_pos h0] at hr
      obtain ⟨hpos, rfl⟩ := hr
      rw [if_neg (by omega), Prog.ask_bind, wp_call]
      refine ⟨trivial, fun _ hc => hc.elim, fun (r' : Int) w'' hstep' => ?_⟩
      obtain ⟨hpos', -, rfl⟩ : 0 < r' ∧ r' ∉ [r] ∧
          w'' = { Kids.start with running := [r', r], forks := 2 } := by
        have hstep'' : if forked 1 then 0 < r' ∧ r' ∉ [r] ∧
            w'' = { Kids.start with running := [r', r], forks := 2 }
          else r' < 0 ∧ w'' = { Kids.start with running := [r], forks := 2 } := hstep'
        rwa [if_pos h1] at hstep''
      rw [if_neg (by omega)]
      refine wp_burn_and_wait rfl rfl (fun pid hpid => ?_) fun hb => by cases hb
      rcases List.mem_cons.mp hpid with rfl | hpid
      · exact ⟨hpos', Or.inr (Or.inl rfl)⟩
      · rw [List.mem_singleton.mp hpid]
        exact ⟨hpos, Or.inl rfl⟩
    · rw [if_neg h0] at hr
      obtain ⟨hneg, rfl⟩ := hr
      rw [if_pos hneg]
      exact wp_at_exit rfl (told_before rfl rfl rfl)

/-- Before the forks a call leaves the world as it is. -/
theorem wp_before {c : KidCall} {k : KidRet c → Prog KidRet Ended}
    (hc : ∀ r w', (kidSem board forked).step Kids.start c r w' → w' = Kids.start)
    (hk : ∀ r, wp (kidSem board forked) (k r) Ended.Told (fun _ => True) Kids.start) :
    wp (kidSem board forked) (.call c k) Ended.Told (fun _ => True) Kids.start := by
  rw [wp_call]
  refine ⟨trivial, fun _ hc => hc.elim, fun r w' hstep => ?_⟩
  rw [hc r w' hstep]
  exact hk r

theorem unlink_before {file : Bytes} {r : Int} {w' : Kids}
    (h : (kidSem board forked).step Kids.start (.unlink file) r w') : w' = Kids.start := by
  have hw : w' = { Kids.start with
    early := false || (decide (file ∈ firmwareFiles board) && !true) } := h
  rw [hw, Bool.not_true, Bool.and_false, Bool.or_false]
  rfl

theorem wp_get_file_type {file : Bytes} {k : Option Bytes → Prog KidRet Ended}
    (hk : ∀ r, wp (kidSem board forked) (k r) Ended.Told (fun _ => True) Kids.start) :
    wp (kidSem board forked) (get_file_type file >>= k) Ended.Told (fun _ => True)
      Kids.start := by
  rw [get_file_type, Prog.ask_bind, Prog.call_bind]
  refine wp_before (fun _ _ h => h) fun there => ?_
  by_cases hthere : there = false
  · rw [if_pos hthere]
    exact hk none
  · rw [if_neg hthere]
    exact wp_before (fun _ _ h => h) hk

theorem wp_exit_before (upgrade_python : Bool) :
    wp (kidSem board forked) (at_exit board upgrade_python (-1)) Ended.Told (fun _ => True)
      Kids.start := wp_at_exit rfl (told_before rfl rfl rfl)

theorem wp_unpack {upgrade_boot upgrade_io_boot upgrade_python : Bool} {srcfile : Bytes}
    (h : board = .IDTU9 ∨ forked 0 = false ∨ forked 1 = true) :
    wp (kidSem board forked) (unpack board upgrade_boot upgrade_io_boot upgrade_python srcfile)
      Ended.Told (fun _ => True) Kids.start := by
  rw [unpack]
  refine wp_get_file_type fun type => ?_
  cases type with
  | none => exact wp_exit_before _
  | some buf =>
    simp only
    by_cases hbin : asc "application/octet-stream" <:+: buf
    · rw [if_pos hbin]
      exact wp_before (fun _ _ h => h) fun _ => wp_start_children h
    · rw [if_neg hbin]
      by_cases htar : asc "application/x-tar" <:+: buf
      · rw [if_pos htar]
        exact wp_before (fun _ _ h => h) fun _ =>
          wp_before (fun _ _ => unlink_before) fun _ => wp_start_children h
      · rw [if_neg htar]
        exact wp_exit_before _

theorem getopts_of_not_mem : ∀ (opts : List Char) (b i : Bool), 'h' ∉ opts →
    ∃ flags, getopts opts b i = some flags := by
  intro opts
  induction opts with
  | nil => intro b i _; exact ⟨(b, i), rfl⟩
  | cons c opts ih =>
    intro b i h
    obtain ⟨hc, hopts⟩ := List.ne_and_not_mem_of_not_mem_cons h
    rw [getopts, if_neg (Ne.symm hc)]
    split
    · exact ih _ _ hopts
    · split
      · exact ih _ _ hopts
      · exact ih _ _ hopts

theorem getopts_of_mem : ∀ (opts : List Char) (b i : Bool), 'h' ∈ opts →
    getopts opts b i = none := by
  intro opts
  induction opts with
  | nil => intro b i h; exact absurd h List.not_mem_nil
  | cons c opts ih =>
    intro b i h
    rw [getopts]
    by_cases hc : c = 'h'
    · rw [if_pos hc]
    · have hopts : 'h' ∈ opts := (List.mem_cons.mp h).resolve_left (Ne.symm hc)
      rw [if_neg hc]
      split
      · exact ih _ _ hopts
      · split
        · exact ih _ _ hopts
        · exact ih _ _ hopts

theorem wp_iburn_main {argv1 : Option Bytes} {opts : List Char}
    (h : board = .IDTU9 ∨ forked 0 = false ∨ forked 1 = true ∨ argv1 = none ∨ 'h' ∈ opts) :
    wp (kidSem board forked) (iburn_main board argv1 opts) Ended.Told (fun _ => True)
      Kids.start := by
  cases argv1 with
  | none => exact wp_pure.mpr ⟨trivial, trivial⟩
  | some srcfile =>
    rw [iburn_main, Prog.ask_bind]
    refine wp_before (fun _ _ h => h) fun there => ?_
    by_cases hthere : there = false
    · rw [if_pos hthere]
      exact wp_pure.mpr ⟨told_before rfl rfl rfl, trivial⟩
    rw [if_neg hthere]
    by_cases hopts : 'h' ∈ opts
    · rw [getopts_of_mem opts false false hopts]
      exact wp_pure.mpr ⟨trivial, trivial⟩
    have hfork : board = .IDTU9 ∨ forked 0 = false ∨ forked 1 = true := by
      rcases h with h | h | h | h | h
      · exact Or.inl h
      · exact Or.inr (Or.inl h)
      · exact Or.inr (Or.inr h)
      · cases h
      · exact absurd h hopts
    obtain ⟨flags, hflags⟩ := getopts_of_not_mem opts false false hopts
    rw [hflags]
    simp only
    rw [Prog.ask_bind]
    refine wp_before (fun _ _ h => h) fun _ => wp_get_file_type fun type => ?_
    cases type with
    | none => exact wp_pure.mpr ⟨told_before rfl rfl rfl, trivial⟩
    | some buf =>
      simp only
      by_cases hzip : asc "application/zip" <:+: buf
      · rw [if_pos hzip, Prog.ask_bind]
        refine wp_before (fun _ _ h => h) fun (r : Int) => ?_
        by_cases hr : r ≠ 0
        · rw [if_pos hr]
          exact wp_exit_before _
        rw [if_neg hr, Prog.ask_bind]
        refine wp_before (fun _ _ h => h) fun (r : Int) => ?_
        by_cases hr : r ≠ 0
        · rw [if_pos hr]
          exact wp_exit_before _
        rw [if_neg hr]
        exact wp_before (fun _ _ => unlink_before) fun _ =>
          wp_before (fun _ _ h => h) fun _ => wp_unpack hfork
      · rw [if_neg hzip]
        exact wp_unpack hfork

/-! ### The second fork -/

/-- `EXIT` can be run through from anywhere, and reaps nobody. -/
theorem run_at_exit (upgrade_python : Bool) (ret : Int) (w : Kids) :
    ∃ w', Run (kidSem board forked) (at_exit board upgrade_python ret) w
      (some (.returned ret)) w' ∧ w'.running = w.running := by
  have hfiles : ∀ (files : List Bytes) (w : Kids),
      ∃ w', Run (kidSem board forked) (unlinkAll files) w (some ()) w' ∧
        w'.running = w.running := by
    intro files
    induction files with
    | nil => intro w; exact ⟨w, .ret () w, rfl⟩
    | cons file files ih =>
      intro w
      obtain ⟨w', hrun, hw'⟩ := ih { w with early := w.early ||
        (decide (file ∈ firmwareFiles board) && !w.running.isEmpty) }
      refine ⟨w', ?_, hw'⟩
      rw [unlinkAll, Prog.ask_bind]
      exact .call (r := (0 : Int)) (show kidStep board forked w (.unlink file) 0 _ from rfl) hrun
  obtain ⟨w', hrun, hw'⟩ := hfiles (firmwareFiles board) w
  refine ⟨w', ?_, hw'⟩
  rw [at_exit]
  refine hrun.bind ?_
  by_cases hpy : upgrade_python = true
  · rw [if_pos hpy]
    exact .call (r := (0 : Int)) (show kidStep board forked w' (.system .rmPython) 0 w' from rfl)
      (.ret _ w')
  · rw [if_neg hpy]
    exact .ret _ w'

/-- When the second `fork` fails, the parent leaves with the first child running. -/
theorem run_second_fork_fails (forked : Nat → Bool) (srcfile : Bytes) {opts : List Char}
    (h0 : forked 0 = true) (h1 : forked 1 = false) (hopts : 'h' ∉ opts) :
    ∃ w, Run (kidSem .IR9 forked) (iburn_main .IR9 (some srcfile) opts) Kids.start
      (some (.returned (-1))) w ∧ w.running = [1] := by
  obtain ⟨flags, hflags⟩ := getopts_of_not_mem opts false false hopts
  have htype : ∀ (file : Bytes) (k : Option Bytes → Prog KidRet Ended) (o : Option Ended)
      (w : Kids), Run (kidSem .IR9 forked) (k (some (asc "application/octet-stream")))
        Kids.start o w → Run (kidSem .IR9 forked) (get_file_type file >>= k) Kids.start o w := by
    intro file k o w hrun
    rw [get_file_type, Prog.ask_bind, Prog.call_bind]
    refine .call (r := true) (show _ = _ from rfl) ?_
    rw [if_neg (by simp)]
    show Run (kidSem .IR9 forked) (.call (KidCall.mime_type file) k) Kids.start o w
    exact .call (r := some (asc "application/octet-stream")) (show _ = _ from rfl) hrun
  obtain ⟨w, hexit, hw⟩ : ∃ w, Run (kidSem .IR9 forked) (at_exit .IR9 false (-1))
      { Kids.start with running := [1], forks := 2 } (some (.returned (-1))) w ∧
      w.running = [1] := run_at_exit false (-1) _
  refine ⟨w, ?_, hw⟩
  rw [iburn_main, Prog.ask_bind]
  refine .call (r := true) (show _ = _ from rfl) ?_
  rw [if_neg (by simp), hflags]
  simp only
  rw [Prog.ask_bind]
  refine .call (r := (0 : Int)) (show _ = _ from rfl) (htype _ _ _ _ ?_)
  simp only
  rw [if_neg (by decide), unpack]
  refine htype _ _ _ _ ?_
  simp only
  rw [if_pos (List.infix_refl _), Prog.ask_bind]
  refine .call (r := (0 : Int)) (show _ = _ from rfl) ?_
  rw [start_children, Prog.ask_bind]
  have hfirst : kidStep .IR9 forked Kids.start
      (.fork (.upgrade_wifi_board IR6_FIRMWARE_FILE flags.2)) 1
      { Kids.start with running := [1], forks := 1 } :=
    show if forked 0 then _ else _ by
      rw [if_pos h0]
      exact ⟨Int.one_pos, List.not_mem_nil, rfl⟩
  have hsecond : kidStep .IR9 forked { Kids.start with running := [1], forks := 1 }
      (.fork (.inpython false)) (-1) { Kids.start with running := [1], forks := 2 } :=
    show if forked 1 then _ else _ by
      rw [if_neg (by simp [h1])]
      exact ⟨Int.negSucc_lt_zero 0, rfl⟩
  refine .call hfirst ?_
  rw [if_neg (Int.not_lt.mpr Int.one_nonneg), Prog.ask_bind]
  refine .call hsecond ?_
  rw [if_pos (by decide)]
  exact hexit

/-- **When the burner's result can be trusted.**  For every outcome of the forks,
every file and option, every end of the children in every order and any number of
interrupted waits: the result tells, if and only if this is not the exit after a
second `fork` that failed (or there is no run that far, because `usage` ends it). -/
theorem iburn_main_iff {argv1 : Option Bytes} {opts : List Char} :
    (∀ ret w, Run (kidSem board forked) (iburn_main board argv1 opts) Kids.start
        (some (.returned ret)) w →
      w.running = [] ∧ w.early = false ∧
        (ret = 0 ↔ w.main = some 0 ∧ ∀ status ∈ w.statuses, status.success = true)) ↔
      board = .IDTU9 ∨ forked 0 = false ∨ forked 1 = true ∨ argv1 = none ∨ 'h' ∈ opts := by
  constructor
  · intro h
    by_contra hno
    simp only [not_or, Bool.not_eq_false, Bool.not_eq_true] at hno
    obtain ⟨hb, h0, h1, hargv, hopts⟩ := hno
    obtain rfl : board = .IR9 := by
      cases board with
      | IR9 => rfl
      | IDTU9 => exact absurd rfl hb
    obtain ⟨srcfile, rfl⟩ := Option.ne_none_iff_exists'.mp hargv
    obtain ⟨w, hrun, hw⟩ := run_second_fork_fails forked srcfile h0 h1 hopts
    have hnil := (h (-1) w hrun).1
    rw [hw] at hnil
    cases hnil
  · intro h ret w hrun
    exact (wp_iburn_main h).1 _ _ hrun

/-- With a second `fork` that fails, `iburn_main` returns and its first child runs. -/
theorem iburn_main_leaves_child :
    ¬ ∀ (board : Board) (forked : Nat → Bool) (argv1 : Option Bytes) (opts : List Char)
      (ret : Int) (w : Kids), Run (kidSem board forked) (iburn_main board argv1 opts) Kids.start
        (some (.returned ret)) w →
      w.running = [] ∧ w.early = false ∧
        (ret = 0 ↔ w.main = some 0 ∧ ∀ status ∈ w.statuses, status.success = true) := by
  intro h
  have hopts : 'h' ∉ ([] : List Char) := List.not_mem_nil
  obtain ⟨w, hrun, hw⟩ :=
    run_second_fork_fails (fun n => n = 0) (asc "/tmp/fw.bin") rfl rfl hopts
  have hnil := (h .IR9 _ _ _ _ w hrun).1
  rw [hw] at hnil
  cases hnil

end Whole

end Boxing.Iburn
