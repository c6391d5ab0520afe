import Boxing.Iburn.Version
import Boxing.Ig9.Upgrade

/-!
# The version scan in chunks

`iburn_ig9.c` reads the environment of the boot loader through the buffer it copies the
flash with, a chunk at a time, and scans each chunk as if it were an environment of its
own.  The scan of a chunk knows no end but an empty entry or enough versions found, so an
entry that is cut by the end of the chunk takes it out of the buffer, and so does one that
ends right there.

`sweep` and `sweeps` are what the two loops do, without the calls.  `chunks_agree_iff` says
when they do what the scan in one piece does, for every block with a closed list and every
size of the chunks.
-/

namespace Boxing.Ig9

open C Device
open Iburn (Begun given hits version hits_cons_of_begun hits_cons_of_not hits_eq_nil_iff hits_append
  exists_begun length_of_begun drop_begun drop_entry lt_of_drop strncmpEq_begun drop_pack_left
  set_version_in run_set_version_in)

/-! ### What the loops do -/

/-- The scan of one chunk: what `bootenv_set` is given, and where it stops; none is an
access outside. -/
def sweep (cfg : Config) (mem : Bytes) (s : Scan) : List Bytes × Option Scan :=
  match _h : mem.drop s.pbuf with
  | [] => ([], none)
  | c :: m =>
    if c = 0 ∨ cfg.EMMC_WRITE_BUFF_SIZE ≤ s.pbuf then ([], some s)
    else
      match strlen (c :: m) with
      | none => ([], none)
      | some k =>
        if strncmpEq ((c :: m).take k) (asc "version") 7 then
          match strlen (mem.drop (s.pbuf + 8)) with
          | none => ([], none)
          | some _ =>
            if s.setenv_num + 1 = cfg.BOOT_ENV_MODIFIED_NUM then
              ([str (mem.drop (s.pbuf + 8))], some { s with setenv_num := s.setenv_num + 1 })
            else
              (str (mem.drop (s.pbuf + 8)) :: (sweep cfg mem ⟨s.pbuf + k + 1, s.setenv_num + 1⟩).1,
                (sweep cfg mem ⟨s.pbuf + k + 1, s.setenv_num + 1⟩).2)
        else if s.setenv_num = cfg.BOOT_ENV_MODIFIED_NUM then ([], some s)
        else sweep cfg mem { s with pbuf := s.pbuf + k + 1 }
termination_by mem.length - s.pbuf
decreasing_by
  all_goals
    have hlen := congrArg List.length _h
    rw [List.length_drop, List.length_cons] at hlen
    omega

/-- The `i`-th chunk of the block. -/
def chunk (cfg : Config) (block : Bytes) (i : Nat) : Bytes :=
  (block.drop (i * cfg.EMMC_WRITE_BUFF_SIZE)).take cfg.EMMC_WRITE_BUFF_SIZE

/-- The scan of `n` chunks from the `i`-th on: what `bootenv_set` is given, and whether it
stays inside. -/
def sweeps (cfg : Config) (block : Bytes) : Nat → Nat → Nat → List Bytes × Bool
  | 0, _, _ => ([], true)
  | n + 1, i, setenv_num =>
    match sweep cfg (chunk cfg block i) ⟨if i = 0 then 4 else 0, setenv_num⟩ with
    | (vs, none) => (vs, false)
    | (vs, some s) =>
      if scan_done cfg (chunk cfg block i) s then (vs, true)
      else
        (vs ++ (sweeps cfg block n (i + 1) s.setenv_num).1,
          (sweeps cfg block n (i + 1) s.setenv_num).2)

/-! ### Runs -/

/-- The file can be read, and what `bootenv_set` is given for the version is noted. -/
def notedStep (image : Bytes) : List Bytes → (c : IgCall) → IgRet c → List Bytes → Prop
  | w, .read pos len, r, w' => r = some ((image.drop pos).take len) ∧ w' = w
  | w, .bootenv_set name value, _, w' => w' = if name = asc "version" then w ++ [value] else w
  | w, _, _, w' => w' = w

def noted (image : Bytes) : Sem IgRet (List Bytes) where
  step := notedStep image
  cut := fun _ _ _ => False

/-- The loop over the chunks, as `upgrade_bootloader` starts it. -/
def scan_env (cfg : Config) (behind buf : Bytes) : Prog IgRet Bool :=
  Prog.iterate (blocks_body cfg behind) ⟨0, true, 0, cfg.CFG_ENV_OFFSET, buf⟩

section Runs

variable {cfg : Config} {image mem m : Bytes} {w w' : List Bytes} {s : Scan} {c : UInt8} {σ : Type}
  {P : σ → List Bytes → Prop}

theorem sweep_nil (h : mem.drop s.pbuf = []) : sweep cfg mem s = ([], none) := by
  rw [sweep]
  split
  · rfl
  · rename_i hcons
    rw [h] at hcons
    cases hcons

theorem sweep_cons (h : mem.drop s.pbuf = c :: m) :
    sweep cfg mem s
      = if c = 0 ∨ cfg.EMMC_WRITE_BUFF_SIZE ≤ s.pbuf then ([], some s)
        else
          match strlen (c :: m) with
          | none => ([], none)
          | some k =>
            if strncmpEq ((c :: m).take k) (asc "version") 7 then
              match strlen (mem.drop (s.pbuf + 8)) with
              | none => ([], none)
              | some _ =>
                if s.setenv_num + 1 = cfg.BOOT_ENV_MODIFIED_NUM then
                  ([str (mem.drop (s.pbuf + 8))], some { s with setenv_num := s.setenv_num + 1 })
                else
                  (str (mem.drop (s.pbuf + 8))
                      :: (sweep cfg mem ⟨s.pbuf + k + 1, s.setenv_num + 1⟩).1,
                    (sweep cfg mem ⟨s.pbuf + k + 1, s.setenv_num + 1⟩).2)
            else if s.setenv_num = cfg.BOOT_ENV_MODIFIED_NUM then ([], some s)
            else sweep cfg mem { s with pbuf := s.pbuf + k + 1 } := by
  rw [sweep]
  split
  · rename_i hnil
    rw [h] at hnil
    cases hnil
  · rename_i hcons
    obtain ⟨rfl, rfl⟩ := List.cons.inj (h.symm.trans hcons)
    rfl

theorem round_pure (x : σ) :
    (∃ r w₁, Run (noted image) (pure x : Prog IgRet σ) w (some r) w₁ ∧ P r w₁) ↔ P x w := by
  constructor
  · rintro ⟨r, w₁, h, hP⟩
    obtain ⟨rfl, rfl⟩ := Run.some_pure.mp h
    exact hP
  · exact fun hP => ⟨x, w, .ret x w, hP⟩

theorem round_note (value : Bytes) (x : σ) :
    (∃ r w₁, Run (noted image) (do
        let _ : Int ← askIg (.bootenv_set (asc "version") value)
        pure x) w (some r) w₁ ∧ P r w₁) ↔ P x (w ++ [value]) := by
  constructor
  · rintro ⟨r, w₁, h, hP⟩
    obtain ⟨_, w₂, rfl, h⟩ := Run.some_call.mp h
    obtain ⟨rfl, rfl⟩ := Run.some_pure.mp h
    exact hP
  · exact fun hP => ⟨x, _, .call (r := (0 : Int)) rfl (.ret x _), hP⟩

/-- **The scan of a chunk**, where nothing lies behind it. -/
theorem run_scan_iff (s : Scan) (o : Option Scan) :
    Run (noted image) (Prog.iterate (scan_body cfg mem) s) w (some o) w' ↔
      o = (sweep cfg mem s).2 ∧ w' = w ++ (sweep cfg mem s).1 := by
  induction hn : mem.length - s.pbuf using Nat.strongRecOn generalizing s w with
  | ind n ih =>
    rw [Run.some_iterate]
    have hstop : ∀ x, (o = x ∧ w' = w) ↔ o = x ∧ w' = w ++ [] := by simp
    cases hd : mem.drop s.pbuf with
    | nil =>
      rw [scan_body, hd, sweep_nil hd]
      exact (round_pure _).trans (hstop none)
    | cons c m =>
      have hlen := congrArg List.length hd
      rw [List.length_drop, List.length_cons] at hlen
      rw [scan_body, hd, sweep_cons hd]
      simp only
      by_cases hc : c = 0 ∨ cfg.EMMC_WRITE_BUFF_SIZE ≤ s.pbuf
      · rw [if_pos hc, if_pos hc]
        exact (round_pure _).trans (hstop (some s))
      · rw [if_neg hc, if_neg hc]
        cases strlen (c :: m) with
        | none => exact (round_pure _).trans (hstop none)
        | some k =>
          simp only
          by_cases hv : strncmpEq ((c :: m).take k) (asc "version") 7 = true
          · rw [if_pos hv, if_pos hv]
            cases strlen (mem.drop (s.pbuf + 8)) with
            | none => exact (round_pure _).trans (hstop none)
            | some j =>
              refine (round_note _ _).trans ?_
              rw [scan_next]
              simp only
              by_cases hnum : s.setenv_num + 1 = cfg.BOOT_ENV_MODIFIED_NUM
              · rw [if_pos hnum, if_pos hnum]
                exact Iff.rfl
              · rw [if_neg hnum, if_neg hnum]
                refine (ih _ (show mem.length - (s.pbuf + k + 1) < n by omega) _ rfl).trans ?_
                rw [List.append_assoc, List.singleton_append]
          · rw [if_neg hv, if_neg hv, scan_next]
            by_cases hnum : s.setenv_num = cfg.BOOT_ENV_MODIFIED_NUM
            · rw [if_pos hnum, if_pos hnum]
              exact (round_pure _).trans (hstop (some s))
            · rw [if_neg hnum, if_neg hnum]
              exact (round_pure _).trans
                (ih _ (show mem.length - (s.pbuf + k + 1) < n by omega) _ rfl)

/-- A full read fills the buffer. -/
theorem take_in_full {buf d : Bytes} (h : d.length = buf.length) : take_in buf (some d) = d := by
  rw [take_in, h, List.drop_length, List.append_nil]

/-- The block in the file. -/
def block (cfg : Config) (image : Bytes) : Bytes :=
  (image.drop cfg.CFG_ENV_OFFSET).take cfg.BOOT_ENV_SIZE

/-- The block has `BOOT_ENV_SIZE / EMMC_WRITE_BUFF_SIZE` full chunks. -/
theorem read_chunk {i : Nat} (h : i < cfg.BOOT_ENV_SIZE / cfg.EMMC_WRITE_BUFF_SIZE) :
    (image.drop (cfg.CFG_ENV_OFFSET + i * cfg.EMMC_WRITE_BUFF_SIZE)).take cfg.EMMC_WRITE_BUFF_SIZE
      = chunk cfg (block cfg image) i := by
  have hle : i * cfg.EMMC_WRITE_BUFF_SIZE + cfg.EMMC_WRITE_BUFF_SIZE ≤ cfg.BOOT_ENV_SIZE := by
    have h1 := Nat.mul_le_mul_right cfg.EMMC_WRITE_BUFF_SIZE (Nat.succ_le_of_lt h)
    have h2 := Nat.div_mul_le_self cfg.BOOT_ENV_SIZE cfg.EMMC_WRITE_BUFF_SIZE
    rw [Nat.succ_mul] at h1
    omega
  rw [chunk, block, List.drop_take, List.drop_drop, List.take_take]
  congr 1
  omega

theorem length_chunk {i : Nat} (hblock : (block cfg image).length = cfg.BOOT_ENV_SIZE)
    (h : i < cfg.BOOT_ENV_SIZE / cfg.EMMC_WRITE_BUFF_SIZE) :
    (chunk cfg (block cfg image) i).length = cfg.EMMC_WRITE_BUFF_SIZE := by
  have h1 := Nat.mul_le_mul_right cfg.EMMC_WRITE_BUFF_SIZE (Nat.succ_le_of_lt h)
  have h2 := Nat.div_mul_le_self cfg.BOOT_ENV_SIZE cfg.EMMC_WRITE_BUFF_SIZE
  rw [Nat.succ_mul] at h1
  rw [chunk, List.length_take, List.length_drop, hblock]
  omega

theorem run_read {α : Type} {pos len : Nat} {k : Option Bytes → Prog IgRet α} {b : α} :
    Run (noted image) (.call (.read pos len) k) w (some b) w' ↔
      Run (noted image) (k (some ((image.drop pos).take len))) w (some b) w' :=
  Run.some_call_eq fun _ _ => Iff.rfl

/-- Where the loop is after a chunk. -/
def after_sweep (cfg : Config) (block : Bytes) (i : Nat) : Option Scan → Blocks ⊕ Bool
  | none => .inr false
  | some s =>
    if scan_done cfg (chunk cfg block i) s then .inr true
    else .inl ⟨i + 1, false, s.setenv_num, cfg.CFG_ENV_OFFSET + (i + 1) * cfg.EMMC_WRITE_BUFF_SIZE,
      chunk cfg block i⟩

/-- One round of the loop over the chunks. -/
theorem run_round_iff {i setenv_num : Nat} {buf : Bytes} {r : Blocks ⊕ Bool}
    (hblock : (block cfg image).length = cfg.BOOT_ENV_SIZE)
    (hi : i < cfg.BOOT_ENV_SIZE / cfg.EMMC_WRITE_BUFF_SIZE)
    (hbuf : buf.length = cfg.EMMC_WRITE_BUFF_SIZE) :
    Run (noted image) (blocks_body cfg []
        ⟨i, decide (i = 0), setenv_num, cfg.CFG_ENV_OFFSET + i * cfg.EMMC_WRITE_BUFF_SIZE, buf⟩)
        w (some r) w' ↔
      r = after_sweep cfg (block cfg image) i (sweep cfg (chunk cfg (block cfg image) i)
          ⟨if i = 0 then 4 else 0, setenv_num⟩).2 ∧
        w' = w ++ (sweep cfg (chunk cfg (block cfg image) i) ⟨if i = 0 then 4 else 0, setenv_num⟩).1 := by
  have hlen := length_chunk hblock hi
  have hmem : take_in buf (some (chunk cfg (block cfg image) i)) = chunk cfg (block cfg image) i :=
    take_in_full (hlen.trans hbuf.symm)
  have hmoved : cfg.CFG_ENV_OFFSET + i * cfg.EMMC_WRITE_BUFF_SIZE
      + moved (some (chunk cfg (block cfg image) i))
      = cfg.CFG_ENV_OFFSET + (i + 1) * cfg.EMMC_WRITE_BUFF_SIZE := by
    rw [moved, hlen, Nat.succ_mul, Nat.add_assoc]
  rw [blocks_body, if_pos hi, Prog.ask_bind, run_read]
  simp only [read_chunk hi, hmem, hmoved, List.append_nil, decide_eq_true_eq]
  -- behind the scan there are no more calls
  have hrest : ∀ (o : Option Scan) (w₁ : List Bytes),
      Run (noted image) (match o with
        | none => pure (.inr false)
        | some scan =>
          if scan_done cfg (chunk cfg (block cfg image) i) scan then pure (.inr true)
          else pure (.inl ⟨i + 1, false, scan.setenv_num,
            cfg.CFG_ENV_OFFSET + (i + 1) * cfg.EMMC_WRITE_BUFF_SIZE, chunk cfg (block cfg image) i⟩))
        w₁ (some r) w' ↔ r = after_sweep cfg (block cfg image) i o ∧ w' = w₁ := by
    intro o w₁
    cases o with
    | none => exact Run.some_pure
    | some s =>
      rw [after_sweep]
      simp only
      split
      · exact Run.some_pure
      · exact Run.some_pure
  rw [Run.some_bind]
  constructor
  · rintro ⟨o, w₁, hscan, h⟩
    obtain ⟨rfl, rfl⟩ := (run_scan_iff _ _).mp hscan
    exact (hrest _ _).mp h
  · intro h
    exact ⟨_, _, (run_scan_iff _ _).mpr ⟨rfl, rfl⟩, (hrest _ _).mpr h⟩

/-- **The loop over the chunks**, where nothing lies behind the buffer. -/
theorem run_blocks_iff (hblock : (block cfg image).length = cfg.BOOT_ENV_SIZE) (ok : Bool)
    (w' : List Bytes) :
    ∀ (n i setenv_num : Nat) (buf : Bytes) (w : List Bytes),
      n = cfg.BOOT_ENV_SIZE / cfg.EMMC_WRITE_BUFF_SIZE - i → buf.length = cfg.EMMC_WRITE_BUFF_SIZE →
      (Run (noted image) (Prog.iterate (blocks_body cfg [])
          ⟨i, decide (i = 0), setenv_num, cfg.CFG_ENV_OFFSET + i * cfg.EMMC_WRITE_BUFF_SIZE, buf⟩)
          w (some ok) w' ↔
        ok = (sweeps cfg (block cfg image) n i setenv_num).2 ∧
          w' = w ++ (sweeps cfg (block cfg image) n i setenv_num).1) := by
  intro n
  induction n with
  | zero =>
    intro i setenv_num buf w hn hbuf
    rw [Run.some_iterate, blocks_body, if_neg (by simp only; omega), sweeps]
    refine (round_pure _).trans ?_
    rw [List.append_nil]
    exact Iff.rfl
  | succ n ih =>
    intro i setenv_num buf w hn hbuf
    have hi : i < cfg.BOOT_ENV_SIZE / cfg.EMMC_WRITE_BUFF_SIZE := by omega
    rw [Run.some_iterate]
    simp only [run_round_iff hblock hi hbuf]
    rw [sweeps]
    generalize hsweep : sweep cfg (chunk cfg (block cfg image) i) ⟨if i = 0 then 4 else 0, setenv_num⟩
      = found
    obtain ⟨vs, o⟩ := found
    cases o with
    | none => simp [after_sweep]
    | some s =>
      simp only [after_sweep]
      by_cases hdone : scan_done cfg (chunk cfg (block cfg image) i) s = true
      · simp [hdone]
      · have hflag : decide (i + 1 = 0) = false := decide_eq_false (Nat.succ_ne_zero i)
        have hnext := ih (i + 1) s.setenv_num (chunk cfg (block cfg image) i) (w ++ vs) (by omega)
          (length_chunk hblock hi)
        rw [hflag, List.append_assoc] at hnext
        simpa [hdone] using hnext

/-- **The version scan** of `upgrade_bootloader`, with all of the block in the file. -/
theorem run_scan_env {buf : Bytes} (hblock : (block cfg image).length = cfg.BOOT_ENV_SIZE)
    (hbuf : buf.length = cfg.EMMC_WRITE_BUFF_SIZE) (w : List Bytes) (ok : Bool) (w' : List Bytes) :
    Run (noted image) (scan_env cfg [] buf) w (some ok) w' ↔
      ok = (sweeps cfg (block cfg image) (cfg.BOOT_ENV_SIZE / cfg.EMMC_WRITE_BUFF_SIZE) 0 0).2 ∧
        w' = w ++ (sweeps cfg (block cfg image) (cfg.BOOT_ENV_SIZE / cfg.EMMC_WRITE_BUFF_SIZE) 0 0).1 := by
  have hrun := run_blocks_iff hblock ok w' _ 0 0 buf w (Nat.sub_zero _).symm hbuf
  rw [Nat.zero_mul, Nat.add_zero] at hrun
  exact hrun

/-- The copy of the boot loader sets no version, and leaves the buffer its size. -/
theorem run_copy_keeps {s s' : Copy} (hbuf : s.buf.length = cfg.EMMC_WRITE_BUFF_SIZE)
    (h : Run (noted image) (Prog.iterate (copy_body cfg) s) w (some s') w') :
    w' = w ∧ s'.buf.length = cfg.EMMC_WRITE_BUFF_SIZE := by
  have hloop : wp (noted image) (Prog.iterate (copy_body cfg) s)
      (fun s' w' => w' = w ∧ s'.buf.length = cfg.EMMC_WRITE_BUFF_SIZE) (fun _ => True) w := by
    refine wp_loop (fun s v => v = w ∧ s.buf.length = cfg.EMMC_WRITE_BUFF_SIZE) ⟨rfl, hbuf⟩ ?_
    rintro s v ⟨rfl, hs⟩
    refine ⟨fun r v' hr => ?_, fun _ _ => trivial⟩
    rw [copy_body] at hr
    by_cases hpos : 0 < s.n
    · rw [if_pos hpos, Prog.ask_bind, run_read, Prog.ask_bind] at hr
      obtain ⟨_, v₁, rfl, hk⟩ := Run.some_call.mp hr
      obtain ⟨rfl, rfl⟩ := Run.some_pure.mp hk
      refine ⟨rfl, ?_⟩
      simp only [take_in, List.length_append, List.length_take, List.length_drop, hs]
      omega
    · rw [if_neg hpos] at hr
      obtain ⟨rfl, rfl⟩ := Run.some_pure.mp hr
      exact wp_pure.mpr ⟨⟨rfl, hs⟩, trivial⟩
  exact hloop.run h

/-- The boot loader part of the upgrade sets the versions that this loop does, and crashes
when the loop does. -/
theorem run_upgrade_bootloader {buf : Bytes} {o : Option Exit}
    (hbuf : buf.length = cfg.EMMC_WRITE_BUFF_SIZE)
    (h : Run (noted image) (upgrade_bootloader cfg buf []) w (some o) w') :
    o = some .bootPartFailed ∧ w' = w ∨
      ∃ buf' ok, buf'.length = cfg.EMMC_WRITE_BUFF_SIZE ∧
        Run (noted image) (scan_env cfg [] buf') w (some ok) w' ∧
          o = if ok then none else some .crashed := by
  rw [upgrade_bootloader, Prog.ask_bind] at h
  obtain ⟨_, w₁, hw₁, h₁⟩ := Run.some_call.mp h
  rw [Prog.ask_bind] at h₁
  obtain ⟨bootFd, w₂, hw₂, h₂⟩ := Run.some_call.mp h₁
  obtain rfl : w₁ = w := hw₁
  obtain rfl : w₂ = w₁ := hw₂
  split at h₂
  · obtain ⟨rfl, rfl⟩ := Run.some_pure.mp h₂
    exact Or.inl ⟨rfl, rfl⟩
  · obtain ⟨copy, w₃, hcopy, h₃⟩ := Run.some_bind.mp h₂
    obtain ⟨rfl, hlen⟩ := run_copy_keeps hbuf hcopy
    obtain ⟨ok, w₄, hscan, h₄⟩ := Run.some_bind.mp h₃
    refine Or.inr ⟨copy.buf, ok, hlen, ?_⟩
    cases ok with
    | true =>
      obtain ⟨rfl, rfl⟩ := Run.some_pure.mp h₄
      exact ⟨hscan, rfl⟩
    | false =>
      obtain ⟨rfl, rfl⟩ := Run.some_pure.mp h₄
      exact ⟨hscan, rfl⟩

end Runs

/-! ### A chunk as a list -/

section Lists

variable {cfg : Config} {mem e m t v : Bytes} {es before rest vs : List Bytes} {p n : Nat} {s : Scan}

theorem sweep_zero (h : mem.drop p = 0 :: t) : sweep cfg mem ⟨p, n⟩ = ([], some ⟨p, n⟩) := by
  rw [sweep_cons h, if_pos (Or.inl rfl)]

/-- A chunk that ends in an entry, or right behind one, is left. -/
theorem sweep_open (h : 0 ∉ mem.drop p) (hsize : mem.length ≤ cfg.EMMC_WRITE_BUFF_SIZE) :
    sweep cfg mem ⟨p, n⟩ = ([], none) := by
  cases hd : mem.drop p with
  | nil => exact sweep_nil hd
  | cons c m =>
    have hlt := lt_of_drop hd
    rw [hd] at h
    have hc : c ≠ 0 := fun hc => h (by simp [hc])
    rw [sweep_cons hd, if_neg (not_or.mpr ⟨hc, by simp only; omega⟩), strlen_eq_none h]

/-- One entry. -/
theorem sweep_entry (h : mem.drop p = e ++ 0 :: m) (hne : e ≠ []) (h0 : 0 ∉ e)
    (hsize : mem.length ≤ cfg.EMMC_WRITE_BUFF_SIZE) :
    sweep cfg mem ⟨p, n⟩ =
      if Begun e then
        match strlen (mem.drop (p + 8)) with
        | none => ([], none)
        | some _ =>
          if n + 1 = cfg.BOOT_ENV_MODIFIED_NUM then ([str (mem.drop (p + 8))], some ⟨p, n + 1⟩)
          else
            (str (mem.drop (p + 8)) :: (sweep cfg mem ⟨p + e.length + 1, n + 1⟩).1,
              (sweep cfg mem ⟨p + e.length + 1, n + 1⟩).2)
      else if n = cfg.BOOT_ENV_MODIFIED_NUM then ([], some ⟨p, n⟩)
      else sweep cfg mem ⟨p + e.length + 1, n⟩ := by
  obtain ⟨c, u, rfl⟩ := List.exists_cons_of_ne_nil hne
  have hc : c ≠ 0 := fun hc => h0 (by simp [hc])
  have hlen : strlen (c :: (u ++ 0 :: m)) = some (c :: u).length := strlen_append_zero (c :: u) m h0
  have htake : (c :: (u ++ 0 :: m)).take (c :: u).length = c :: u := List.take_left
  rw [List.cons_append] at h
  have hlt := lt_of_drop h
  rw [sweep_cons h, if_neg (not_or.mpr ⟨hc, by simp only; omega⟩), hlen]
  simp only [htake, strncmpEq_begun]

/-- A closed list with fewer versions than are looked for. -/
theorem sweep_pack (hes : Entries es) (h : mem.drop p = pack es ++ 0 :: t)
    (hsize : mem.length ≤ cfg.EMMC_WRITE_BUFF_SIZE)
    (hn : n + (hits es).length < cfg.BOOT_ENV_MODIFIED_NUM) :
    sweep cfg mem ⟨p, n⟩ = (hits es, some ⟨p + (pack es).length, n + (hits es).length⟩) := by
  induction es generalizing p n with
  | nil => exact sweep_zero h
  | cons e es ih =>
    obtain ⟨hne, h0⟩ := hes e (by simp)
    rw [pack_cons, List.append_assoc, List.cons_append] at h
    have hpos : p + e.length + 1 + (pack es).length = p + (pack (e :: es)).length := by
      rw [pack_cons, List.length_append, List.length_cons]
      omega
    rw [sweep_entry h hne h0 hsize]
    by_cases he : Begun e
    · obtain ⟨m, hm, hm0⟩ := drop_begun he hes t
      have hvalue : mem.drop (p + 8) = given e es ++ 0 :: m := by rw [← List.drop_drop, h, hm]
      rw [hits_cons_of_begun he, List.length_cons] at hn
      rw [if_pos he, hvalue, strlen_append_zero _ _ hm0, str_append_zero _ _ hm0]
      simp only
      rw [if_neg (by omega), ih hes.tail (drop_entry h) (by omega), hits_cons_of_begun he, hpos,
        List.length_cons, Nat.add_right_comm n, Nat.add_assoc n]
    · rw [hits_cons_of_not he] at hn ⊢
      rw [if_neg he, if_neg (by omega), ih hes.tail (drop_entry h) hn, hpos]

/-- The version that is the last one looked for. -/
theorem sweep_found (hbefore : Entries before) (hno : ∀ x ∈ before, ¬ Begun x) (hne : e ≠ [])
    (h0 : 0 ∉ e) (he : Begun e) (h : mem.drop p = pack before ++ (e ++ 0 :: m))
    (hv : mem.drop (p + (pack before).length + 8) = v ++ 0 :: t) (hv0 : 0 ∉ v)
    (hsize : mem.length ≤ cfg.EMMC_WRITE_BUFF_SIZE) (hn : n + 1 = cfg.BOOT_ENV_MODIFIED_NUM) :
    sweep cfg mem ⟨p, n⟩ = ([v], some ⟨p + (pack before).length, n + 1⟩) := by
  induction before generalizing p with
  | nil =>
    rw [pack_nil, List.length_nil, Nat.add_zero] at hv ⊢
    rw [sweep_entry h hne h0 hsize, if_pos he, hv, strlen_append_zero _ _ hv0, str_append_zero _ _ hv0]
    simp only
    rw [if_pos hn]
  | cons f before ih =>
    obtain ⟨hfne, hf0⟩ := hbefore f (by simp)
    have hpos : p + f.length + 1 + (pack before).length = p + (pack (f :: before)).length := by
      rw [pack_cons, List.length_append, List.length_cons]
      omega
    rw [pack_cons, List.append_assoc, List.cons_append] at h
    rw [sweep_entry h hfne hf0 hsize, if_neg (hno f (by simp)), if_neg (by omega),
      ih hbefore.tail (fun x hx => hno x (by simp [hx])) (drop_entry h) (by rw [hpos]; exact hv), hpos]

/-- The scan of a chunk found its last version at `e`, the first one there. -/
def FoundAt (mem : Bytes) (p : Nat) (before : List Bytes) (e v : Bytes) : Prop :=
  Entries before ∧ (∀ x ∈ before, ¬ Begun x) ∧ e ≠ [] ∧ 0 ∉ e ∧ Begun e ∧
    (∃ m, mem.drop p = pack before ++ (e ++ 0 :: m)) ∧
      ∃ t, mem.drop (p + (pack before).length + 8) = v ++ 0 :: t ∧ 0 ∉ v

theorem FoundAt.cons {f : Bytes} (hf : f ≠ [] ∧ 0 ∉ f) (hfno : ¬ Begun f)
    (h : mem.drop p = f ++ 0 :: m) (hfound : FoundAt mem (p + f.length + 1) before e v) :
    FoundAt mem p (f :: before) e v := by
  obtain ⟨hbefore, hno, hne, h0, he, ⟨m', hm'⟩, t, ht, hv0⟩ := hfound
  have hpos : p + f.length + 1 + (pack before).length = p + (pack (f :: before)).length := by
    rw [pack_cons, List.length_append, List.length_cons]
    omega
  refine ⟨(entries_singleton hf.1 hf.2).append hbefore, List.forall_mem_cons.mpr ⟨hfno, hno⟩, hne, h0,
    he, ⟨m', ?_⟩, t, by rw [← hpos]; exact ht, hv0⟩
  rw [drop_entry h] at hm'
  rw [h, hm', pack_cons, List.append_assoc, List.cons_append]

/-- An entry in front of a closed list. -/
theorem drop_closed_cons (hne : e ≠ []) (h0 : 0 ∉ e) (h : mem.drop p = e ++ 0 :: m) (hes : Entries es)
    (hrest : mem.drop (p + e.length + 1) = pack es ++ 0 :: t) :
    Entries (e :: es) ∧ mem.drop p = pack (e :: es) ++ 0 :: t := by
  rw [drop_entry h] at hrest
  refine ⟨(entries_singleton hne h0).append hes, ?_⟩
  rw [h, hrest, pack_cons, List.append_assoc, List.cons_append]

/-- What stands behind the name of the first entry of a closed list. -/
theorem eq_given {u : Bytes} (he : Begun e) (hes : Entries (e :: es))
    (h : mem.drop p = pack (e :: es) ++ 0 :: t) (hv : mem.drop (p + 8) = v ++ 0 :: u) (hv0 : 0 ∉ v) :
    v = given e es := by
  obtain ⟨m, hm, hm0⟩ := drop_begun he hes t
  rw [pack_cons, List.append_assoc, List.cons_append] at h
  rw [← List.drop_drop, h, hm] at hv
  rw [← str_append_zero v u hv0, ← hv, str_append_zero _ _ hm0]

/-- **What a scan that stays inside has seen**: a closed list with fewer versions than are
looked for, or as many as that. -/
theorem sweep_some (hsize : mem.length ≤ cfg.EMMC_WRITE_BUFF_SIZE)
    (hn : n < cfg.BOOT_ENV_MODIFIED_NUM) (h : sweep cfg mem ⟨p, n⟩ = (vs, some s)) :
    (∃ es t, Entries es ∧ mem.drop p = pack es ++ 0 :: t ∧ vs = hits es ∧
      n + (hits es).length < cfg.BOOT_ENV_MODIFIED_NUM) ∨
    (n + vs.length = cfg.BOOT_ENV_MODIFIED_NUM ∧
      (vs.length = 1 → ∃ before e v, FoundAt mem p before e v ∧ vs = [v])) := by
  induction hm : mem.length - p using Nat.strongRecOn generalizing p n vs with
  | ind k ih =>
    by_cases h0 : 0 ∈ mem.drop p
    · obtain ⟨e, m, hd, he0⟩ := List.eq_append_cons_of_mem h0
      by_cases hne : e = []
      · rw [hne, List.nil_append] at hd
        rw [sweep_zero hd] at h
        obtain ⟨rfl, -⟩ := Prod.mk.inj h
        exact Or.inl ⟨[], m, entries_nil, hd, rfl, hn⟩
      · have hlt : p < mem.length := by
          obtain ⟨c, u, rfl⟩ := List.exists_cons_of_ne_nil hne
          exact lt_of_drop hd
        have hsmall : mem.length - (p + e.length + 1) < k := by omega
        rw [sweep_entry hd hne he0 hsize] at h
        by_cases he : Begun e
        · rw [if_pos he] at h
          cases hv : strlen (mem.drop (p + 8)) with
          | none =>
            rw [hv] at h
            cases h
          | some j =>
            obtain ⟨v, t, hvt, hv0, -⟩ := eq_append_of_strlen _ _ hv
            rw [hv, hvt, str_append_zero _ _ hv0] at h
            simp only at h
            by_cases hnum : n + 1 = cfg.BOOT_ENV_MODIFIED_NUM
            · rw [if_pos hnum] at h
              obtain ⟨rfl, -⟩ := Prod.mk.inj h
              have hat : FoundAt mem p [] e v :=
                ⟨entries_nil, fun x hx => absurd hx List.not_mem_nil, hne, he0, he, ⟨m, hd⟩, t, hvt, hv0⟩
              exact Or.inr ⟨hnum, fun _ => ⟨[], e, v, hat, rfl⟩⟩
            · rw [if_neg hnum] at h
              generalize hq : sweep cfg mem ⟨p + e.length + 1, n + 1⟩ = q at h
              obtain ⟨vs', o⟩ := q
              simp only [Prod.mk.injEq] at h
              obtain ⟨rfl, rfl⟩ := h
              rcases ih _ hsmall (by omega) hq rfl with ⟨es, t', hes, hdes, rfl, hlt'⟩ | ⟨hlen, -⟩
              · obtain ⟨hes', hclosed⟩ := drop_closed_cons hne he0 hd hes hdes
                refine Or.inl ⟨e :: es, t', hes', hclosed, ?_, ?_⟩
                · rw [hits_cons_of_begun he, eq_given he hes' hclosed hvt hv0]
                · rw [hits_cons_of_begun he, List.length_cons]
                  omega
              · refine Or.inr ⟨by rw [List.length_cons]; omega, fun hone => ?_⟩
                rw [List.length_cons] at hone
                omega
        · rw [if_neg he, if_neg (by omega)] at h
          rcases ih _ hsmall hn h rfl with ⟨es, t, hes, hdes, hvs, hlt'⟩ | ⟨hnum, hone⟩
          · obtain ⟨hes', hclosed⟩ := drop_closed_cons hne he0 hd hes hdes
            refine Or.inl ⟨e :: es, t, hes', hclosed, ?_, ?_⟩
            · rw [hits_cons_of_not he, hvs]
            · rw [hits_cons_of_not he]
              exact hlt'
          · refine Or.inr ⟨hnum, fun hlen => ?_⟩
            obtain ⟨before, e', v, hfound, hvs⟩ := hone hlen
            exact ⟨e :: before, e', v, hfound.cons ⟨hne, he0⟩ he hd, hvs⟩
    · rw [sweep_open h0 hsize] at h
      cases h

theorem getD_of_drop {c : UInt8} (h : mem.drop p = c :: m) : mem.getD p 0 = c := by
  rw [List.getD_eq_getElem?_getD, ← Nat.add_zero p, ← List.getElem?_drop, h]
  rfl

/-- At the end of its list a chunk is not the last. -/
theorem scan_done_zero (h : mem.drop p = 0 :: t) : scan_done cfg mem ⟨p, n⟩ = false := by
  rw [scan_done, decide_eq_false_iff_not]
  exact fun hd => hd.1 (getD_of_drop h)

theorem scan_done_found (h : mem.drop p = e ++ 0 :: m) (hne : e ≠ []) (h0 : 0 ∉ e)
    (hsize : mem.length ≤ cfg.EMMC_WRITE_BUFF_SIZE) (hn : n = cfg.BOOT_ENV_MODIFIED_NUM) :
    scan_done cfg mem ⟨p, n⟩ = true := by
  obtain ⟨c, u, rfl⟩ := List.exists_cons_of_ne_nil hne
  have hlt := lt_of_drop h
  rw [scan_done, decide_eq_true_eq]
  refine ⟨?_, by simp only; omega, hn⟩
  rw [getD_of_drop h]
  exact fun hc => h0 (by simp [hc])

/-! ### Where a chunk ends in the list -/

/-- A closed list at the start of a closed list is the same. -/
theorem eq_of_prefix {fs : List Bytes} {tail : Bytes} (hes : Entries es) (hfs : Entries fs)
    (h : pack fs ++ 0 :: t <+: pack es ++ 0 :: tail) : fs = es := by
  obtain ⟨x, hx⟩ := h
  have hsplit := split_pack hes tail
  rw [← hx, List.append_assoc, List.cons_append, split_pack hfs] at hsplit
  exact Option.some.inj hsplit

/-- And an entry there is one of its entries. -/
theorem exists_rest {tail : Bytes} (hes : Entries es) (hbefore : Entries before) (hne : e ≠ [])
    (h0 : 0 ∉ e) (h : pack before ++ (e ++ 0 :: m) <+: pack es ++ 0 :: tail) :
    ∃ rest, es = before ++ e :: rest := by
  obtain ⟨x, hx⟩ := h
  have hsplit := split_pack hes tail
  have hcat : pack before ++ (e ++ 0 :: m) ++ x = pack (before ++ [e]) ++ (m ++ x) := by
    rw [pack_concat]
    simp
  rw [← hx, hcat, split_pack_append _ _ (hbefore.append (entries_singleton hne h0))] at hsplit
  obtain ⟨rest, -, hrest⟩ := Option.map_eq_some_iff.mp hsplit
  exact ⟨rest, by rw [← hrest, List.append_assoc, List.singleton_append]⟩

/-- A string at the start of a piece of a text. -/
theorem take_string {u : Bytes} {k : Nat} (hv : 0 ∉ v) (hu : 0 ∉ u)
    (h : (u ++ 0 :: m).take k = v ++ 0 :: t) : v = u ∧ u.length < k := by
  have hpre : v ++ 0 :: t <+: u ++ 0 :: m := h ▸ List.take_prefix _ _
  obtain ⟨x, hx⟩ := hpre
  have hstr : v = u := by
    rw [← str_append_zero u m hu, ← hx, List.append_assoc, List.cons_append, str_append_zero _ _ hv]
  have hlen := congrArg List.length h
  rw [List.length_take, List.length_append, List.length_append, List.length_cons, List.length_cons,
    hstr] at hlen
  exact ⟨hstr, by omega⟩

theorem take_string_of_lt {u : Bytes} {k : Nat} (h : u.length < k) (m : Bytes) :
    ∃ t, (u ++ 0 :: m).take k = u ++ 0 :: t := by
  refine ⟨m.take (k - u.length - 1), ?_⟩
  rw [List.take_append, List.take_of_length_le h.le]
  obtain ⟨j, hj⟩ : ∃ j, k - u.length = j + 1 := ⟨k - u.length - 1, by omega⟩
  rw [hj, List.take_succ_cons, Nat.add_sub_cancel]

end Lists

/-! ### Agreement -/

/-- The first entry that begins with the name, and what it gives, end inside the first
chunk. -/
def FoundInside (cfg : Config) (es : List Bytes) : Prop :=
  ∃ before e rest, es = before ++ e :: rest ∧ (∀ x ∈ before, ¬ Begun x) ∧ Begun e ∧
    4 + (pack before).length + 8 + (given e rest).length < cfg.EMMC_WRITE_BUFF_SIZE

/-- A chunk that begins with a closed list, and no version in it. -/
def Quiet (mem : Bytes) : Prop := ∃ l, split mem = some l ∧ ∀ e ∈ l, ¬ Begun e

/-- When the chunks make no difference: the first entry that begins with the name gives
what the first of that name does; and either one version is looked for and is found inside
the first chunk, or the list ends inside the first chunk with at most one version, and
none of the other chunks holds any. -/
def Undivided (cfg : Config) (block : Bytes) (es : List Bytes) : Prop :=
  (hits es).head? = version es ∧
    (cfg.BOOT_ENV_MODIFIED_NUM = 1 ∧ FoundInside cfg es ∨
      4 + (pack es).length < cfg.EMMC_WRITE_BUFF_SIZE ∧ (hits es).length ≤ 1 ∧
        ∀ i, 0 < i → i < cfg.BOOT_ENV_SIZE / cfg.EMMC_WRITE_BUFF_SIZE → Quiet (chunk cfg block i))

section Agree

variable {cfg : Config} {crc tail : Bytes} {es : List Bytes} {n i setenv_num : Nat} {mem : Bytes}

theorem quiet_iff : Quiet mem ↔ ∃ l t, Entries l ∧ mem = pack l ++ 0 :: t ∧ hits l = [] := by
  constructor
  · rintro ⟨l, hl, hno⟩
    obtain ⟨hent, t, ht⟩ := split_eq_some.mp hl
    exact ⟨l, t, hent, ht, hits_eq_nil_iff.mpr hno⟩
  · rintro ⟨l, t, hent, ht, hno⟩
    exact ⟨l, split_eq_some.mpr ⟨hent, t, ht⟩, hits_eq_nil_iff.mp hno⟩

theorem length_chunk_le (cfg : Config) (block : Bytes) (i : Nat) :
    (chunk cfg block i).length ≤ cfg.EMMC_WRITE_BUFF_SIZE := List.length_take_le _ _

/-- A chunk with a closed list and fewer versions than are looked for. -/
theorem sweeps_closed {block t : Bytes} {l : List Bytes} (hl : Entries l)
    (h : (chunk cfg block i).drop (if i = 0 then 4 else 0) = pack l ++ 0 :: t)
    (hn : setenv_num + (hits l).length < cfg.BOOT_ENV_MODIFIED_NUM) :
    sweeps cfg block (n + 1) i setenv_num
      = (hits l ++ (sweeps cfg block n (i + 1) (setenv_num + (hits l).length)).1,
        (sweeps cfg block n (i + 1) (setenv_num + (hits l).length)).2) := by
  rw [sweeps, sweep_pack hl h (length_chunk_le cfg block i) hn]
  simp only
  rw [scan_done_zero (drop_pack_left h), if_neg Bool.false_ne_true]

/-- What the scan has seen in a chunk that it does not leave. -/
theorem sweeps_true {block : Bytes} {ws : List Bytes} (hn : setenv_num < cfg.BOOT_ENV_MODIFIED_NUM)
    (h : sweeps cfg block (n + 1) i setenv_num = (ws, true)) :
    (∃ l t, Entries l ∧ (chunk cfg block i).drop (if i = 0 then 4 else 0) = pack l ++ 0 :: t ∧
      setenv_num + (hits l).length < cfg.BOOT_ENV_MODIFIED_NUM) ∨
    ∃ vs, vs.length ≤ ws.length ∧ setenv_num + vs.length = cfg.BOOT_ENV_MODIFIED_NUM ∧
      (vs.length = 1 →
        ∃ before e v, FoundAt (chunk cfg block i) (if i = 0 then 4 else 0) before e v ∧ vs = [v]) := by
  rw [sweeps] at h
  cases hs : sweep cfg (chunk cfg block i) ⟨if i = 0 then 4 else 0, setenv_num⟩ with
  | mk vs o =>
    rw [hs] at h
    cases o with
    | none => cases h
    | some s =>
      simp only at h
      have hvs : vs.length ≤ ws.length := by
        split at h
        · rw [(Prod.mk.inj h).1]
        · rw [← (Prod.mk.inj h).1, List.length_append]
          exact Nat.le_add_right _ _
      rcases sweep_some (length_chunk_le cfg block i) hn hs with ⟨l, t, hl, hd, -, hfew⟩ | ⟨hall, hone⟩
      · exact Or.inl ⟨l, t, hl, hd, hfew⟩
      · exact Or.inr ⟨vs, hvs, hall, hone⟩

/-- Behind the first chunk nothing is given exactly when every chunk is quiet. -/
theorem sweeps_quiet_iff {block : Bytes} (hi : 0 < i) (hn : setenv_num < cfg.BOOT_ENV_MODIFIED_NUM) :
    sweeps cfg block n i setenv_num = ([], true) ↔
      ∀ j, i ≤ j → j < i + n → Quiet (chunk cfg block j) := by
  induction n generalizing i with
  | zero => exact iff_of_true rfl fun j h h' => absurd h (by omega)
  | succ n ih =>
    have hhead : (∀ j, i ≤ j → j < i + (n + 1) → Quiet (chunk cfg block j)) ↔
        Quiet (chunk cfg block i) ∧ ∀ j, i + 1 ≤ j → j < i + 1 + n → Quiet (chunk cfg block j) := by
      constructor
      · exact fun h => ⟨h i le_rfl (by omega), fun j hj hj' => h j (by omega) (by omega)⟩
      · rintro ⟨h, h'⟩ j hj hj'
        rcases Nat.eq_or_lt_of_le hj with rfl | hlt
        · exact h
        · exact h' j hlt (by omega)
    have hzero : (if i = 0 then 4 else 0) = 0 := if_neg (Nat.pos_iff_ne_zero.mp hi)
    rw [hhead]
    constructor
    · intro h
      rcases sweeps_true hn h with ⟨l, t, hl, hd, hfew⟩ | ⟨vs, hvs, hnum, -⟩
      · rw [sweeps_closed hl hd hfew] at h
        have hnil : hits l = [] := (List.append_eq_nil_iff.mp (Prod.mk.inj h).1).1
        rw [hnil, List.nil_append, List.length_nil, Nat.add_zero setenv_num] at h
        rw [hzero] at hd
        exact ⟨quiet_iff.mpr ⟨l, t, hl, hd, hnil⟩, (ih (Nat.succ_pos i)).mp h⟩
      · rw [List.length_nil] at hvs
        omega
    · rintro ⟨hq, hrest⟩
      obtain ⟨l, t, hl, hd, hnil⟩ := quiet_iff.mp hq
      have hfew : setenv_num + (hits l).length < cfg.BOOT_ENV_MODIFIED_NUM := by
        rw [hnil]
        exact hn
      have hnext := (ih (Nat.add_one_pos i)).mpr hrest
      have hclosed : (chunk cfg block i).drop (if i = 0 then 4 else 0) = pack l ++ 0 :: t := by
        rw [hzero]
        exact hd
      rw [sweeps_closed hl hclosed hfew, hnil, List.length_nil, Nat.add_zero setenv_num, hnext]
      rfl

/-- The first chunk, behind the CRC. -/
theorem drop_first (hcrc : crc.length = 4) :
    (chunk cfg (crc ++ (pack es ++ 0 :: tail)) 0).drop 4
      = (pack es ++ 0 :: tail).take (cfg.EMMC_WRITE_BUFF_SIZE - 4) := by
  rw [chunk, Nat.zero_mul, List.drop_zero, List.drop_take]
  congr 1
  exact List.drop_left' hcrc

/-- The list ends inside the first chunk. -/
theorem first_closed (tail : Bytes) (hcrc : crc.length = 4)
    (h : 4 + (pack es).length < cfg.EMMC_WRITE_BUFF_SIZE) :
    ∃ t, (chunk cfg (crc ++ (pack es ++ 0 :: tail)) 0).drop 4 = pack es ++ 0 :: t := by
  rw [drop_first hcrc]
  obtain ⟨k, hk⟩ : ∃ k, cfg.EMMC_WRITE_BUFF_SIZE - 4 - (pack es).length = k + 1 :=
    ⟨cfg.EMMC_WRITE_BUFF_SIZE - 4 - (pack es).length - 1, by omega⟩
  exact ⟨tail.take k, by
    rw [List.take_append, List.take_of_length_le (by omega), hk, List.take_succ_cons]⟩

theorem closed_first (hcrc : crc.length = 4) (hes : Entries es) {fs : List Bytes} {t : Bytes}
    (hfs : Entries fs)
    (h : (chunk cfg (crc ++ (pack es ++ 0 :: tail)) 0).drop 4 = pack fs ++ 0 :: t) :
    fs = es ∧ 4 + (pack es).length < cfg.EMMC_WRITE_BUFF_SIZE := by
  rw [drop_first hcrc] at h
  obtain rfl := eq_of_prefix hes hfs (h ▸ List.take_prefix _ _)
  have hlen := congrArg List.length h
  rw [List.length_take, List.length_append, List.length_append, List.length_cons, List.length_cons]
    at hlen
  exact ⟨rfl, by omega⟩

/-- What stands behind the name of an entry, in the first chunk. -/
theorem drop_value (cfg : Config) (tail : Bytes) {before rest : List Bytes} {e : Bytes}
    (hcrc : crc.length = 4) (hes : Entries (before ++ e :: rest)) (he : Begun e) :
    0 ∉ given e rest ∧
      ∃ m, (chunk cfg (crc ++ (pack (before ++ e :: rest) ++ 0 :: tail)) 0).drop
          (4 + (pack before).length + 8)
        = (given e rest ++ 0 :: m).take
            (cfg.EMMC_WRITE_BUFF_SIZE - 4 - ((pack before).length + 8)) := by
  have hrest : Entries (e :: rest) := fun x hx => hes x (List.mem_append_right _ hx)
  obtain ⟨m, hm, hm0⟩ := drop_begun he hrest tail
  refine ⟨hm0, m, ?_⟩
  rw [Nat.add_assoc 4, ← List.drop_drop, drop_first hcrc, List.drop_take, ← List.drop_drop,
    pack_append, List.append_assoc, List.drop_left, pack_cons, List.append_assoc, List.cons_append, hm]

/-- A version that the scan of the first chunk finds ends inside it. -/
theorem foundInside_of_foundAt {before : List Bytes} {e v : Bytes} (hcrc : crc.length = 4)
    (hes : Entries es)
    (h : FoundAt (chunk cfg (crc ++ (pack es ++ 0 :: tail)) 0) 4 before e v) : FoundInside cfg es := by
  obtain ⟨hbefore, hno, hne, h0, he, ⟨m, hm⟩, t, ht, hv0⟩ := h
  rw [drop_first hcrc] at hm
  obtain ⟨rest, rfl⟩ := exists_rest hes hbefore hne h0 (hm ▸ List.take_prefix _ _)
  obtain ⟨hgiven, m', hm'⟩ := drop_value cfg tail hcrc hes he
  obtain ⟨rfl, hlt⟩ := take_string hv0 hgiven (hm'.symm.trans ht)
  exact ⟨before, e, rest, rfl, hno, he, by omega⟩

/-- And one that ends inside it is found. -/
theorem foundAt_of_foundInside (tail : Bytes) (hcrc : crc.length = 4) (hes : Entries es)
    (h : FoundInside cfg es) :
    ∃ before e v, FoundAt (chunk cfg (crc ++ (pack es ++ 0 :: tail)) 0) 4 before e v ∧
      (hits es).head? = some v := by
  obtain ⟨before, e, rest, rfl, hno, he, hlt⟩ := h
  obtain ⟨hgiven, m, hm⟩ := drop_value cfg tail hcrc hes he
  obtain ⟨hne, h0⟩ := hes e (by simp)
  obtain ⟨t, ht⟩ := take_string_of_lt
    (show (given e rest).length < cfg.EMMC_WRITE_BUFF_SIZE - 4 - ((pack before).length + 8) by omega) m
  have hshort : (pack before ++ e).length < cfg.EMMC_WRITE_BUFF_SIZE - 4 := by
    have hseven := length_of_begun he
    rw [List.length_append]
    rw [given] at hlt
    split at hlt
    · omega
    · rw [List.length_drop] at hlt
      omega
  obtain ⟨t', ht'⟩ := take_string_of_lt hshort (pack rest ++ 0 :: tail)
  have hentry : (chunk cfg (crc ++ (pack (before ++ e :: rest) ++ 0 :: tail)) 0).drop 4
      = pack before ++ (e ++ 0 :: t') := by
    rw [drop_first hcrc, ← List.append_assoc, ← ht']
    simp
  refine ⟨before, e, given e rest, ⟨fun x hx => hes x (by simp [hx]), hno, hne, h0, he, ⟨t', hentry⟩, t,
    hm.trans ht, hgiven⟩, ?_⟩
  rw [hits_append hno, hits_cons_of_begun he]
  rfl

/-- In a list that ends inside the first chunk the first version does so too. -/
theorem foundInside_of_closed (h : 4 + (pack es).length < cfg.EMMC_WRITE_BUFF_SIZE)
    (hhits : hits es ≠ []) : FoundInside cfg es := by
  rcases exists_begun es with hno | ⟨before, e, rest, rfl, hno, he⟩
  · exact absurd (hits_eq_nil_iff.mpr hno) hhits
  · refine ⟨before, e, rest, rfl, hno, he, ?_⟩
    have hseven := length_of_begun he
    rw [pack_append, pack_cons, List.length_append, List.length_append, List.length_cons] at h
    rw [given]
    split
    · cases rest with
      | nil =>
        rw [List.headD_nil, List.length_nil]
        omega
      | cons f rest =>
        rw [pack_cons, List.length_append, List.length_cons] at h
        rw [List.headD_cons]
        omega
    · rw [List.length_drop]
      omega

/-- A list of at most one element is its head. -/
theorem toList_head? {α : Type} {l : List α} (h : l.length ≤ 1) : l.head?.toList = l := by
  cases l with
  | nil => rfl
  | cons a l =>
    obtain rfl : l = [] := List.length_eq_zero_iff.mp (by rw [List.length_cons] at h; omega)
    rfl

/-- The one version that is looked for ends inside the first chunk. -/
theorem sweeps_found (hone : cfg.BOOT_ENV_MODIFIED_NUM = 1) (hcrc : crc.length = 4) (hes : Entries es)
    (hin : FoundInside cfg es) :
    sweeps cfg (crc ++ (pack es ++ 0 :: tail)) (n + 1) 0 0 = ((hits es).head?.toList, true) := by
  have hsize := length_chunk_le cfg (crc ++ (pack es ++ 0 :: tail)) 0
  obtain ⟨before, e, v, ⟨hbefore, hno, hne, h0, he, ⟨m, hm⟩, t, ht, hv0⟩, hv⟩ :=
    foundAt_of_foundInside tail hcrc hes hin
  rw [sweeps, if_pos rfl, sweep_found hbefore hno hne h0 he hm ht hv0 hsize (by omega)]
  simp only
  rw [scan_done_found (drop_pack_left hm) hne h0 hsize (by omega), if_pos rfl, hv]
  rfl

/-- **The scan in chunks** gives what the first version of the list does and stays inside. -/
theorem sweeps_iff (tail : Bytes) (hnum : 0 < cfg.BOOT_ENV_MODIFIED_NUM) (hcrc : crc.length = 4)
    (hes : Entries es) (hpos : 0 < cfg.BOOT_ENV_SIZE / cfg.EMMC_WRITE_BUFF_SIZE) :
    sweeps cfg (crc ++ (pack es ++ 0 :: tail)) (cfg.BOOT_ENV_SIZE / cfg.EMMC_WRITE_BUFF_SIZE) 0 0
        = ((hits es).head?.toList, true) ↔
      cfg.BOOT_ENV_MODIFIED_NUM = 1 ∧ FoundInside cfg es ∨
        4 + (pack es).length < cfg.EMMC_WRITE_BUFF_SIZE ∧ (hits es).length ≤ 1 ∧
          ∀ i, 0 < i → i < cfg.BOOT_ENV_SIZE / cfg.EMMC_WRITE_BUFF_SIZE →
            Quiet (chunk cfg (crc ++ (pack es ++ 0 :: tail)) i) := by
  obtain ⟨q, hq⟩ : ∃ q, cfg.BOOT_ENV_SIZE / cfg.EMMC_WRITE_BUFF_SIZE = q + 1 :=
    ⟨cfg.BOOT_ENV_SIZE / cfg.EMMC_WRITE_BUFF_SIZE - 1, by omega⟩
  have hquiet : ∀ k, k < cfg.BOOT_ENV_MODIFIED_NUM →
      (sweeps cfg (crc ++ (pack es ++ 0 :: tail)) q 1 k = ([], true) ↔
        ∀ i, 0 < i → i < cfg.BOOT_ENV_SIZE / cfg.EMMC_WRITE_BUFF_SIZE →
          Quiet (chunk cfg (crc ++ (pack es ++ 0 :: tail)) i)) := by
    intro k hk
    rw [sweeps_quiet_iff Nat.one_pos hk, hq, Nat.add_comm 1 q]
    exact Iff.rfl
  have hhead : (hits es).head?.toList.length ≤ 1 := by
    cases hits es <;> simp
  constructor
  · intro h
    rw [hq] at h
    rcases sweeps_true hnum h with ⟨fs, t, hfs, hd, hfew⟩ | ⟨vs, hvs, hall, hone⟩
    · obtain ⟨rfl, hlt⟩ := closed_first hcrc hes hfs hd
      rw [sweeps_closed hfs hd hfew, Nat.zero_add, Nat.zero_add] at h
      obtain ⟨hgiven, hok⟩ := Prod.mk.inj h
      have hlen := congrArg List.length hgiven
      rw [List.length_append] at hlen
      rw [toList_head? (by omega)] at hgiven
      exact Or.inr ⟨hlt, by omega, (hquiet _ (by omega)).mp
        (Prod.ext (List.append_right_eq_self.mp hgiven) hok)⟩
    · obtain ⟨before, e, v, hat, -⟩ := hone (by omega)
      exact Or.inl ⟨by omega, foundInside_of_foundAt hcrc hes hat⟩
  · intro h
    rw [hq]
    rcases h with ⟨hone, hin⟩ | ⟨hlt, hfew, hrest⟩
    · exact sweeps_found hone hcrc hes hin
    · by_cases hless : (hits es).length < cfg.BOOT_ENV_MODIFIED_NUM
      · obtain ⟨t, hd⟩ := first_closed tail hcrc hlt
        have hfirst := sweeps_closed (n := q) (i := 0) hes hd
          (show 0 + (hits es).length < cfg.BOOT_ENV_MODIFIED_NUM by omega)
        rw [hfirst, Nat.zero_add, Nat.zero_add, (hquiet _ (by omega)).mpr hrest, List.append_nil,
          toList_head? hfew]
      · have hsome : hits es ≠ [] := by
          intro hnil
          rw [hnil, List.length_nil] at hless
          omega
        exact sweeps_found (by omega) hcrc hes (foundInside_of_closed hlt hsome)

/-- Both scans give `bootenv_set` the value of the first entry named exactly `version`,
once, or nothing when there is none, and neither looks outside its buffer: behind it lies
nothing at all here. -/
structure Agrees (cfg : Config) (image buf : Bytes) (es : List Bytes) : Prop where
  chunks : ∀ ok w, Run (noted image) (scan_env cfg [] buf) [] (some ok) w ↔
    ok = true ∧ w = (version es).toList
  piece : ∀ ok w, Run Iburn.noted (set_version_in cfg.BOOT_ENV_SIZE (block cfg image)) [] (some ok) w ↔
    ok = true ∧ w = (version es).toList

theorem toList_injective {α : Type} {a b : Option α} (h : a.toList = b.toList) : a = b := by
  cases a with
  | none =>
    cases b with
    | none => rfl
    | some b => cases h
  | some a =>
    cases b with
    | none => cases h
    | some b =>
      obtain rfl : a = b := by simpa using h
      rfl

/-- A first chunk that takes the scan out of the buffer. -/
theorem sweeps_none {block : Bytes} {vs : List Bytes} (n : Nat)
    (h : sweep cfg (chunk cfg block 0) ⟨4, 0⟩ = (vs, none)) :
    sweeps cfg block (n + 1) 0 0 = (vs, false) := by
  rw [sweeps, if_pos rfl, h]

/-- Small chunks and a small block, at the start of the file. -/
def chunkConfig (size env : Nat) : Config :=
  { tinyConfig with EMMC_WRITE_BUFF_SIZE := size, CFG_ENV_OFFSET := 0, BOOT_ENV_SIZE := env }

/-- **The scan in chunks is the scan in one piece** on the undivided blocks and no others,
for every block with a closed list and every size of the chunks that divides it. -/
theorem chunks_agree_iff {image buf : Bytes} (hnum : 0 < cfg.BOOT_ENV_MODIFIED_NUM)
    (hdvd : cfg.EMMC_WRITE_BUFF_SIZE ∣ cfg.BOOT_ENV_SIZE)
    (hbuf : buf.length = cfg.EMMC_WRITE_BUFF_SIZE) (hcrc : crc.length = 4) (hes : Entries es)
    (hblock : block cfg image = crc ++ (pack es ++ 0 :: tail))
    (hsize : (block cfg image).length = cfg.BOOT_ENV_SIZE) :
    Agrees cfg image buf es ↔ Undivided cfg (block cfg image) es := by
  have hsome : 0 < cfg.BOOT_ENV_SIZE := by
    rw [← hsize, hblock, List.length_append]
    omega
  have hpos : 0 < cfg.BOOT_ENV_SIZE / cfg.EMMC_WRITE_BUFF_SIZE :=
    Nat.div_pos (Nat.le_of_dvd hsome hdvd) (Nat.pos_of_dvd_of_pos hdvd hsome)
  have hscan := run_scan_env hsize hbuf []
  have hpiece := run_set_version_in tail hcrc hes []
  have hsweeps := sweeps_iff tail hnum hcrc hes hpos
  rw [← hblock] at hpiece hsweeps
  rw [hsize] at hpiece
  rw [Undivided, ← hsweeps]
  constructor
  · intro h
    have hhead : (hits es).head?.toList = (version es).toList := by
      have := (h.piece true _).mp ((hpiece true _).mpr ⟨rfl, rfl⟩)
      simpa using this
    obtain ⟨hok, hvs⟩ := (h.chunks _ _).mp ((hscan _ _).mpr ⟨rfl, rfl⟩)
    exact ⟨toList_injective hhead, Prod.ext (by rw [hhead]; exact hvs) hok⟩
  · rintro ⟨hhead, hall⟩
    refine ⟨fun ok w => ?_, fun ok w => ?_⟩
    · rw [hscan, hall, hhead]
      simp
    · rw [hpiece, hhead]
      simp

/-- A version in the first of two chunks. -/
theorem chunks_agree_two :
    version [asc "version=2"] = some (asc "2") ∧
      Agrees (chunkConfig 16 32) (List.replicate 4 0 ++ (pack [asc "version=2"] ++ 0 :: List.replicate 17 0))
        (List.replicate 16 0) [asc "version=2"] := by
  have hbegun : Begun (asc "version=2") := by decide
  have hinside : FoundInside (chunkConfig 16 32) [asc "version=2"] :=
    ⟨[], _, [], rfl, fun x hx => absurd hx List.not_mem_nil, hbegun, by decide⟩
  have hblock : block (chunkConfig 16 32)
      (List.replicate 4 0 ++ (pack [asc "version=2"] ++ 0 :: List.replicate 17 0))
      = List.replicate 4 0 ++ (pack [asc "version=2"] ++ 0 :: List.replicate 17 0) := rfl
  refine ⟨by decide, ?_⟩
  exact (chunks_agree_iff (by decide) (by decide) rfl rfl (by decide) hblock rfl).mpr
    ⟨by decide, Or.inl ⟨rfl, hinside⟩⟩

/-- An entry that ends with the first chunk: the scan looks behind the buffer. -/
theorem chunks_leave_buffer :
    ¬ ∀ (cfg : Config) (image buf crc tail : Bytes) (es : List Bytes),
      0 < cfg.BOOT_ENV_MODIFIED_NUM → cfg.EMMC_WRITE_BUFF_SIZE ∣ cfg.BOOT_ENV_SIZE →
      buf.length = cfg.EMMC_WRITE_BUFF_SIZE → crc.length = 4 → Entries es →
      block cfg image = crc ++ (pack es ++ 0 :: tail) →
      (block cfg image).length = cfg.BOOT_ENV_SIZE → Agrees cfg image buf es := by
  intro h
  -- `a=1` and its NUL fill the first chunk behind the CRC
  have hagree := h (chunkConfig 8 24)
    (List.replicate 4 0 ++ (pack [asc "a=1", asc "version=2"] ++ 0 :: List.replicate 5 0))
    (List.replicate 8 0) (List.replicate 4 0) (List.replicate 5 0) [asc "a=1", asc "version=2"]
    (by decide) (by decide) rfl rfl (by decide) rfl rfl
  have hsweep : sweep (chunkConfig 8 24) [0, 0, 0, 0, 97, 61, 49, 0] ⟨4, 0⟩ = ([], none) := by
    rw [sweep_entry (show _ = ([97, 61, 49] : Bytes) ++ 0 :: [] from rfl) (by decide) (by decide) le_rfl,
      if_neg (by decide), if_neg (by decide)]
    exact sweep_nil rfl
  have hsweeps : sweeps (chunkConfig 8 24) (block (chunkConfig 8 24)
      (List.replicate 4 0 ++ (pack [asc "a=1", asc "version=2"] ++ 0 :: List.replicate 5 0))) 3 0 0
      = ([], false) := sweeps_none 2 hsweep
  have hcrash := (hagree.chunks false []).mp
    ((run_scan_env rfl rfl _ _ _).mpr ⟨(congrArg Prod.snd hsweeps).symm, (congrArg Prod.fst hsweeps).symm⟩)
  exact Bool.false_ne_true hcrash.1

end Agree

end Boxing.Ig9
