import Boxing.Ig9.Upgrade

/-!
# What a rejected image leaves behind

The function checks the file after it has dealt with `-u`: by then the boot loader
partition is erased and written again, and the version in the boot environment is
set.  So a rejected file leaves the flash alone exactly when there was no `-u` — and
with `-u` there is always a run to the rejecting exit that has changed the boot
loader (`rejected_unchanged_iff`).  One has to be found for every configuration and
every file, with the loops on the way coming to their ends: `run_copy`, `run_scan`
and `run_blocks` give a measure each.

A `read` or an `mmap` gives what is in the file, or fails; an erase or a write can
do anything to its own partition and nothing to any other.
-/

namespace Boxing.Ig9

open C Device

/-! ### The flash -/

/-- What is in the five places the upgrade can write. -/
structure Flash where
  bootloader : Bytes
  bootenv : Bytes
  firstos : Bytes
  secondos : Bytes
  bootflag : BitVec 32

/-- Anything may have happened to `part`, and nothing elsewhere. -/
def Flash.Changed (w : Flash) : Part → Flash → Prop
  | .bootloader, w' => ∃ c, w' = { w with bootloader := c }
  | .firstos, w' => ∃ c, w' = { w with firstos := c }
  | .secondos, w' => ∃ c, w' = { w with secondos := c }
  | .bootflag, w' => ∃ c, w' = { w with bootflag := c }

/-- The calls, with the firmware file `image`. -/
def flashStep (image : Bytes) : Flash → (c : IgCall) → IgRet c → Flash → Prop
  | w, .f_exists, _, w' => w' = w
  | w, .open_file, _, w' => w' = w
  | w, .fstat, r, w' => r = image.length ∧ w' = w
  | w, .mtd_erase part _ _, _, w' => w.Changed part w'
  | w, .part_open _, _, w' => w' = w
  | w, .read pos len, r, w' => (r = none ∨ r = some ((image.drop pos).take len)) ∧ w' = w
  | w, .write part _ _, _, w' => w.Changed part w'
  | w, .bootenv_set _ _, _, w' => ∃ c, w' = { w with bootenv := c }
  | w, .mmap pos len, r, w' => (r = none ∨ r = some ((image.drop pos).take len)) ∧ w' = w
  | w, .munmap, _, w' => w' = w
  | w, .read_bootflag, _, w' => w' = w
  | w, .set_bootflag _, _, w' => w.Changed .bootflag w'

/-- The power may go before, during and after each call. -/
def flash (image : Bytes) : Sem IgRet Flash where
  step := flashStep image
  cut := fun w c w' => w' = w ∨ ∃ r, flashStep image w c r w'

/-! ### What the checks say of a file -/

section Accepted

variable (cfg : Config) (image : Bytes)

/-- The header at `OS_IMG_START`, with zeros where the file ends. -/
def header : Bytes := padded fdtHeaderSize ((image.drop cfg.OS_IMG_START).take fdtHeaderSize)

/-- The image as it is mapped. -/
def mapped : Bytes := (image.drop cfg.OS_IMG_START).take (fdt_totalsize (header cfg image))

/-- The file passes all four checks. -/
def accepted : Prop :=
  fdt_check_header (header cfg image) = 0 ∧
    too_short cfg (int32 image.length) (fdt_totalsize (header cfg image)) = false ∧
      cfg.fit_check_format (mapped cfg image) = true ∧
        cfg.fit_all_image_verify (mapped cfg image) = true

instance : Decidable (accepted cfg image) := by
  unfold accepted
  infer_instance

end Accepted

section Keeps

variable {cfg : Config} {image : Bytes} {w : Flash}

theorem looks_step {c : IgCall} {r : IgRet c} {w' : Flash} (hc : Looks c)
    (hs : flashStep image w c r w') : w' = w := by
  cases c with
  | read pos len => exact hs.2
  | mmap pos len => exact hs.2
  | munmap => exact hs
  | _ => exact hc.elim

/-- The checks leave the flash as it is. -/
theorem check_image_keeps {datalen : Int} {o : Option (Option Exit)} {w' : Flash}
    (h : Run (flash image) (check_image cfg datalen) w o w') : w' = w := by
  refine h.keeps_eq id (fun _ _ _ _ hc hs => looks_step hc hs) ?_ (only_check cfg datalen)
  rintro v c v' hc (rfl | ⟨r, hs⟩)
  · rfl
  · exact looks_step hc hs

/-- **A file that passes the checks is not rejected.** -/
theorem check_image_accepted (ha : accepted cfg image) {o : Option Exit} {w' : Flash}
    (h : Run (flash image) (check_image cfg (int32 image.length)) w (some o) w') :
    ∀ e, o = some e → ¬ e.rejected := by
  obtain ⟨hhead, hsize, hformat, hhash⟩ := ha
  have hread : ∀ e : Exit, e ∈ [.readFailed, .mmapFailed, .munmapFailed] → ¬ e.rejected := by
    intro e he hr
    rcases hr with rfl | rfl | rfl | rfl
    · exact absurd he (by decide)
    · exact absurd he (by decide)
    · exact absurd he (by decide)
    · exact absurd he (by decide)
  rw [check_image, Prog.ask_bind, Run.some_call] at h
  obtain ⟨r, w₁, ⟨hr, rfl⟩, h⟩ := h
  rcases hr with rfl | rfl
  · obtain ⟨rfl, -⟩ := Run.some_pure.mp h
    rintro e ⟨⟩
    exact hread _ (by decide)
  replace h : Run (flash image) (check_header cfg (int32 image.length) (header cfg image)) w₁
      (some o) w' := h
  rw [check_header, if_neg (not_not.mpr hhead), hsize, if_neg (by decide), Prog.ask_bind,
    Run.some_call] at h
  obtain ⟨p_map, w₂, ⟨hp, rfl⟩, h⟩ := h
  rcases hp with rfl | rfl
  · obtain ⟨rfl, -⟩ := Run.some_pure.mp h
    rintro e ⟨⟩
    exact hread _ (by decide)
  have hformat' : ¬ cfg.fit_check_format (mapped cfg image) = false := by rw [hformat]; decide
  have hhash' : ¬ cfg.fit_all_image_verify (mapped cfg image) = false := by rw [hhash]; decide
  rw [mapped] at hformat' hhash'
  simp only [if_neg hformat', if_neg hhash'] at h
  rw [Prog.ask_bind, Run.some_call] at h
  obtain ⟨ret, w₃, rfl, h⟩ := h
  split at h
  · obtain ⟨rfl, -⟩ := Run.some_pure.mp h
    rintro e ⟨⟩
    exact hread _ (by decide)
  · obtain ⟨rfl, -⟩ := Run.some_pure.mp h
    rintro e ⟨⟩

/-- From the flag on nothing is rejected any more. -/
theorem write_bank_not_rejected {buf : Bytes} {e : Exit} {w' : Flash}
    (h : Run (flash image) (write_bank cfg buf) w (some e) w') : ¬ e.rejected := by
  rw [write_bank, Prog.ask_bind, Run.some_call] at h
  obtain ⟨fd, w₁, -, h⟩ := h
  split at h
  · obtain ⟨rfl, -⟩ := Run.some_pure.mp h
    exact by simp [Exit.rejected]
  rw [Prog.ask_bind, Run.some_call] at h
  obtain ⟨bootflag, w₂, -, h⟩ := h
  rw [Prog.ask_bind, Run.some_call] at h
  obtain ⟨r, w₃, -, h⟩ := h
  rw [Prog.ask_bind, Run.some_call] at h
  obtain ⟨OsFd, w₄, -, h⟩ := h
  split at h
  · obtain ⟨rfl, -⟩ := Run.some_pure.mp h
    exact by simp [Exit.rejected]
  rw [Run.some_bind] at h
  obtain ⟨u, w₅, -, h⟩ := h
  rw [Prog.ask_bind, Run.some_call] at h
  obtain ⟨err, w₆, -, h⟩ := h
  split at h
  · obtain ⟨rfl, -⟩ := Run.some_pure.mp h
    exact by simp [Exit.rejected]
  · obtain ⟨rfl, -⟩ := Run.some_pure.mp h
    exact by simp [Exit.rejected]

/-- The boot loader part has no rejecting exit. -/
theorem upgrade_bootloader_not_rejected {buf behind : Bytes} {e : Exit} {w' : Flash}
    (h : Run (flash image) (upgrade_bootloader cfg buf behind) w (some (some e)) w') :
    ¬ e.rejected := by
  rw [upgrade_bootloader, Prog.ask_bind, Run.some_call] at h
  obtain ⟨r, w₁, -, h⟩ := h
  rw [Prog.ask_bind, Run.some_call] at h
  obtain ⟨bootFd, w₂, -, h⟩ := h
  split at h
  · obtain ⟨he, -⟩ := Run.some_pure.mp h
    obtain rfl := Option.some.inj he
    exact by simp [Exit.rejected]
  rw [Run.some_bind] at h
  obtain ⟨copy, w₃, -, h⟩ := h
  rw [Run.some_bind] at h
  obtain ⟨ok, w₄, -, h⟩ := h
  split at h
  · obtain ⟨he, -⟩ := Run.some_pure.mp h
    cases he
  · obtain ⟨he, -⟩ := Run.some_pure.mp h
    obtain rfl := Option.some.inj he
    exact by simp [Exit.rejected]

/-- A rejecting exit behind the boot loader part comes from the checks, and those
have changed nothing. -/
theorem check_and_write_rejected {buf : Bytes} {e : Exit} {w' : Flash}
    (h : Run (flash image) (check_and_write cfg buf (int32 image.length)) w (some e) w')
    (he : e.rejected) : w' = w ∧ ¬ accepted cfg image := by
  rw [check_and_write, Run.some_bind] at h
  obtain ⟨checked, w₁, hcheck, h⟩ := h
  obtain rfl : w₁ = w := check_image_keeps hcheck
  cases checked with
  | none => exact absurd he (write_bank_not_rejected h)
  | some e' =>
    obtain ⟨rfl, rfl⟩ := Run.some_pure.mp h
    exact ⟨rfl, fun ha => check_image_accepted ha hcheck e rfl he⟩

/-- **Where nothing is lost.**  Without `-u`, or with a file that passes, a rejecting
exit finds the flash as it was. -/
theorem unchanged_of_rejected {upgrade_boot : Bool} {buf behind : Bytes} {e : Exit} {w' : Flash}
    (hu : upgrade_boot = false ∨ accepted cfg image)
    (h : Run (flash image) (upgrade_main_board cfg upgrade_boot buf behind) w (some e) w')
    (he : e.rejected) : w' = w := by
  rw [upgrade_main_board, Prog.ask_bind, Run.some_call] at h
  obtain ⟨there, w₁, rfl, h⟩ := h
  split at h
  · exact (Run.some_pure.mp h).2
  rw [Prog.ask_bind, Run.some_call] at h
  obtain ⟨imageFd, w₂, rfl, h⟩ := h
  split at h
  · exact (Run.some_pure.mp h).2
  rw [Prog.ask_bind, Run.some_call] at h
  obtain ⟨st_size, w₃, ⟨rfl, rfl⟩, h⟩ := h
  split at h
  · rename_i hboot
    have ha : accepted cfg image := hu.resolve_left (by rw [hboot]; decide)
    rw [Run.some_bind] at h
    obtain ⟨done, w₄, hdone, h⟩ := h
    cases done with
    | none => exact absurd ha (check_and_write_rejected h he).2
    | some e' =>
      obtain ⟨rfl, rfl⟩ := Run.some_pure.mp h
      exact absurd he (upgrade_bootloader_not_rejected hdone)
  · exact (check_and_write_rejected h he).1

end Keeps

/-! ### A run to the rejecting exit -/

section Runs

variable {cfg : Config} {image : Bytes} {w : Flash}

/-- **A file that does not pass is rejected.** -/
theorem check_image_rejects (ha : ¬ accepted cfg image) :
    ∃ e, e.rejected ∧
      Run (flash image) (check_image cfg (int32 image.length)) w (some (some e)) w := by
  have hread : (flash image).step w (.read cfg.OS_IMG_START fdtHeaderSize)
      (some ((image.drop cfg.OS_IMG_START).take fdtHeaderSize)) w := ⟨Or.inr rfl, rfl⟩
  have hmap : (flash image).step w (.mmap cfg.OS_IMG_START (fdt_totalsize (header cfg image)))
      (some (mapped cfg image)) w := ⟨Or.inr rfl, rfl⟩
  suffices h : ∃ e, e.rejected ∧ Run (flash image)
      (check_header cfg (int32 image.length) (header cfg image)) w (some (some e)) w by
    obtain ⟨e, he, h⟩ := h
    refine ⟨e, he, ?_⟩
    rw [check_image, Prog.ask_bind]
    exact .call hread h
  rw [check_header]
  by_cases hhead : fdt_check_header (header cfg image) ≠ 0
  · rw [if_pos hhead]
    exact ⟨.badHeader, Or.inl rfl, .ret _ _⟩
  rw [if_neg hhead]
  by_cases hsize : too_short cfg (int32 image.length) (fdt_totalsize (header cfg image)) = true
  · rw [if_pos hsize]
    exact ⟨.badSize, Or.inr (Or.inl rfl), .ret _ _⟩
  rw [if_neg hsize, Prog.ask_bind]
  by_cases hformat : cfg.fit_check_format (mapped cfg image) = false
  · refine ⟨.badFormat, Or.inr (Or.inr (Or.inl rfl)), .call hmap ?_⟩
    simp only [if_pos hformat, Prog.ask_bind]
    exact .call (r := (0 : Int)) rfl (.ret _ _)
  by_cases hhash : cfg.fit_all_image_verify (mapped cfg image) = false
  · refine ⟨.badHash, Or.inr (Or.inr (Or.inr rfl)), .call hmap ?_⟩
    simp only [if_neg hformat, if_pos hhash, Prog.ask_bind]
    exact .call (r := (0 : Int)) rfl (.ret _ _)
  · exact absurd ⟨not_not.mp hhead, by simpa using hsize, by simpa using hformat,
      by simpa using hhash⟩ ha

/-- The copy loop can come to its end with every `read` failing: each then takes
`2 ^ 32 - 1` from `n`, that is, adds one, until `n` is no longer positive. -/
theorem run_copy (cfg : Config) (image : Bytes) (w : Flash) (pos : Nat) (buf : Bytes) {n : Int}
    (hn : n < 2 ^ 31) :
    ∃ copy, Run (flash image) (Prog.iterate (copy_body cfg) ⟨n, pos, buf⟩) w (some copy) w ∧
      copy.buf = buf := by
  refine Run.iterate_ends_same (fun s : Copy => if 0 < s.n then (2 ^ 31 - s.n).toNat + 1 else 0)
    (I := fun s => s.n < 2 ^ 31 ∧ s.buf = buf) (fun s hs => ?_) ⟨hn, rfl⟩
  obtain ⟨hlt, hbuf⟩ := hs
  rw [copy_body]
  by_cases hpos : 0 < s.n
  · rw [if_pos hpos, Prog.ask_bind]
    refine ⟨.inl ⟨int32 (s.n - size_of none), s.pos + moved none, take_in s.buf none⟩, ?_, ?_⟩
    · refine .call (r := none) ⟨Or.inl rfl, rfl⟩ ?_
      rw [Prog.ask_bind]
      exact .call (r := (-1 : Int)) ⟨w.bootloader, rfl⟩ (.ret _ _)
    · have hwrap : int32 (s.n - size_of none)
          = if s.n + 1 < 2 ^ 31 then s.n + 1 else -(2 ^ 31) := by
        rw [size_of, int32, Int.bmod_def]
        split <;> omega
      have hmeasure : int32 (s.n - size_of none) < 2 ^ 31 ∧
          (if 0 < int32 (s.n - size_of none)
            then (2 ^ 31 - int32 (s.n - size_of none)).toNat + 1 else 0)
          < (2 ^ 31 - s.n).toNat + 1 := by
        rw [hwrap]
        split
        · rw [if_pos (by omega)]
          omega
        · rw [if_neg (by omega)]
          omega
      refine ⟨⟨hmeasure.1, hbuf⟩, ?_⟩
      rw [if_pos hpos]
      exact hmeasure.2
  · rw [if_neg hpos]
    exact ⟨.inr s, .ret _ _, hbuf⟩

/-- In a buffer of zeros with zeros behind it the scan finds nothing. -/
theorem run_scan (cfg : Config) (image : Bytes) (w : Flash) (k : Nat) (s : Scan)
    (hs : s.pbuf ≤ 4) :
    Run (flash image) (Prog.iterate (scan_body cfg (List.replicate (k + 16) 0)) s) w
        (some (some s)) w ∧
      scan_done cfg (List.replicate (k + 16) 0) s = false := by
  have hdrop : (List.replicate (k + 16) (0 : UInt8)).drop s.pbuf
      = 0 :: List.replicate (k + 15 - s.pbuf) 0 := by
    rw [List.drop_replicate, ← List.replicate_succ]
    congr 1
    omega
  constructor
  · have hbody : Run (flash image) (scan_body cfg (List.replicate (k + 16) 0) s) w
        (some (.inr (some s))) w := by
      rw [scan_body, hdrop]
      simp only [true_or, if_true]
      exact .ret _ _
    exact .leave hbody (.ret _ _)
  · have hnul : (List.replicate (k + 16) (0 : UInt8)).getD s.pbuf 0 = 0 := by
      rw [List.getD_eq_getElem?_getD, List.getElem?_replicate]
      split <;> rfl
    rw [scan_done, hnul, decide_eq_false_iff_not]
    exact fun h => h.1 rfl

/-- The blocks of the environment come to their end too. -/
theorem run_blocks (cfg : Config) (image : Bytes) (w : Flash) (k pos : Nat) :
    ∃ ok, Run (flash image) (Prog.iterate (blocks_body cfg (List.replicate 16 0))
      ⟨0, true, 0, pos, List.replicate k 0⟩) w (some ok) w ∧ ok = true := by
  refine Run.iterate_ends_same (fun s : Blocks => cfg.BOOT_ENV_SIZE / cfg.EMMC_WRITE_BUFF_SIZE - s.i)
    (I := fun s => s.buf = List.replicate k 0) (fun s hs => ?_) rfl
  rw [blocks_body]
  by_cases hi : s.i < cfg.BOOT_ENV_SIZE / cfg.EMMC_WRITE_BUFF_SIZE
  · have hmem : take_in s.buf none ++ List.replicate 16 0 = List.replicate (k + 16) 0 := by
      rw [take_in, hs, List.replicate_append_replicate]
    obtain ⟨hscan, hdone⟩ := run_scan cfg image w k
      ⟨if s.first_flag then 4 else 0, s.setenv_num⟩ (by show (if _ then 4 else 0) ≤ 4; split <;> omega)
    refine ⟨.inl ⟨s.i + 1, false, s.setenv_num, s.pos + moved none, take_in s.buf none⟩, ?_,
      hs, by show _ - (s.i + 1) < _; omega⟩
    rw [if_pos hi, Prog.ask_bind]
    refine .call (r := none) ⟨Or.inl rfl, rfl⟩ ?_
    rw [hmem]
    refine hscan.bind ?_
    simp only [hdone]
    exact .ret _ _
  · rw [if_neg hi]
    exact ⟨.inr true, .ret _ _, rfl⟩

/-- The boot loader part can go through and leave something else in the boot
loader partition. -/
theorem run_bootloader (c : Bytes) :
    Run (flash image) (upgrade_bootloader cfg (List.replicate cfg.EMMC_WRITE_BUFF_SIZE 0)
      (List.replicate 16 0)) w (some none) { w with bootloader := c } := by
  obtain ⟨copy, hcopy, hbuf⟩ := run_copy cfg image { w with bootloader := c }
    cfg.BOOTLOADER_IMG_START (List.replicate cfg.EMMC_WRITE_BUFF_SIZE 0)
    (int32_lt (cfg.BOOTLOADER_SIZE * cfg.EMMC_WRITE_BUFF_SIZE))
  obtain ⟨ok, hblocks, rfl⟩ := run_blocks cfg image { w with bootloader := c }
    cfg.EMMC_WRITE_BUFF_SIZE cfg.CFG_ENV_OFFSET
  rw [upgrade_bootloader, Prog.ask_bind]
  refine .call (r := (0 : Int)) ⟨c, rfl⟩ ?_
  rw [Prog.ask_bind]
  refine .call (r := true) rfl ?_
  rw [if_neg (by decide)]
  refine hcopy.bind ?_
  rw [hbuf]
  refine hblocks.bind ?_
  rw [if_pos rfl]
  exact .ret _ _

/-- **With `-u` a rejected file costs the boot loader.** -/
theorem run_rejected (ha : ¬ accepted cfg image) (c : Bytes) :
    ∃ e, e.rejected ∧ Run (flash image) (upgrade_main_board cfg true
      (List.replicate cfg.EMMC_WRITE_BUFF_SIZE 0) (List.replicate 16 0)) w (some e)
      { w with bootloader := c } := by
  obtain ⟨e, he, hcheck⟩ := check_image_rejects (w := { w with bootloader := c }) ha
  refine ⟨e, he, ?_⟩
  rw [upgrade_main_board, Prog.ask_bind]
  refine .call (r := true) rfl ?_
  rw [if_neg (by decide), Prog.ask_bind]
  refine .call (r := true) rfl ?_
  rw [if_neg (by decide), Prog.ask_bind]
  refine .call (r := (image.length : Int)) ⟨rfl, rfl⟩ ?_
  rw [if_pos rfl]
  refine (run_bootloader c).bind ?_
  exact hcheck.bind (.ret _ _)

end Runs

/-- **When a rejected image leaves the flash alone**: in every run that rejects it,
exactly when `-u` was not given or there is no such run because the file passes. -/
theorem rejected_unchanged_iff (cfg : Config) (image : Bytes) (upgrade_boot : Bool) :
    (∀ (buf behind : Bytes) (w : Flash) (e : Exit) (w' : Flash),
        Run (flash image) (upgrade_main_board cfg upgrade_boot buf behind) w (some e) w' →
          e.rejected → w' = w) ↔
      upgrade_boot = false ∨ accepted cfg image := by
  constructor
  · intro h
    by_contra hu
    obtain ⟨hboot, ha⟩ := not_or.mp hu
    obtain rfl : upgrade_boot = true := by simpa using hboot
    obtain ⟨e, he, hrun⟩ := run_rejected (w := ⟨[], [], [], [], 0⟩) ha [0]
    have hsame := congrArg Flash.bootloader (h _ _ _ e _ hrun he)
    exact absurd hsame (by decide)
  · intro hu buf behind w e w' hrun he
    exact unchanged_of_rejected hu hrun he

/-- The boot loader, block by block, with every call going well. -/
theorem run_bootloader_tiny :
    Run (flash [1, 2, 3]) (upgrade_bootloader tinyConfig [0] (List.replicate 16 0))
      ⟨[9], [], [], [], 0⟩ (some none) ⟨[1], [], [], [], 0⟩ := by
  rw [upgrade_bootloader, Prog.ask_bind]
  refine .call (r := (0 : Int)) ⟨[0xff], rfl⟩ ?_
  rw [Prog.ask_bind]
  refine .call (r := true) rfl ?_
  rw [if_neg (by decide), Prog.iterate_bind]
  have hcopy : Run (flash [1, 2, 3]) (copy_body tinyConfig ⟨1, 0, [0]⟩) ⟨[0xff], [], [], [], 0⟩
      (some (.inl ⟨0, 1, [1]⟩)) ⟨[1], [], [], [], 0⟩ := by
    rw [copy_body, if_pos (by decide), Prog.ask_bind]
    refine .call (r := some [1]) ⟨Or.inr rfl, rfl⟩ ?_
    rw [Prog.ask_bind]
    exact .call (r := (1 : Int)) ⟨[1], rfl⟩ (.ret _ _)
  have hcopied : Run (flash [1, 2, 3]) (copy_body tinyConfig ⟨0, 1, [1]⟩) ⟨[1], [], [], [], 0⟩
      (some (.inr ⟨0, 1, [1]⟩)) ⟨[1], [], [], [], 0⟩ := by
    rw [copy_body, if_neg (by decide)]
    exact .ret _ _
  have hsize : int32 (tinyConfig.BOOTLOADER_SIZE * tinyConfig.EMMC_WRITE_BUFF_SIZE) = 1 := by decide
  rw [hsize]
  refine .again hcopy ?_
  refine .leave hcopied ?_
  rw [Prog.iterate_bind]
  have hblock : Run (flash [1, 2, 3]) (blocks_body tinyConfig (List.replicate 16 0)
      ⟨0, true, 0, 1, [1]⟩) ⟨[1], [], [], [], 0⟩
      (some (.inl ⟨1, false, 0, 2, [2]⟩)) ⟨[1], [], [], [], 0⟩ := by
    have hread : (flash [1, 2, 3]).step ⟨[1], [], [], [], 0⟩ (.read 1 1) (some [2])
        ⟨[1], [], [], [], 0⟩ := ⟨Or.inr rfl, rfl⟩
    rw [blocks_body, if_pos (by decide), Prog.ask_bind]
    refine .call hread ?_
    have hscan : Run (flash [1, 2, 3]) (scan_body tinyConfig ([2] ++ List.replicate 16 0) ⟨4, 0⟩)
        ⟨[1], [], [], [], 0⟩ (some (.inr (some ⟨4, 0⟩))) ⟨[1], [], [], [], 0⟩ := by
      have hdrop : ([2] ++ List.replicate 16 (0 : UInt8)).drop 4 = 0 :: List.replicate 12 0 := rfl
      rw [scan_body, hdrop]
      simp only [true_or, if_true]
      exact .ret _ _
    rw [Prog.iterate_bind]
    refine .leave hscan ?_
    exact .ret _ _
  have hblocks : Run (flash [1, 2, 3]) (blocks_body tinyConfig (List.replicate 16 0)
      ⟨1, false, 0, 2, [2]⟩) ⟨[1], [], [], [], 0⟩ (some (.inr true)) ⟨[1], [], [], [], 0⟩ := by
    rw [blocks_body, if_neg (by decide)]
    exact .ret _ _
  refine .again hblock (.leave hblocks ?_)
  rw [if_pos rfl]
  exact .ret _ _

/-- Three bytes that are no image, with `-u`: the boot loader is replaced, and then
the file is rejected. -/
theorem rejected_changes_bootloader :
    ¬ ∀ (cfg : Config) (image : Bytes) (upgrade_boot : Bool) (buf behind : Bytes) (w : Flash)
      (e : Exit) (w' : Flash),
      Run (flash image) (upgrade_main_board cfg upgrade_boot buf behind) w (some e) w' →
        e.rejected → w' = w := by
  intro h
  have hbad : ¬ accepted tinyConfig [1, 2, 3] := by decide
  obtain ⟨e, he, hcheck⟩ := check_image_rejects (w := ⟨[1], [], [], [], 0⟩) hbad
  have hrun : Run (flash [1, 2, 3]) (upgrade_main_board tinyConfig true [0] (List.replicate 16 0))
      ⟨[9], [], [], [], 0⟩ (some e) ⟨[1], [], [], [], 0⟩ := by
    rw [upgrade_main_board, Prog.ask_bind]
    refine .call (r := true) rfl ?_
    rw [if_neg (by decide), Prog.ask_bind]
    refine .call (r := true) rfl ?_
    rw [if_neg (by decide), Prog.ask_bind]
    refine .call (r := (3 : Int)) ⟨rfl, rfl⟩ ?_
    rw [if_pos rfl]
    exact run_bootloader_tiny.bind (hcheck.bind (.ret _ _))
  have hsame := congrArg Flash.bootloader (h _ _ _ _ _ _ e _ hrun he)
  exact absurd hsame (by decide)

end Boxing.Ig9
