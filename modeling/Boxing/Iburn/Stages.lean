import Boxing.Iburn.Spares

/-!
# The upgrade up to the flag

Up to `set_bootflag(0x1)` the upgrade asks, and makes a copy in the NAND.  So what these
calls keep holds at the flag, and at every exit before it: `wp_upgrade` is the rule, for
any device, and what is left to show is about `after_backup`.

The other way round, `run_upgrade` makes a run to the flag on a device that answers, and
`run_backup_skipped` is the shortest backup: without a valid main image there is none.
-/

namespace Boxing.Iburn

open C Device Uboot

section Stages

variable {W : Type} {S : Sem MbRet W} {cfg : Config} {stack : Stack} {upgrade_boot : Bool}

/-- The backup leaves by an exit only to fail. -/
theorem backup_exit {buf : Bytes} {e : Exit} {w w' : W}
    (h : Run S (backup cfg stack buf) w (some (.inl e)) w') : e = .failed := by
  rw [backup, Run.some_bind] at h
  obtain ⟨err, w₁, -, h⟩ := h
  split at h
  · cases (Run.some_pure.mp h).1
  rw [dump_all, Prog.ask_bind, Run.some_call] at h
  obtain ⟨nandFd, w₂, -, h⟩ := h
  split at h
  · exact Sum.inl.inj (Run.some_pure.mp h).1
  rw [Prog.ask_bind, Run.some_call] at h
  obtain ⟨err, w₃, -, h⟩ := h
  split at h
  · exact Sum.inl.inj (Run.some_pure.mp h).1
  rw [Run.some_bind] at h
  obtain ⟨buf₁, w₄, -, h⟩ := h
  rw [Run.some_bind] at h
  obtain ⟨err, w₅, -, h⟩ := h
  split at h
  · exact Sum.inl.inj (Run.some_pure.mp h).1
  · cases (Run.some_pure.mp h).1

/-! ### What holds at the flag -/

section Rule

variable {P : MbCall → Prop} {I C : W → Prop} {Q : Exit → W → Prop} {w : W}

/-- A call that keeps `I`, and a rest that is right wherever `I` holds. -/
theorem wp_kept {α : Type} {c : MbCall} {k : MbRet c → Prog MbRet α} {Q : α → W → Prop}
    (hstep : ∀ w c r w', P c → I w → S.step w c r w' → I w')
    (hcut : ∀ w c w', P c → I w → S.cut w c w' → I w') (hC : ∀ w, I w → C w) (hc : P c)
    (hI : I w) (hk : ∀ r w', S.step w c r w' → I w' → wp S (k r) Q C w') :
    wp S (.call c k) Q C w :=
  wp_call.mpr ⟨hC w hI, fun w' hs => hC w' (hcut w c w' hc hI hs),
    fun r w' hs => hk r w' hs (hstep w c r w' hc hI hs)⟩

/-- **The rule for an upgrade**: what the calls before the flag keep holds at the flag. -/
theorem wp_upgrade (hask : ∀ c, ¬ Changes c → P c)
    (herase : ∀ start n, P (.part_erase .secondos start n))
    (hwrite : ∀ offs buf, P (.part_write .secondos offs buf))
    (hstep : ∀ w c r w', P c → I w → S.step w c r w' → I w')
    (hcut : ∀ w c w', P c → I w → S.cut w c w' → I w')
    (hfailed : ∀ w, I w → Q .failed w) (hC : ∀ w, I w → C w)
    (hflag : ∀ {v₁ v₂ v₃ v₄ : W} {st_size : Int} {r : Option Bytes}, S.step v₁ .fstat st_size v₂ →
      S.step v₃ (.read_file cfg.OS_IMG_START bufSize) r v₄ →
      header_ok cfg (int32 st_size) ((take_in stack.buf r).take imageHeaderSize) = true →
      ∀ buf' w', I w' → wp S (after_backup cfg upgrade_boot stack.behind buf'
        (image_datalen (take_in stack.buf r))) Q C w')
    (hI : I w) : wp S (upgrade_main_board cfg upgrade_boot stack) Q C w := by
  have hdone : ∀ {w}, I w → wp S (.pure Exit.failed) Q C w :=
    fun hI => wp_pure.mpr ⟨hfailed _ hI, hC _ hI⟩
  rw [upgrade_main_board, Prog.ask_bind]
  refine wp_kept hstep hcut hC (hask _ id) hI fun there w₁ _ hI => ?_
  split
  · exact hdone hI
  rw [Prog.ask_bind]
  refine wp_kept hstep hcut hC (hask _ id) hI fun fd w₂ _ hI => ?_
  split
  · exact hdone hI
  rw [Prog.ask_bind]
  refine wp_kept hstep hcut hC (hask _ id) hI fun bootflag w₃ _ hI => ?_
  rw [Prog.ask_bind]
  refine wp_kept hstep hcut hC (hask _ id) hI fun imageFd w₄ _ hI => ?_
  split
  · exact hdone hI
  rw [Prog.ask_bind]
  refine wp_kept hstep hcut hC (hask _ id) hI fun st_size w₅ hsize hI => ?_
  rw [Prog.ask_bind]
  refine wp_kept hstep hcut hC (hask _ id) hI fun r w₆ hread hI => ?_
  split
  swap
  · exact hdone hI
  rename_i hheader
  rw [backup_and_burn, Prog.ask_bind]
  refine wp_kept hstep hcut hC (hask _ id) hI fun norFd w₇ _ hI => ?_
  split
  · exact hdone hI
  have hbackup : wp S (backup cfg stack (take_in stack.buf r))
      (fun o w' => I w' ∧ ∀ e, o = .inl e → e = .failed) C w₇ := by
    have hkept := wp_keeps hstep hcut (backup_only cfg hask herase hwrite stack
      (take_in stack.buf r)) hI
    refine ⟨fun o w' hr => ⟨hkept.1 o w' hr, ?_⟩, fun w' hr => hC w' (hkept.2 w' hr)⟩
    rintro e rfl
    exact backup_exit hr
  refine wp_bind (wp_mono hbackup ?_ fun _ h => h)
  rintro (e | buf') w₈ ⟨hI, hexit⟩
  · obtain rfl := hexit e rfl
    exact hdone hI
  · exact hflag hsize hread hheader buf' w₈ hI

end Rule

/-! ### A run to the flag -/

/-- The device answers what comes before the backup, and the file is read as `r`. -/
structure Answers (S : Sem MbRet W) (cfg : Config) (st_size : Int) (r : Option Bytes) (w : W) :
    Prop where
  f_exists : S.step w .f_exists true w
  part_open : ∀ part, S.step w (.part_open part) true w
  read_bootflag : S.step w .read_bootflag (0 : BitVec 32) w
  open_file : S.step w .open_file true w
  fstat : S.step w .fstat st_size w
  read_file : S.step w (.read_file cfg.OS_IMG_START bufSize) r w

/-- A run to the flag, put together. -/
theorem run_upgrade {st_size : Int} {r : Option Bytes} {w w' w'' : W} {buf' : Bytes}
    {o : Option Exit} (h : Answers S cfg st_size r w)
    (hheader : header_ok cfg (int32 st_size) ((take_in stack.buf r).take imageHeaderSize) = true)
    (hbackup : Run S (backup cfg stack (take_in stack.buf r)) w (some (.inr buf')) w')
    (hafter : Run S (after_backup cfg upgrade_boot stack.behind buf'
      (image_datalen (take_in stack.buf r))) w' o w'') :
    Run S (upgrade_main_board cfg upgrade_boot stack) w o w'' := by
  rw [upgrade_main_board, Prog.ask_bind]
  refine .call h.f_exists ?_
  rw [if_neg (by decide), Prog.ask_bind]
  refine .call (h.part_open .bootflag) ?_
  rw [if_neg (by decide), Prog.ask_bind]
  refine .call h.read_bootflag ?_
  rw [Prog.ask_bind]
  refine .call h.open_file ?_
  rw [if_neg (by decide), Prog.ask_bind]
  refine .call h.fstat ?_
  rw [Prog.ask_bind]
  refine .call h.read_file ?_
  rw [if_pos hheader, backup_and_burn, Prog.ask_bind]
  refine .call (h.part_open .firstos) ?_
  rw [if_neg (by decide)]
  exact hbackup.bind hafter

/-- Without a valid main image there is nothing to back up. -/
theorem run_backup_skipped (stack : Stack) {w : W}
    (hverify : Run S (verify_nor_image cfg.abi .firstos stack.nor) w (some (-1)) w) (buf : Bytes) :
    Run S (backup cfg stack buf) w (some (.inr buf)) w := by
  rw [backup]
  refine hverify.bind ?_
  rw [if_pos (by decide)]
  exact .ret _ _

/-- A NOR that cannot be read has none. -/
theorem run_verify_unreadable {w : W} (hread : S.step w (.read .firstos 0 bufSize) none w)
    (abi : Abi) (buf : Bytes) : Run S (verify_nor_image abi .firstos buf) w (some (-1)) w := by
  rw [verify_nor_image, Prog.ask_bind]
  refine .call hread ?_
  rw [if_pos (show moved none = 0 from rfl)]
  exact .ret _ _

end Stages

end Boxing.Iburn
