import Boxing.Iburn.Written

/-!
# The boot flag after an upgrade that failed early

`set_bootflag(0x1)` marks the flash as being upgraded, and it comes before the signature is
checked and before the main image is erased.  What fails in between leaves the mark on a
board whose main image is as good as it was.

Which of the calls may fail is a parameter (`Faults`): the flag, the erase of the main image
and the mapping of the file.  All other calls of the device can be answered anyhow.  Then an
upgrade that fails before it has touched the main image leaves the flag alone exactly when
no file that is accepted can fail there (`Unmarked`, `flag_kept_iff`): none of the three
goes wrong, the signature is not found wrong either, and with `-u` the sectors to be erased
are at least one, as a boot loader that cannot be opened is the last way to fail.
-/

namespace Boxing.Iburn

open C Device Uboot

/-! ### The board -/

/-- The flag, and whether a sector of the main image has been erased or written. -/
structure Marked where
  flag : BitVec 32
  touched : Bool

/-- Which calls may fail. -/
structure Faults where
  set_bootflag : Bool
  part_erase : Bool
  mmap : Bool

/-- At least one sector is erased. -/
def Erases (n : Int) : Prop := n = -1 ∨ 0 < n

/-- What a `read` of the file can give: an error, or some of what is there. -/
def Gives (image : Bytes) (pos len : Nat) (r : Option Bytes) : Prop :=
  r = none ∨ ∃ k, 0 < k ∧ k ≤ len ∧ r = some ((image.drop pos).take k)

/-- The main image may have been touched, and has been if `surely`. -/
structure Marked.Touched (w w' : Marked) (surely : Prop) : Prop where
  flag : w'.flag = w.flag
  kept : w.touched = true → w'.touched = true
  done : surely → w'.touched = true

section Marking

variable (cfg : Config) (image : Bytes) (faults : Faults)

/-- The calls, with the firmware file `image`.  A flag that could not be set can be
anything, and an erase or a write that failed may have done a part. -/
def markStep : Marked → (c : MbCall) → MbRet c → Marked → Prop
  | w, .fstat, r, w' => r = image.length ∧ w' = w
  | w, .read_file pos len, r, w' => Gives image pos len r ∧ w' = w
  | w, .mmap pos len, r, w' =>
    (r = map_file cfg image pos len ∨ (faults.mmap = true ∧ r = none)) ∧ w' = w
  | w, .set_bootflag flag, r, w' => 0 ≤ r ∧ w' = { w with flag := flag } ∨
    faults.set_bootflag = true ∧ r < 0 ∧ ∃ flag', w' = { w with flag := flag' }
  | w, .part_erase .firstos _ n, r, w' =>
    (0 ≤ r ∨ faults.part_erase = true) ∧ w.Touched w' (0 ≤ r ∧ Erases n)
  | w, .write .firstos _ _, r, w' => w.Touched w' (0 < r)
  | w, .part_write .firstos _ _, r, w' => w.Touched w' (0 < r)
  | w, _, _, w' => w' = w

def marking : Sem MbRet Marked where
  step := markStep cfg image faults
  cut := fun _ _ _ => False

/-- How the check of the signature ends with these pages: none when it went well. -/
def hmac_exit (datalen : Int) (p_map : Option Bytes) : Option Exit :=
  match p_map with
  | none => some .failed
  | some p_map =>
    if in_pages cfg datalen p_map = false then some .crashed
    else if hmac_matches cfg datalen p_map then none
    else some .failed

/-- The pages that are mapped for it. -/
def hmac_pages (datalen : Int) : Option Bytes :=
  map_file cfg image (cfg.OS_IMG_START - slack cfg) (datalen + slack cfg + SHA256_LEN)

/-- How it ends when the file can be mapped; without the chip there is no check. -/
def signature_exit (datalen : Int) : Option Exit :=
  match cfg.board with
  | .IR9 => none
  | .IDTU9 => hmac_exit cfg datalen (hmac_pages cfg image datalen)

variable (upgrade_boot : Bool)

/-- An upgrade that returns -1 and has not touched the main image leaves the flag alone. -/
def FlagKept (stack : Stack) : Prop :=
  ∀ w w', w.touched = false →
    Run (marking cfg image faults) (upgrade_main_board cfg upgrade_boot stack) w (some .failed) w' →
      w'.touched = false → w'.flag = w.flag

/-- Nothing can fail between the flag and the first sector. -/
structure Unmarked (datalen : Int) : Prop where
  flag : faults.set_bootflag = false
  mmap : cfg.board = .IDTU9 → faults.mmap = false
  signature : signature_exit cfg image datalen ≠ some .failed
  erase : signature_exit cfg image datalen = none →
    faults.part_erase = false ∧ (upgrade_boot = true → Erases (nblock datalen))

end Marking

section Kept

variable {cfg : Config} {image : Bytes} {faults : Faults} {upgrade_boot : Bool} {stack : Stack}
  {w w' : Marked}

/-! ### What the calls keep -/

/-- The call does not set the flag. -/
def SparesFlag : MbCall → Prop
  | .set_bootflag _ => False
  | _ => True

theorem sparesFlag_of_ask : ∀ c, ¬ Changes c → SparesFlag c := by
  intro c hc
  cases c with
  | set_bootflag => exact absurd trivial hc
  | _ => exact trivial

theorem flag_step {c : MbCall} {r : MbRet c} (hc : SparesFlag c)
    (h : markStep cfg image faults w c r w') : w'.flag = w.flag := by
  cases c with
  | fstat => rw [h.2]
  | read_file => rw [h.2]
  | mmap => rw [h.2]
  | set_bootflag => exact False.elim hc
  | part_erase part start n =>
    cases part with
    | firstos => exact h.2.flag
    | _ => exact congrArg Marked.flag h
  | write part pos buf =>
    cases part with
    | firstos => exact h.flag
    | _ => exact congrArg Marked.flag h
  | part_write part offs buf =>
    cases part with
    | firstos => exact h.flag
    | _ => exact congrArg Marked.flag h
  | _ => exact congrArg Marked.flag h

/-- What has been touched stays so. -/
theorem touched_step {c : MbCall} {r : MbRet c} (ht : w.touched = true)
    (h : markStep cfg image faults w c r w') : w'.touched = true := by
  cases c with
  | fstat => rwa [h.2]
  | read_file => rwa [h.2]
  | mmap => rwa [h.2]
  | set_bootflag flag =>
    rcases h with ⟨-, rfl⟩ | ⟨-, -, flag', rfl⟩
    · exact ht
    · exact ht
  | part_erase part start n =>
    cases part with
    | firstos => exact h.2.kept ht
    | _ => exact (congrArg Marked.touched h).trans ht
  | write part pos buf =>
    cases part with
    | firstos => exact h.kept ht
    | _ => exact (congrArg Marked.touched h).trans ht
  | part_write part offs buf =>
    cases part with
    | firstos => exact h.kept ht
    | _ => exact (congrArg Marked.touched h).trans ht
  | _ => exact (congrArg Marked.touched h).trans ht

theorem run_touched {α : Type} {p : Prog MbRet α} {o : Option α} (ht : w.touched = true)
    (h : Run (marking cfg image faults) p w o w') : w'.touched = true :=
  h.keeps (P := fun _ => True) (I := fun w => w.touched = true)
    (fun _ _ _ _ _ ht hs => touched_step ht hs) (fun _ _ _ _ _ hcut => False.elim hcut)
    (Prog.only_true p) ht

/-- A flag that cannot fail is set. -/
theorem flag_set {flag : BitVec 32} {r : Int} (hflag : faults.set_bootflag = false)
    (h : (marking cfg image faults).step w (.set_bootflag flag) r w') : ¬ r < 0 := by
  rcases h with ⟨hr, -⟩ | ⟨hf, -⟩
  · exact Int.not_lt.mpr hr
  · rw [hflag] at hf
    cases hf

/-! ### After the flag -/

/-- From the main image on a failure comes after the erase. -/
theorem touched_of_burn_failed {behind buf : Bytes} {datalen : Int}
    (hflag : faults.set_bootflag = false) (herase : faults.part_erase = false)
    (hboot : upgrade_boot = true → Erases (nblock datalen))
    (h : Run (marking cfg image faults) (burn_main cfg upgrade_boot behind buf datalen) w
      (some .failed) w') : w'.touched = true := by
  rw [burn_main, Run.some_bind] at h
  obtain ⟨burnt, w₁, hburn, h⟩ := h
  rw [burn, Prog.ask_bind, Run.some_call] at hburn
  obtain ⟨err, w₂, ⟨herr, htouched⟩, hburn⟩ := hburn
  have hdone : 0 ≤ err := herr.resolve_right (by rw [herase]; decide)
  rw [if_neg (Int.not_lt.mpr hdone), Run.some_bind] at hburn
  obtain ⟨buf₁, w₃, hloop, hburn⟩ := hburn
  obtain ⟨rfl, rfl⟩ := Run.some_pure.mp hburn
  cases hub : upgrade_boot with
  | true => exact run_touched (run_touched (htouched.done ⟨hdone, hboot hub⟩) hloop) h
  | false =>
    -- only the last flag is left
    simp only [hub, after_burn] at h
    rw [if_neg (by decide), finish, Prog.ask_bind, Run.some_call] at h
    obtain ⟨r, w₄, hset, h⟩ := h
    rw [if_neg (flag_set hflag hset)] at h
    cases (Run.some_pure.mp h).1

/-- The check of the signature, as a function of the pages. -/
theorem check_hmac_eq (datalen : Int) : check_hmac cfg datalen =
    .call (.mmap (cfg.OS_IMG_START - slack cfg) (datalen + slack cfg + SHA256_LEN))
      fun p_map => .pure (hmac_exit cfg datalen p_map) := by
  rw [check_hmac, Prog.ask_bind]
  congr 1
  funext p_map
  cases p_map with
  | none => rfl
  | some p_map =>
    simp only [hmac_exit]
    split
    · rfl
    · split
      · rfl
      · rfl

/-- Between the flag and the first sector nothing fails. -/
theorem touched_of_failed {behind buf : Bytes} {datalen : Int}
    (hu : Unmarked cfg image faults upgrade_boot datalen)
    (h : Run (marking cfg image faults) (after_backup cfg upgrade_boot behind buf datalen) w
      (some .failed) w') : w'.touched = true := by
  rw [after_backup, Prog.ask_bind, Run.some_call] at h
  obtain ⟨err, w₁, hset, h⟩ := h
  rw [if_neg (flag_set hu.flag hset), after_flag] at h
  have hsignature := hu.signature
  have herase := hu.erase
  rw [signature_exit] at hsignature herase
  cases hboard : cfg.board with
  | IR9 =>
    simp only [hboard] at h herase
    obtain ⟨herase, hboot⟩ := herase trivial
    exact touched_of_burn_failed hu.flag herase hboot h
  | IDTU9 =>
    simp only [hboard] at h hsignature herase
    rw [Run.some_bind, check_hmac_eq] at h
    obtain ⟨checked, w₂, hcheck, h⟩ := h
    obtain ⟨p_map, w₃, ⟨hmap, -⟩, hend⟩ := Run.some_call.mp hcheck
    obtain ⟨rfl, -⟩ := Run.some_pure.mp hend
    have hpages : p_map = hmac_pages cfg image datalen := by
      refine hmap.resolve_right fun hf => ?_
      rw [hu.mmap hboard] at hf
      cases hf.1
    rw [hpages] at h
    cases hexit : hmac_exit cfg datalen (hmac_pages cfg image datalen) with
    | none =>
      rw [hexit] at h
      obtain ⟨herase, hboot⟩ := herase hexit
      exact touched_of_burn_failed hu.flag herase hboot h
    | some e =>
      rw [hexit] at h
      obtain rfl := (Run.some_pure.mp h).1
      exact absurd hexit hsignature

/-- **The flag is kept** when no accepted file can fail after it. -/
theorem flagKept_of_unmarked
    (h : ∀ r, Gives image cfg.OS_IMG_START bufSize r →
      header_ok cfg (int32 image.length) ((take_in stack.buf r).take imageHeaderSize) = true →
        Unmarked cfg image faults upgrade_boot (image_datalen (take_in stack.buf r))) :
    FlagKept cfg image faults upgrade_boot stack := by
  intro w w' _ hr htouched
  have hwp : wp (marking cfg image faults) (upgrade_main_board cfg upgrade_boot stack)
      (fun e w' => e = .failed → w'.touched = false → w'.flag = w.flag) (fun _ => True) w := by
    refine wp_upgrade (P := SparesFlag) (I := fun w' => w'.flag = w.flag) sparesFlag_of_ask
      (fun _ _ => trivial) (fun _ _ => trivial) ?_ ?_ ?_ (fun _ _ => trivial) ?_ rfl
    · intro v c r v' hc hv hs
      exact (flag_step hc hs).trans hv
    · intro v c v' _ _ hcut
      exact False.elim hcut
    · intro v hv _ _
      exact hv
    · rintro v₁ v₂ v₃ v₄ st_size r ⟨rfl, -⟩ ⟨hgives, -⟩ hheader buf' v -
      refine ⟨?_, fun _ _ => trivial⟩
      rintro e v' hrun rfl hfalse
      rw [touched_of_failed (h r hgives hheader) hrun] at hfalse
      cases hfalse
  exact hwp.1 _ _ hr rfl htouched

/-! ### Runs that fail after the flag -/

section Failing

variable {behind buf : Bytes} {datalen : Int}

/-- The erase fails at once. -/
theorem run_erase_fails (h : faults.part_erase = true) (w : Marked) :
    Run (marking cfg image faults) (burn_main cfg upgrade_boot behind buf datalen) w
      (some .failed) w := by
  have herase : (marking cfg image faults).step w (.part_erase .firstos 0 (nblock datalen))
      (-1 : Int) w :=
    ⟨Or.inr h, rfl, id, fun hr => absurd hr.1 (by decide : ¬ (0 : Int) ≤ -1)⟩
  rw [burn_main, burn, Prog.ask_bind, Prog.call_bind]
  refine .call herase ?_
  rw [if_pos (by decide)]
  exact .ret _ _

/-- Nothing is erased, nothing can be read of the file, and the boot loader cannot be
opened. -/
theorem run_bootloader_fails (h : ¬ Erases (nblock datalen)) (w : Marked) :
    Run (marking cfg image faults) (burn_main cfg true behind buf datalen) w (some .failed) w := by
  have herase : (marking cfg image faults).step w (.part_erase .firstos 0 (nblock datalen))
      (0 : Int) w := ⟨Or.inl (Int.le_refl 0), rfl, id, fun hr => absurd hr.2 h⟩
  have hread : (marking cfg image faults).step w (.read_file cfg.OS_IMG_START bufSize) none w :=
    ⟨Or.inl rfl, rfl⟩
  have hbody : Run (marking cfg image faults) (burn_body ⟨cfg.OS_IMG_START, 0, buf⟩) w
      (some (.inr buf)) w := by
    rw [burn_body, Prog.ask_bind]
    refine .call hread ?_
    rw [if_pos (show moved none = 0 from rfl)]
    exact .ret _ _
  have hburn : Run (marking cfg image faults) (burn cfg datalen buf) w (some (.inr buf)) w := by
    rw [burn, Prog.ask_bind]
    refine .call herase ?_
    rw [if_neg (by decide)]
    exact .leave hbody (.ret _ _)
  rw [burn_main]
  refine hburn.bind ?_
  simp only [after_burn]
  rw [if_pos trivial, upgrade_bootloader, Prog.ask_bind, Prog.call_bind]
  refine .call (r := false) rfl ?_
  rw [if_pos rfl]
  exact .ret _ _

/-- The check of the signature can end with these pages. -/
theorem run_hmac_exit {p_map : Option Bytes}
    (h : p_map = hmac_pages cfg image datalen ∨ (faults.mmap = true ∧ p_map = none)) (w : Marked) :
    Run (marking cfg image faults) (check_hmac cfg datalen) w
      (some (hmac_exit cfg datalen p_map)) w := by
  have hmmap : (marking cfg image faults).step w
      (.mmap (cfg.OS_IMG_START - slack cfg) (datalen + slack cfg + SHA256_LEN)) p_map w := ⟨h, rfl⟩
  rw [check_hmac_eq]
  exact .call hmmap (.ret _ _)

/-- When no run fails between the flag and the first sector, nothing can. -/
theorem unmarked_of_no_run (h : ∀ flag,
      Run (marking cfg image faults) (after_backup cfg upgrade_boot behind buf datalen) ⟨0, false⟩
        (some .failed) ⟨flag, false⟩ → flag = 0) :
    Unmarked cfg image faults upgrade_boot datalen := by
  have hno : ¬ Run (marking cfg image faults) (after_backup cfg upgrade_boot behind buf datalen)
      ⟨0, false⟩ (some .failed) ⟨0x1, false⟩ := fun hr => absurd (h 0x1 hr) (by decide)
  have hno₁ : ¬ Run (marking cfg image faults) (after_flag cfg upgrade_boot behind buf datalen)
      ⟨0x1, false⟩ (some .failed) ⟨0x1, false⟩ := by
    intro hr
    refine hno ?_
    rw [after_backup, Prog.ask_bind]
    refine .call (r := (0 : Int)) (Or.inl ⟨Int.le_refl 0, rfl⟩) ?_
    rw [if_neg (by decide)]
    exact hr
  have hcheck : Run (marking cfg image faults) (check_hmac cfg datalen) ⟨0x1, false⟩
      (some (hmac_exit cfg datalen (hmac_pages cfg image datalen))) ⟨0x1, false⟩ :=
    run_hmac_exit (Or.inl rfl) _
  rw [after_flag] at hno₁
  refine ⟨?_, fun hboard => ?_, ?_, ?_⟩
  · rw [← Bool.not_eq_true]
    intro hf
    refine hno ?_
    rw [after_backup, Prog.ask_bind]
    refine .call (r := (-1 : Int)) (Or.inr ⟨hf, by decide, 0x1, rfl⟩) ?_
    rw [if_pos (by decide)]
    exact .ret _ _
  · rw [← Bool.not_eq_true]
    intro hf
    simp only [hboard] at hno₁
    have hnone : Run (marking cfg image faults) (check_hmac cfg datalen) ⟨0x1, false⟩
        (some (hmac_exit cfg datalen none)) ⟨0x1, false⟩ := run_hmac_exit (Or.inr ⟨hf, rfl⟩) _
    exact hno₁ (hnone.bind (.ret _ _))
  · intro hexit
    rw [signature_exit] at hexit
    cases hboard : cfg.board with
    | IR9 =>
      rw [hboard] at hexit
      cases hexit
    | IDTU9 =>
      simp only [hboard] at hexit hno₁
      rw [hexit] at hcheck
      exact hno₁ (hcheck.bind (.ret _ _))
  · intro hexit
    have hno₂ : ¬ Run (marking cfg image faults) (burn_main cfg upgrade_boot behind buf datalen)
        ⟨0x1, false⟩ (some .failed) ⟨0x1, false⟩ := by
      intro hr
      rw [signature_exit] at hexit
      cases hboard : cfg.board with
      | IR9 =>
        simp only [hboard] at hno₁
        exact hno₁ hr
      | IDTU9 =>
        simp only [hboard] at hexit hno₁
        rw [hexit] at hcheck
        exact hno₁ (hcheck.bind hr)
    constructor
    · rw [← Bool.not_eq_true]
      intro hf
      exact hno₂ (run_erase_fails hf _)
    · rintro rfl
      by_contra hne
      exact hno₂ (run_bootloader_fails hne _)

end Failing

/-- **An accepted file that can fail after the flag** does not keep it. -/
theorem unmarked_of_flagKept (h : FlagKept cfg image faults upgrade_boot stack)
    {r : Option Bytes} (hgives : Gives image cfg.OS_IMG_START bufSize r)
    (hheader : header_ok cfg (int32 image.length)
      ((take_in stack.buf r).take imageHeaderSize) = true) :
    Unmarked cfg image faults upgrade_boot (image_datalen (take_in stack.buf r)) := by
  have hanswers : Answers (marking cfg image faults) cfg image.length r ⟨0, false⟩ :=
    ⟨rfl, fun _ => rfl, rfl, rfl, ⟨rfl, rfl⟩, ⟨hgives, rfl⟩⟩
  have hread : (marking cfg image faults).step ⟨0, false⟩ (.read .firstos 0 bufSize) none
      ⟨0, false⟩ := rfl
  have hskip := run_backup_skipped stack (run_verify_unreadable hread cfg.abi stack.nor)
    (take_in stack.buf r)
  exact unmarked_of_no_run fun flag hafter =>
    h ⟨0, false⟩ ⟨flag, false⟩ rfl (run_upgrade hanswers hheader hskip hafter) rfl

/-- **When the flag is left alone**: an upgrade that returns -1 and has not touched the main
image keeps the flag, exactly when for every way the header can be read, if it is accepted,
nothing can fail between the flag and the first sector. -/
theorem flag_kept_iff (cfg : Config) (image : Bytes) (faults : Faults) (upgrade_boot : Bool)
    (stack : Stack) :
    FlagKept cfg image faults upgrade_boot stack ↔
      ∀ r, Gives image cfg.OS_IMG_START bufSize r →
        header_ok cfg (int32 image.length) ((take_in stack.buf r).take imageHeaderSize) = true →
          Unmarked cfg image faults upgrade_boot (image_datalen (take_in stack.buf r)) :=
  ⟨fun h _ hgives hheader => unmarked_of_flagKept h hgives hheader, flagKept_of_unmarked⟩

end Kept

/-! ### An erase that fails -/

/-- The header is good, the erase of the main image fails at once, and the flag is 1. -/
theorem flag_lost_on_erase :
    ¬ ∀ (cfg : Config) (image : Bytes) (faults : Faults) (upgrade_boot : Bool) (stack : Stack),
      FlagKept cfg image faults upgrade_boot stack := by
  intro h
  have hgives : Gives (plainHeader ++ [1]) plainConfig.OS_IMG_START bufSize
      (some (((plainHeader ++ [1]).drop 0).take 65)) := Or.inr ⟨65, by decide, by decide, rfl⟩
  have hu := unmarked_of_flagKept
    (h plainConfig (plainHeader ++ [1]) ⟨false, true, false⟩ false ⟨[], [], [], []⟩) hgives
    header_ok_plainHeader
  exact absurd (hu.erase rfl).1 (by decide)

end Boxing.Iburn
