import Boxing.Fit.Memory
import Boxing.Ig9.Switch

/-!
# What a flagged bank is known to hold

`upgrade_main_board` maps the image and asks `image-fit.c` about it twice.  Here the two answers
are those of the functions on the bytes, with whatever lies in memory behind the mapping.

Together with what the bank holds this says what the flag means: where no length wraps, the bank
that is flagged begins with the bytes of an image with a description that is right, and with no
hash that is wrong.
-/

namespace Boxing.Ig9

open C Device Fdt.Raw

/-- `fit_check_format(img_start)`, with `behind` in memory behind the mapping; a check that does
not come to its end does not pass. -/
def mapped_format (behind img : Bytes) : Bool :=
  (Fit.Raw.fit_check_format (img ++ behind) (Fit.Raw.turns (img ++ behind))).getD false

/-- `fit_all_image_verify(img_start)`. -/
def mapped_verify (fcfg : Fit.Config) (behind img : Bytes) : Bool :=
  (Fit.Raw.fit_all_image_verify fcfg (img ++ behind) (Fit.Raw.turns (img ++ behind))).getD false

/-- The two checks are those of `image-fit.c`. -/
structure Checked (cfg : Config) (fcfg : Fit.Config) (behind : Bytes) : Prop where
  format : cfg.fit_check_format = mapped_format behind
  verify : cfg.fit_all_image_verify = mapped_verify fcfg behind

section Flagged

variable {cfg : Config} {fcfg : Fit.Config} {image behind : Bytes} {faults : Faults} {w w' : Emmc}

/-- A flag is asked for when the file is acceptable, and then for a bank that holds it. -/
theorem acceptable_of_run (hsound : Sound cfg image faults) {upgrade_boot : Bool}
    {buf rest : Bytes} {o : Option Exit} (hnone : w.asked = none)
    (h : Run (emmc image faults) (upgrade_main_board cfg upgrade_boot buf rest) w o w')
    {flag : BitVec 32} (hflag : w'.asked = some flag) :
    acceptable cfg image ∧ HoldsImage cfg image (w'.bytes (bank flag)) := by
  have hpart : ∀ {v : Emmc}, v.asked = none → ∀ flag, v.asked = some flag →
      acceptable cfg image ∧ HoldsImage cfg image (v.bytes (bank flag)) := by
    intro v hv flag hflag
    rw [hv] at hflag
    cases hflag
  have hwp : wp (emmc image faults) (upgrade_main_board cfg upgrade_boot buf rest)
      (fun _ w' => ∀ flag, w'.asked = some flag →
        acceptable cfg image ∧ HoldsImage cfg image (w'.bytes (bank flag)))
      (fun w' => ∀ flag, w'.asked = some flag →
        acceptable cfg image ∧ HoldsImage cfg image (w'.bytes (bank flag))) w := by
    refine wp_stages (I := fun w => w.asked = none) (fun _ _ _ _ hc hw hs => aside_asked hc hw hs)
      (fun _ _ _ _ _ hcut => hcut.elim) (fun _ hw => hpart hw) (fun _ _ _ hw => hpart hw) ?_ hnone
    intro v v' w w' st_size hsize hcheck hw
    obtain rfl : st_size = image.length := hsize.1
    have hacc := acceptable_of_check hcheck
    exact wp_mono (wp_write_safely (Or.inr hsound) hw)
      (fun _ _ hs flag hflag => ⟨hacc, hs.2 flag hflag⟩) (fun _ hs flag hflag => ⟨hacc, hs flag hflag⟩)
  have hend := hwp.run h
  cases o with
  | none => exact hend flag hflag
  | some e => exact hend flag hflag

/-- **What the flag means**: where nothing falls short and no length wraps, a bank that is flagged
begins with the bytes of an image with a description that is right and no hash that is wrong. -/
theorem flagged_image_right (hcfg : Checked cfg fcfg behind)
    (hm : Mapped (mapped cfg image ++ behind))
    (hwraps : ∀ o, Reached (mapped cfg image ++ behind) 0 o → ¬ Wraps (mapped cfg image ++ behind) o)
    (hsound : Sound cfg image faults) (hnone : w.asked = none) {upgrade_boot : Bool}
    {buf rest : Bytes} {o : Option Exit}
    (h : Run (emmc image faults) (upgrade_main_board cfg upgrade_boot buf rest) w o w')
    {flag : BitVec 32} (hflag : w'.asked = some flag) :
    HoldsImage cfg image (w'.bytes (bank flag)) ∧
      ∃ fit, Image (mapped cfg image ++ behind) fit ∧ Fit.fit_check_format fit = true ∧
        ¬ Fit.Wrong fcfg fit := by
  obtain ⟨⟨-, -, hformat, hhash⟩, hholds⟩ := acceptable_of_run hsound hnone h hflag
  obtain ⟨fit, hi, hn⟩ := Fit.Raw.exists_image hm hwraps
  rw [hcfg.format, mapped_format, Fit.Raw.fit_check_format_at hm hi hn, Option.getD_some] at hformat
  rw [hcfg.verify, mapped_verify, Fit.Raw.fit_all_image_verify_at hm hi hn,
    Option.getD_some] at hhash
  exact ⟨hholds, fit, hi, hformat, Fit.fit_all_image_verify_iff_right.mp hhash⟩

end Flagged

/-- The configuration on paper, with the checks of `image-fit.c`. -/
def checkedConfig : Config where
  EMMC_WRITE_BUFF_SIZE := 1
  BOOTLOADER_PART_START := 0
  BOOTLOADER_SIZE := 1
  BOOTLOADER_IMG_START := 0
  CFG_ENV_OFFSET := 1
  BOOT_ENV_SIZE := 1
  BOOT_ENV_MODIFIED_NUM := 1
  OS_IMG_START := 2
  fit_check_format := mapped_format []
  fit_all_image_verify := mapped_verify Fit.plainConfig []

/-- A file with an image in it. -/
def fitImage : Bytes := [0, 0] ++ Fit.Raw.tinyFit

/-- The bank that is flagged for it holds the image. -/
theorem flagged_image_right_fitImage : ∃ w' : Emmc, w'.asked = some (new_flag 0) ∧
    HoldsImage checkedConfig fitImage (w'.bytes (bank (new_flag 0))) := by
  have hacc : acceptable checkedConfig fitImage :=
    ⟨⟨fdtHeaderSize, Nat.le_refl _, by decide +kernel⟩, by decide +kernel, by decide +kernel,
      by decide +kernel⟩
  have hmem : mapped checkedConfig fitImage ++ [] = Fit.Raw.tinyFit := by decide +kernel
  obtain ⟨w', hrun, hflag, -⟩ := run_switched ⟨false, false⟩ hacc fun _ _ => 0
  have hcfg : Checked checkedConfig Fit.plainConfig [] := ⟨rfl, rfl⟩
  have hright := flagged_image_right hcfg
    (hmem ▸ Fit.Raw.mapped_tinyFit) (hmem ▸ Fit.Raw.not_wraps_tinyFit)
    ⟨rfl, rfl, by decide, by decide +kernel⟩ rfl hrun hflag
  exact ⟨w', hflag, hright.1⟩

end Boxing.Ig9
