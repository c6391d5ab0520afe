import Boxing.Iburn.Stages
import Boxing.Iburn.Verified

/-!
# One of the two images is always good

Power can go anywhere, and an erase or a write that fails or is cut short leaves its
partition in any state.  Still, if one of the two images verifies before an upgrade,
one of them does at every stop.

There are three stretches.  Up to the verification of the NOR nothing is written.
While the NAND is erased, written and verified the NOR is left alone, and it has just
been found good.  From then on the NAND is left alone, and it is good: it was verified
a moment ago, or else the NOR was not good and so the NAND was good from the start.
The last two stretches are checked call by call (`dump_spares`, `after_spares`).
-/

namespace Boxing.Iburn

open C Device Uboot

/-! ### The flash -/

/-- A NOR partition: whole sectors. -/
structure Nor where
  bytes : Bytes
  whole : bufSize ∣ bytes.length

/-- The two partitions with an image. -/
structure Images (N : Nand) where
  nor : Nor
  nand : N.Contents

section Images

variable {N : Nand}

/-- Anything may have happened to `part`, and nothing elsewhere. -/
def Images.Changed (w : Images N) : Part → Images N → Prop
  | .firstos, w' => ∃ nor, w' = { w with nor := nor }
  | .secondos, w' => ∃ c, w' = { w with nand := c }
  | .bootflag, w' => w' = w
  | .bootloader, w' => w' = w

/-- The calls: reads of the two partitions are reliable, an erase or a write can do
anything to its partition, and whatever else is asked for can be answered anyhow. -/
def imagesStep : Images N → (c : MbCall) → MbRet c → Images N → Prop
  | w, .read .firstos pos len, r, w' => r = some ((w.nor.bytes.drop pos).take len) ∧ w' = w
  | w, .mtd_size .firstos, r, w' => r = w.nor.bytes.length ∧ w' = w
  | w, .part_read .secondos offs _, r, w' => r = N.part_read w.nand offs ∧ w' = w
  | w, .write part _ _, _, w' => w.Changed part w'
  | w, .part_write part _ _, _, w' => w.Changed part w'
  | w, .part_erase part _ _, _, w' => w.Changed part w'
  | w, _, _, w' => w' = w

/-- The power may go before, during and after each call. -/
def images (N : Nand) : Sem MbRet (Images N) where
  step := imagesStep
  cut := fun w c w' => w' = w ∨ ∃ r, imagesStep w c r w'

/-- One of the two images is accepted by the function that verifies it. -/
def Dual (abi : Abi) (w : Images N) : Prop :=
  nor_valid abi w.nor.bytes ∨ nand_valid N abi w.nand

/-! ### Calls that leave a partition alone -/

theorem Images.Changed.nor {w w' : Images N} {part : Part} (h : w.Changed part w')
    (hp : part ≠ .firstos) : w'.nor = w.nor := by
  cases part with
  | firstos => exact absurd rfl hp
  | secondos => obtain ⟨c, rfl⟩ := h; rfl
  | bootflag => obtain rfl : w' = w := h; rfl
  | bootloader => obtain rfl : w' = w := h; rfl

theorem Images.Changed.nand {w w' : Images N} {part : Part} (h : w.Changed part w')
    (hp : part ≠ .secondos) : w'.nand = w.nand := by
  cases part with
  | firstos => obtain ⟨nor, rfl⟩ := h; rfl
  | secondos => exact absurd rfl hp
  | bootflag => obtain rfl : w' = w := h; rfl
  | bootloader => obtain rfl : w' = w := h; rfl

/-- A call changes nothing, or is one of the three that write, and changes its
partition. -/
theorem step_cases {w w' : Images N} {c : MbCall} {r : MbRet c} (h : imagesStep w c r w') :
    w' = w ∨ ∃ part, w.Changed part w' ∧ ∀ p, Spares p c → part ≠ p := by
  cases c with
  | write part pos buf => exact Or.inr ⟨part, h, fun p hp => hp⟩
  | part_write part offs buf => exact Or.inr ⟨part, h, fun p hp => hp⟩
  | part_erase part start nblock => exact Or.inr ⟨part, h, fun p hp => hp⟩
  | read part pos len =>
    cases part with
    | firstos => exact Or.inl h.2
    | _ => exact Or.inl h
  | mtd_size part =>
    cases part with
    | firstos => exact Or.inl h.2
    | _ => exact Or.inl h
  | part_read part offs len =>
    cases part with
    | secondos => exact Or.inl h.2
    | _ => exact Or.inl h
  | _ => exact Or.inl h

theorem step_nor {w w' : Images N} {c : MbCall} {r : MbRet c} (hc : Spares .firstos c)
    (h : imagesStep w c r w') : w'.nor = w.nor := by
  rcases step_cases h with rfl | ⟨part, hw, hp⟩
  · rfl
  · exact hw.nor (hp _ hc)

theorem step_nand {w w' : Images N} {c : MbCall} {r : MbRet c} (hc : Spares .secondos c)
    (h : imagesStep w c r w') : w'.nand = w.nand := by
  rcases step_cases h with rfl | ⟨part, hw, hp⟩
  · rfl
  · exact hw.nand (hp _ hc)

variable {α : Type} {p : Prog MbRet α} {w w' : Images N} {o : Option α}

theorem run_nor (hp : Prog.Only (Spares .firstos) p) (h : Run (images N) p w o w') :
    w'.nor = w.nor := by
  refine h.keeps_eq Images.nor (fun _ _ _ _ hc hs => step_nor hc hs) ?_ hp
  rintro v c v' hc (rfl | ⟨r, hs⟩)
  · rfl
  · exact step_nor hc hs

theorem run_nand (hp : Prog.Only (Spares .secondos) p) (h : Run (images N) p w o w') :
    w'.nand = w.nand := by
  refine h.keeps_eq Images.nand (fun _ _ _ _ hc hs => step_nand hc hs) ?_ hp
  rintro v c v' hc (rfl | ⟨r, hs⟩)
  · rfl
  · exact step_nand hc hs

end Images

/-! ### The three stretches -/

section Stretches

variable {N : Nand} {cfg : Config} {w : Images N}

/-- A good copy comes out of the backup, if anything does. -/
theorem run_dump_all {stack : Stack} {buf buf' : Bytes} {w' : Images N}
    (h : Run (images N) (dump_all cfg stack buf) w (some (.inr buf')) w') :
    nand_valid N cfg.abi w'.nand := by
  rw [dump_all, Prog.ask_bind, Run.some_call] at h
  obtain ⟨nandFd, w₁, -, h⟩ := h
  split at h
  · cases (Run.some_pure.mp h).1
  rw [Prog.ask_bind, Run.some_call] at h
  obtain ⟨err, w₂, -, h⟩ := h
  split at h
  · cases (Run.some_pure.mp h).1
  rw [Run.some_bind] at h
  obtain ⟨buf₁, w₃, -, h⟩ := h
  rw [Run.some_bind] at h
  obtain ⟨verified, w₄, hverify, h⟩ := h
  obtain ⟨rfl, hvalid⟩ := run_verify_nand (N := N) (c := w₃.nand)
    (fun offs r w' hs => hs) hverify
  rcases hvalid with ⟨-, hvalid⟩ | ⟨rfl, -⟩
  · split at h
    · cases (Run.some_pure.mp h).1
    · obtain ⟨-, rfl⟩ := Run.some_pure.mp h
      exact hvalid
  · rw [if_pos (by decide)] at h
    cases (Run.some_pure.mp h).1

/-- The backup keeps one image good, and after it the NAND is good. -/
theorem wp_backup {stack : Stack} {buf : Bytes} (h : Dual cfg.abi w) :
    wp (images N) (backup cfg stack buf)
      (fun o w' => Dual cfg.abi w' ∧ ∀ buf', o = .inr buf' → nand_valid N cfg.abi w'.nand)
      (Dual cfg.abi) w := by
  have hverify : wp (images N) (verify_nor_image cfg.abi .firstos stack.nor)
      (fun err w' => w' = w ∧ (err = 0 ∧ nor_valid cfg.abi w.nor.bytes ∨
        err = -1 ∧ ¬ nor_valid cfg.abi w.nor.bytes)) (Dual cfg.abi) w := by
    refine ⟨fun err w' hr => ?_, fun w' hr => ?_⟩
    · exact run_verify_nor w.nor.whole (fun pos len r w' hs => hs) (fun r w' hs => hs) hr
    · rw [Dual, run_nor (verify_nor_spares cfg.abi .firstos .firstos stack.nor) hr,
        run_nand (verify_nor_spares cfg.abi .secondos .firstos stack.nor) hr]
      exact h
  refine wp_bind (wp_mono hverify ?_ fun _ h => h)
  rintro err w' ⟨rfl, ⟨rfl, hnor⟩ | ⟨rfl, hnor⟩⟩
  · rw [if_neg (by decide)]
    have hkept : ∀ {o : Option (Exit ⊕ Bytes)} {w'' : Images N},
        Run (images N) (dump_all cfg stack buf) w' o w'' → Dual cfg.abi w'' := by
      intro o w'' hr
      rw [Dual, run_nor (dump_spares cfg stack buf) hr]
      exact Or.inl hnor
    refine ⟨fun o w'' hr => ⟨hkept hr, ?_⟩, fun w'' hr => hkept hr⟩
    rintro buf' rfl
    exact run_dump_all hr
  · -- no valid main image: the other one is what was good
    rw [if_pos (by decide)]
    refine wp_pure.mpr ⟨⟨h, fun _ _ => ?_⟩, h⟩
    exact h.resolve_left hnor

/-- From the backup on. -/
theorem wp_backup_and_burn {upgrade_boot : Bool} {stack : Stack} {buf : Bytes}
    (h : Dual cfg.abi w) :
    wp (images N) (backup_and_burn cfg upgrade_boot stack buf) (fun _ => Dual cfg.abi)
      (Dual cfg.abi) w := by
  rw [backup_and_burn, Prog.ask_bind, wp_call]
  refine ⟨h, ?_, fun norFd w' hs => ?_⟩
  · rintro w' (rfl | ⟨r, rfl⟩)
    · exact h
    · exact h
  obtain rfl : w' = w := hs
  split
  · exact wp_pure.mpr ⟨h, h⟩
  refine wp_bind (wp_mono (wp_backup h) ?_ fun _ h => h)
  rintro (e | buf') w'' ⟨hdual, hnand⟩
  · exact wp_pure.mpr ⟨hdual, hdual⟩
  · have hvalid := hnand buf' rfl
    have hkept : ∀ {o : Option Exit} {w₁ : Images N},
        Run (images N) (after_backup cfg upgrade_boot stack.behind buf' (image_datalen buf)) w''
          o w₁ → Dual cfg.abi w₁ := by
      intro o w₁ hr
      rw [Dual, run_nand (after_spares cfg upgrade_boot stack.behind buf' _) hr]
      exact Or.inr hvalid
    exact ⟨fun _ _ hr => hkept hr, fun _ hr => hkept hr⟩

/-- **One of the two images is good at every stop** of an upgrade, if one is good
before it. -/
theorem dual_of_run {upgrade_boot : Bool} {stack : Stack} {w' : Images N} {o : Option Exit}
    (h : Dual cfg.abi w) (hr : Run (images N) (upgrade_main_board cfg upgrade_boot stack) w o w') :
    Dual cfg.abi w' := by
  have hask : ∀ {c : MbCall} {k : MbRet c → Prog MbRet Exit}, (∀ p, Spares p c) →
      (∀ r, wp (images N) (k r) (fun _ => Dual cfg.abi) (Dual cfg.abi) w) →
      wp (images N) (.call c k) (fun _ => Dual cfg.abi) (Dual cfg.abi) w := by
    intro c k hc hk
    have hsame : ∀ r w', imagesStep w c r w' → w' = w := by
      intro r w' hs
      rcases step_cases hs with hw | ⟨part, -, hp⟩
      · exact hw
      · exact absurd rfl (hp part (hc part))
    rw [wp_call]
    refine ⟨h, ?_, fun r w' hs => ?_⟩
    · rintro w' (rfl | ⟨r, hs⟩)
      · exact h
      · rw [hsame r w' hs]
        exact h
    · rw [hsame r w' hs]
      exact hk r
  have hdone : wp (images N) (.pure Exit.failed) (fun _ => Dual cfg.abi) (Dual cfg.abi) w :=
    wp_pure.mpr ⟨h, h⟩
  have hwp : wp (images N) (upgrade_main_board cfg upgrade_boot stack) (fun _ => Dual cfg.abi)
      (Dual cfg.abi) w := by
    rw [upgrade_main_board, Prog.ask_bind]
    refine hask (fun p => trivial) fun there => ?_
    split
    · exact hdone
    rw [Prog.ask_bind]
    refine hask (fun p => trivial) fun fd => ?_
    split
    · exact hdone
    rw [Prog.ask_bind]
    refine hask (fun p => trivial) fun bootflag => ?_
    rw [Prog.ask_bind]
    refine hask (fun p => trivial) fun imageFd => ?_
    split
    · exact hdone
    rw [Prog.ask_bind]
    refine hask (fun p => trivial) fun st_size => ?_
    rw [Prog.ask_bind]
    refine hask (fun p => trivial) fun r => ?_
    split
    · exact wp_backup_and_burn h
    · exact hdone
  have hend := hwp.run hr
  cases o with
  | none => exact hend
  | some e => exact hend

end Stretches

end Boxing.Iburn
