import Boxing.Iburn.Flag

/-!
# What is written is to be erased first

`nblock` is made of the length in the header, and what is written is the file, up to its
end.  So all that is written lies in erased sectors exactly when the file, from
`OS_IMG_START` on, is no longer than the sectors are: `Covered`.  Nothing of this is
checked, and a file may be longer than its header says, as the signature stands behind the
image.

The world here is a log of what was erased and what was written of the main image, with the
bytes each write has taken; the property is one of the log at any stop (`Within`).
-/

namespace Boxing.Iburn

open C Device Uboot

/-! ### The log -/

/-- Start and number of the sectors of each erase, and place and length of each write. -/
structure Log where
  erased : List (Int × Int)
  written : List (Nat × Nat)

/-- The byte at `i` is in the `n` sectors from `start` on. -/
def InSectors (start n : Int) (i : Nat) : Prop :=
  n = -1 ∨ start * bufSize ≤ i ∧ (i : Int) < (start + n) * bufSize

/-- Every byte that was written lies in sectors that were erased. -/
def Log.Within (w : Log) : Prop :=
  ∀ pos len, (pos, len) ∈ w.written → ∀ i, pos ≤ i → i < pos + len →
    ∃ start n, (start, n) ∈ w.erased ∧ InSectors start n i

section Logging

variable (cfg : Config) (image : Bytes)

/-- The calls: a write takes what it is given, or less, or fails. -/
def logStep : Log → (c : MbCall) → MbRet c → Log → Prop
  | w, .fstat, r, w' => r = image.length ∧ w' = w
  | w, .read_file pos len, r, w' => Gives image pos len r ∧ w' = w
  | w, .mmap pos len, r, w' => (r = map_file cfg image pos len ∨ r = none) ∧ w' = w
  | w, .part_erase .firstos start n, r, w' =>
    if 0 ≤ r then w' = { w with erased := (start, n) :: w.erased } else w' = w
  | w, .write .firstos pos buf, r, w' =>
    r ≤ buf.length ∧ w' = { w with written := (pos, r.toNat) :: w.written }
  | w, _, _, w' => w' = w

/-- The power may go before and after each call. -/
def logging : Sem MbRet Log where
  step := logStep cfg image
  cut := fun w c w' => w' = w ∨ ∃ r, logStep cfg image w c r w'

/-- The sectors that are erased have room for all that is written. -/
def Covered (datalen : Int) : Prop :=
  nblock datalen = -1 ∨ image.length ≤ cfg.OS_IMG_START ∨
    ((image.length - cfg.OS_IMG_START : Nat) : Int) ≤ nblock datalen * bufSize

end Logging

section Within

variable {cfg : Config} {image : Bytes} {upgrade_boot : Bool} {stack : Stack} {w w' : Log}

/-! ### Up to the erase -/

/-- What does not touch the main image is not logged. -/
theorem log_step {c : MbCall} {r : MbRet c} (h : logStep cfg image w c r w')
    (hc : Spares .firstos c) : w' = w := by
  cases c with
  | fstat => exact h.2
  | read_file => exact h.2
  | mmap => exact h.2
  | part_erase part start n =>
    cases part with
    | firstos => exact absurd rfl hc
    | _ => exact h
  | write part pos buf =>
    cases part with
    | firstos => exact absurd rfl hc
    | _ => exact h
  | _ => exact h

theorem log_cut {c : MbCall} (h : (logging cfg image).cut w c w') (hc : Spares .firstos c) :
    w' = w := by
  rcases h with rfl | ⟨r, hs⟩
  · rfl
  · exact log_step hs hc

theorem within_nil (erased : List (Int × Int)) : Log.Within ⟨erased, []⟩ :=
  fun _ _ h => absurd h List.not_mem_nil

/-! ### The burn -/

/-- The sectors are erased, and what was written fits in the file. -/
structure Burnt (cfg : Config) (image : Bytes) (datalen : Int) (w : Log) : Prop where
  erased : w.erased = [(0, nblock datalen)]
  written : ∀ pos len, (pos, len) ∈ w.written → len = 0 ∨
    cfg.OS_IMG_START + (pos + len) ≤ image.length

theorem Burnt.within {datalen : Int} (h : Burnt cfg image datalen w)
    (hcovered : Covered cfg image datalen) : w.Within := by
  intro pos len hin i hle hlt
  have hfits : cfg.OS_IMG_START + (pos + len) ≤ image.length :=
    (h.written pos len hin).resolve_left (by omega)
  refine ⟨0, nblock datalen, by rw [h.erased]; exact List.mem_singleton_self _, ?_⟩
  rcases hcovered with hall | hshort | hroom
  · exact Or.inl hall
  · omega
  · refine Or.inr ⟨by omega, ?_⟩
    rw [Int.zero_add]
    omega

/-- What a `read` has given was there. -/
theorem Gives.moved_le {pos len : Nat} {r : Option Bytes} (h : Gives image pos len r) :
    moved r ≤ image.length - pos := by
  rcases h with rfl | ⟨k, -, -, rfl⟩
  · exact Nat.zero_le _
  · rw [moved, List.length_take, List.length_drop]
    exact Nat.min_le_right _ _

/-- The loop writes no more than it has read. -/
theorem wp_burn_loop {datalen : Int} {s : Burn} (h : Burnt cfg image datalen w)
    (hcovered : Covered cfg image datalen) (hpos : cfg.OS_IMG_START + s.dest ≤ s.pos) :
    wp (logging cfg image) (Prog.iterate burn_body s) (fun _ w' => Burnt cfg image datalen w')
      Log.Within w := by
  refine wp_loop (fun s w => Burnt cfg image datalen w ∧ cfg.OS_IMG_START + s.dest ≤ s.pos)
    ⟨h, hpos⟩ ?_
  rintro s w ⟨h, hpos⟩
  have hwithin := h.within hcovered
  rw [burn_body, Prog.ask_bind, wp_call]
  refine ⟨hwithin, fun w' hcut => log_cut hcut trivial ▸ hwithin, fun r w₁ hread => ?_⟩
  obtain ⟨hgives, rfl⟩ := hread
  have hmoved := hgives.moved_le
  split
  · exact wp_pure.mpr ⟨wp_pure.mpr ⟨h, hwithin⟩, hwithin⟩
  rename_i hmore
  -- the write takes at most what was read, and there is that much behind `pos`
  have hwrite : ∀ (n : Int) w₂, logStep cfg image w₁
      (.write .firstos s.dest ((take_in s.buf r).take (moved r))) n w₂ →
      Burnt cfg image datalen w₂ ∧ n.toNat ≤ moved r := by
    rintro n w₂ ⟨htaken, rfl⟩
    have hlen : ((take_in s.buf r).take (moved r)).length ≤ moved r := List.length_take_le _ _
    have hn : n.toNat ≤ moved r :=
      Int.toNat_le.mpr (Int.le_trans htaken (Int.ofNat_le.mpr hlen))
    refine ⟨⟨h.erased, fun pos len hin => ?_⟩, hn⟩
    rcases List.mem_cons.mp hin with heq | hin
    · obtain ⟨rfl, rfl⟩ := Prod.mk.inj heq
      right
      omega
    · exact h.written pos len hin
  rw [Prog.ask_bind, wp_call]
  refine ⟨hwithin, ?_, fun n w₂ hs => ?_⟩
  · rintro w₂ (rfl | ⟨n, hs⟩)
    · exact hwithin
    · exact (hwrite n w₂ hs).1.within hcovered
  · obtain ⟨h₂, hn⟩ := hwrite n w₂ hs
    refine wp_pure.mpr ⟨⟨h₂, ?_⟩, h₂.within hcovered⟩
    show cfg.OS_IMG_START + (s.dest + n.toNat) ≤ s.pos + moved r
    omega

/-- From the main image on. -/
theorem wp_burn_main {behind buf : Bytes} {datalen : Int} (hcovered : Covered cfg image datalen) :
    wp (logging cfg image) (burn_main cfg upgrade_boot behind buf datalen) (fun _ => Log.Within)
      Log.Within ⟨[], []⟩ := by
  have hburn : wp (logging cfg image) (burn cfg datalen buf)
      (fun _ => Log.Within) Log.Within ⟨[], []⟩ := by
    rw [burn, Prog.ask_bind, wp_call]
    refine ⟨within_nil _, ?_, fun err w' hs => ?_⟩
    · rintro w' (rfl | ⟨err, hs⟩)
      · exact within_nil _
      · simp only [logStep] at hs
        split at hs
        · rw [hs]
          exact within_nil _
        · rw [hs]
          exact within_nil _
    · simp only [logging, logStep] at hs
      by_cases hneg : err < 0
      · rw [if_neg (Int.not_le.mpr hneg)] at hs
        rw [if_pos hneg, hs]
        exact wp_pure.mpr ⟨within_nil _, within_nil _⟩
      · rw [if_pos (Int.not_lt.mp hneg)] at hs
        rw [if_neg hneg, hs]
        have hburnt : Burnt cfg image datalen ⟨[(0, nblock datalen)], []⟩ :=
          ⟨rfl, fun _ _ h => absurd h List.not_mem_nil⟩
        refine wp_bind (wp_mono (wp_burn_loop hburnt hcovered (Nat.le_refl _)) ?_ fun _ h => h)
        intro buf₁ w₁ h₁
        exact wp_pure.mpr ⟨h₁.within hcovered, h₁.within hcovered⟩
  rw [burn_main]
  refine wp_bind (wp_mono hburn ?_ fun _ h => h)
  rintro (e | buf₁) w' hwithin
  · exact wp_pure.mpr ⟨hwithin, hwithin⟩
  · exact wp_keeps (P := Spares .firstos) (fun _ _ _ _ hc hI hs => log_step hs hc ▸ hI)
      (fun _ _ _ hc hI hs => log_cut hs hc ▸ hI)
      (after_burn_spares cfg .firstos (by decide) upgrade_boot behind buf₁) hwithin

/-- From the flag on. -/
theorem wp_after_backup {behind buf : Bytes} {datalen : Int}
    (hcovered : signature_exit cfg image datalen = none → Covered cfg image datalen) :
    wp (logging cfg image) (after_backup cfg upgrade_boot behind buf datalen) (fun _ => Log.Within)
      Log.Within ⟨[], []⟩ := by
  have hnil := within_nil []
  rw [after_backup, Prog.ask_bind, wp_call]
  refine ⟨hnil, fun w' hcut => log_cut hcut trivial ▸ hnil, fun err w' hs => ?_⟩
  obtain rfl : w' = ⟨[], []⟩ := hs
  split
  · exact wp_pure.mpr ⟨hnil, hnil⟩
  rw [after_flag]
  rw [signature_exit] at hcovered
  cases hboard : cfg.board with
  | IR9 =>
    simp only [hboard] at hcovered ⊢
    exact wp_burn_main (hcovered trivial)
  | IDTU9 =>
    simp only [hboard] at hcovered ⊢
    rw [check_hmac_eq, Prog.call_bind, wp_call]
    refine ⟨hnil, fun w' hcut => log_cut hcut trivial ▸ hnil, fun p_map w' hs => ?_⟩
    obtain ⟨hmap, rfl⟩ := hs
    rw [Prog.pure_bind]
    cases hexit : hmac_exit cfg datalen p_map with
    | some e => exact wp_pure.mpr ⟨hnil, hnil⟩
    | none =>
      rcases hmap with rfl | rfl
      · exact wp_burn_main (hcovered hexit)
      · cases hexit

/-- **All that is written is in erased sectors** when these cover every file that passes. -/
theorem within_of_covered
    (h : ∀ r, Gives image cfg.OS_IMG_START bufSize r →
      header_ok cfg (int32 image.length) ((take_in stack.buf r).take imageHeaderSize) = true →
        signature_exit cfg image (image_datalen (take_in stack.buf r)) = none →
          Covered cfg image (image_datalen (take_in stack.buf r))) :
    wp (logging cfg image) (upgrade_main_board cfg upgrade_boot stack) (fun _ => Log.Within)
      Log.Within ⟨[], []⟩ := by
  have hne : Part.secondos ≠ .firstos := by decide
  refine wp_upgrade (P := Spares .firstos) (I := fun w => w = ⟨[], []⟩) (spares_of_ask .firstos)
    (fun _ _ => hne) (fun _ _ => hne) ?_ ?_ ?_ ?_ ?_ rfl
  · exact fun _ _ _ _ hc hI hs => (log_step hs hc).trans hI
  · exact fun _ _ _ hc hI hs => (log_cut hs hc).trans hI
  · rintro w rfl
    exact within_nil _
  · rintro w rfl
    exact within_nil _
  · rintro v₁ v₂ v₃ v₄ st_size r ⟨rfl, -⟩ ⟨hgives, -⟩ hheader buf' v rfl
    exact wp_after_backup fun hexit => h r hgives hheader hexit

/-! ### A run that writes the whole file -/

/-- Everything before `dest` has been written. -/
structure Filled (cfg : Config) (n : Int) (s : Burn) (w : Log) : Prop where
  erased : w.erased = [(0, n)]
  pos : s.pos = cfg.OS_IMG_START + s.dest
  all : ∀ i, i < s.dest → ∃ pos len, (pos, len) ∈ w.written ∧ pos ≤ i ∧ i < pos + len

/-- One round, the read and the write both going well. -/
theorem run_burn_body (image : Bytes) {n : Int} {s : Burn} (h : Filled cfg n s w) :
    ∃ r w', Run (logging cfg image) (burn_body s) w (some r) w' ∧
      r.elim (fun s' => Filled cfg n s' w' ∧ image.length - s'.pos < image.length - s.pos)
        (fun _ => ∃ s', Filled cfg n s' w' ∧ image.length ≤ s'.pos) := by
  have hread : (logging cfg image).step w (.read_file s.pos bufSize)
      (some ((image.drop s.pos).take bufSize)) w :=
    ⟨Or.inr ⟨bufSize, bufSize_pos, Nat.le_refl _, rfl⟩, rfl⟩
  have hlen : ((image.drop s.pos).take bufSize).length = min bufSize (image.length - s.pos) := by
    rw [List.length_take, List.length_drop]
  have hpos := bufSize_pos
  generalize (image.drop s.pos).take bufSize = d at hread hlen
  rw [burn_body, Prog.ask_bind]
  by_cases hend : moved (some d) = 0
  · have hlast : image.length ≤ s.pos := by
      rw [moved] at hend
      omega
    refine ⟨.inr (take_in s.buf (some d)), w, .call hread ?_, s, h, hlast⟩
    rw [if_pos hend]
    exact .ret _ _
  · have hd : (take_in s.buf (some d)).take (moved (some d)) = d := by
      rw [take_in, moved, List.take_left]
    have hwrite : (logging cfg image).step w (.write .firstos s.dest d) (d.length : Int)
        ⟨w.erased, (s.dest, d.length) :: w.written⟩ := ⟨Int.le_refl _, rfl⟩
    refine ⟨.inl ⟨s.pos + moved (some d), s.dest + d.length, take_in s.buf (some d)⟩,
      ⟨w.erased, (s.dest, d.length) :: w.written⟩, .call hread ?_, ⟨h.erased, ?_, ?_⟩, ?_⟩
    · rw [if_neg hend, hd, Prog.ask_bind]
      exact .call hwrite (.ret _ _)
    · show s.pos + d.length = cfg.OS_IMG_START + (s.dest + d.length)
      rw [h.pos, Nat.add_assoc]
    · intro i hi
      by_cases hold : i < s.dest
      · obtain ⟨pos, len, hin, hle, hlt⟩ := h.all i hold
        exact ⟨pos, len, List.mem_cons_of_mem _ hin, hle, hlt⟩
      · exact ⟨s.dest, d.length, List.mem_cons_self, Nat.le_of_not_lt hold, hi⟩
    · show image.length - (s.pos + d.length) < image.length - s.pos
      rw [moved] at hend
      omega

/-- The main image is erased and all of the file is written. -/
theorem run_burn_all (cfg : Config) (image : Bytes) (datalen : Int) (buf : Bytes) :
    ∃ buf' w', Run (logging cfg image) (burn cfg datalen buf) ⟨[], []⟩ (some (.inr buf')) w' ∧
      ∃ s, Filled cfg (nblock datalen) s w' ∧ image.length ≤ s.pos := by
  have herase : (logging cfg image).step ⟨[], []⟩ (.part_erase .firstos 0 (nblock datalen)) (0 : Int)
      ⟨[(0, nblock datalen)], []⟩ := by
    simp [logging, logStep]
  have hstart : Filled cfg (nblock datalen) ⟨cfg.OS_IMG_START, 0, buf⟩
      ⟨[(0, nblock datalen)], []⟩ := ⟨rfl, rfl, fun i hi => absurd hi (Nat.not_lt_zero i)⟩
  obtain ⟨buf', w', hloop, hfilled⟩ := Run.iterate_ends (fun s => image.length - s.pos)
    (fun _ _ => run_burn_body image) hstart
  refine ⟨buf', w', ?_, hfilled⟩
  rw [burn, Prog.ask_bind]
  refine .call herase ?_
  rw [if_neg (by decide)]
  exact hloop.bind (.ret _ _)

/-- When every stop is within the erased sectors, these cover the file. -/
theorem covered_of_within {datalen : Int} {s : Burn} (h : Filled cfg (nblock datalen) s w)
    (hall : image.length ≤ s.pos) (hwithin : w.Within) : Covered cfg image datalen := by
  rw [Covered, or_iff_not_imp_left, or_iff_not_imp_left]
  intro hn hlong
  by_contra hshort
  -- the first byte behind the sectors has been written
  have hpos := h.pos
  obtain ⟨pos, len, hin, hle, hlt⟩ := h.all ((nblock datalen).toNat * bufSize) (by
    rcases Int.le_total 0 (nblock datalen) with h0 | h0
    · have hcast : (((nblock datalen).toNat * bufSize : Nat) : Int) = nblock datalen * bufSize := by
        rw [Int.natCast_mul, Int.toNat_of_nonneg h0]
      omega
    · rw [Int.toNat_of_nonpos h0, Nat.zero_mul]
      omega)
  obtain ⟨start, n, hmem, hsector⟩ := hwithin pos len hin _ hle hlt
  rw [h.erased, List.mem_singleton] at hmem
  obtain ⟨rfl, rfl⟩ := Prod.mk.inj hmem
  rcases hsector with hone | ⟨-, hbelow⟩
  · exact hn hone
  · rw [Int.zero_add, Int.natCast_mul] at hbelow
    have hself := Int.self_le_toNat (nblock datalen)
    have := Int.mul_le_mul_of_nonneg_right hself (show (0 : Int) ≤ bufSize by decide)
    omega

/-- A file that passes is written. -/
theorem run_logged {r : Option Bytes} (hgives : Gives image cfg.OS_IMG_START bufSize r)
    (hheader : header_ok cfg (int32 image.length)
      ((take_in stack.buf r).take imageHeaderSize) = true)
    (hexit : signature_exit cfg image (image_datalen (take_in stack.buf r)) = none) :
    ∃ w', Run (logging cfg image) (upgrade_main_board cfg upgrade_boot stack) ⟨[], []⟩ none w' ∧
      ∃ s, Filled cfg (nblock (image_datalen (take_in stack.buf r))) s w' ∧
        image.length ≤ s.pos := by
  have hanswers : Answers (logging cfg image) cfg image.length r ⟨[], []⟩ :=
    ⟨rfl, fun _ => rfl, rfl, rfl, ⟨rfl, rfl⟩, ⟨hgives, rfl⟩⟩
  have hread : (logging cfg image).step ⟨[], []⟩ (.read .firstos 0 bufSize) none ⟨[], []⟩ := rfl
  have hskip := run_backup_skipped stack (run_verify_unreadable hread cfg.abi stack.nor)
    (take_in stack.buf r)
  obtain ⟨buf', w', hburn, hfilled⟩ := run_burn_all cfg image
    (image_datalen (take_in stack.buf r)) (take_in stack.buf r)
  refine ⟨w', run_upgrade hanswers hheader hskip ?_, hfilled⟩
  have hmain : Run (logging cfg image) (burn_main cfg upgrade_boot stack.behind
      (take_in stack.buf r) (image_datalen (take_in stack.buf r))) ⟨[], []⟩ none w' := by
    rw [burn_main]
    exact hburn.bind (.off _ _)
  rw [after_backup, Prog.ask_bind]
  refine .call (r := (0 : Int)) rfl ?_
  rw [if_neg (by decide), after_flag]
  rw [signature_exit] at hexit
  cases hboard : cfg.board with
  | IR9 => exact hmain
  | IDTU9 =>
    simp only [hboard] at hexit ⊢
    have hmmap : (logging cfg image).step ⟨[], []⟩
        (.mmap (cfg.OS_IMG_START - slack cfg)
          (image_datalen (take_in stack.buf r) + slack cfg + SHA256_LEN))
        (hmac_pages cfg image (image_datalen (take_in stack.buf r))) ⟨[], []⟩ := ⟨Or.inl rfl, rfl⟩
    rw [check_hmac_eq, Prog.call_bind]
    refine .call hmmap ?_
    rw [Prog.pure_bind, hexit]
    exact hmain

/-- The log of every stop is within the erased sectors. -/
def AllWithin (cfg : Config) (image : Bytes) (upgrade_boot : Bool) (stack : Stack) : Prop :=
  ∀ o w', Run (logging cfg image) (upgrade_main_board cfg upgrade_boot stack) ⟨[], []⟩ o w' →
    w'.Within

theorem covered_of_allWithin (h : AllWithin cfg image upgrade_boot stack) {r : Option Bytes}
    (hgives : Gives image cfg.OS_IMG_START bufSize r)
    (hheader : header_ok cfg (int32 image.length)
      ((take_in stack.buf r).take imageHeaderSize) = true)
    (hexit : signature_exit cfg image (image_datalen (take_in stack.buf r)) = none) :
    Covered cfg image (image_datalen (take_in stack.buf r)) := by
  obtain ⟨w', hrun, s, hfilled, hall⟩ := run_logged hgives hheader hexit
  exact covered_of_within hfilled hall (h none w' hrun)

/-- **When only erased sectors are written**: exactly when the sectors cover every file that
passes the checks, in every way its header can be read. -/
theorem allWithin_iff (cfg : Config) (image : Bytes) (upgrade_boot : Bool) (stack : Stack) :
    AllWithin cfg image upgrade_boot stack ↔
      ∀ r, Gives image cfg.OS_IMG_START bufSize r →
        header_ok cfg (int32 image.length) ((take_in stack.buf r).take imageHeaderSize) = true →
          signature_exit cfg image (image_datalen (take_in stack.buf r)) = none →
            Covered cfg image (image_datalen (take_in stack.buf r)) := by
  constructor
  · intro h r hgives hheader hexit
    exact covered_of_allWithin h hgives hheader hexit
  · intro h o w' hr
    have hend := (within_of_covered h).run hr
    cases o with
    | none => exact hend
    | some e => exact hend

end Within

/-! ### A file that is longer than its header says -/

/-- A header for one byte, and a sector behind it. -/
def longFile : Bytes := plainHeader ++ List.replicate 65536 0

theorem length_longFile : longFile.length = 65600 := by
  rw [longFile, List.length_append, List.length_replicate]
  rfl

/-- One sector is erased, and 64 bytes are written behind it. -/
theorem longFile_not_within :
    ¬ ∀ (cfg : Config) (image : Bytes) (upgrade_boot : Bool) (stack : Stack),
      AllWithin cfg image upgrade_boot stack := by
  intro h
  have hgives : Gives longFile plainConfig.OS_IMG_START bufSize
      (some ((longFile.drop 0).take 64)) := Or.inr ⟨64, by decide, by decide, rfl⟩
  have hbuf : take_in [] (some ((longFile.drop 0).take 64)) = plainHeader := by
    rw [take_in, List.drop_nil, List.append_nil, List.drop_zero, longFile,
      List.take_left' (show plainHeader.length = 64 from rfl)]
  have hheader : header_ok plainConfig (int32 longFile.length)
      ((take_in [] (some ((longFile.drop 0).take 64))).take imageHeaderSize) = true := by
    rw [hbuf, length_longFile]
    decide +kernel
  have hcovered := covered_of_allWithin (h plainConfig longFile false ⟨[], [], [], []⟩) hgives
    hheader rfl
  have hblocks : nblock (image_datalen plainHeader) = 1 := by decide
  rw [Covered, length_longFile, hbuf, hblocks] at hcovered
  exact absurd hcovered (by decide)

end Boxing.Iburn
