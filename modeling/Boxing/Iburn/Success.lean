import Boxing.Iburn.Written

/-!
# When a reported success means a valid image

The burner checks magic, name, size and checksum of the header, and on some builds a
signature; the checksum of the payload it compares only for the old image, before the
backup.  So it means what it says exactly when every file that passes is sound
(`success_iff`): `holds_of_success` is one direction.

For the other one, a file that passes must have a run to a reported success.  Its NOR
flash is all erased, so that there is no main image to back up, and as large as needed;
the boot loader partition is one sector; and when the sectors erased do not cover the
image, the first byte behind them holds something else and stays what it is
(`run_passed`).
-/

namespace Boxing.Iburn

open C Device Uboot

/-! ### The scan for the version -/

theorem strlen_some : ∀ {m : Bytes}, 0 ∈ m → ∃ k, strlen m = some k := by
  intro m
  induction m with
  | nil => intro h; cases h
  | cons c m ih =>
    intro h
    by_cases hc : c = 0
    · exact ⟨0, by rw [strlen, if_pos hc]⟩
    · obtain ⟨k, hk⟩ := ih ((List.mem_cons.mp h).resolve_left (Ne.symm hc))
      exact ⟨k + 1, by rw [strlen, if_neg hc, hk]; rfl⟩

/-- Zeros behind the buffer are seen from everywhere before their end. -/
theorem zero_mem_drop (b : Bytes) {p : Nat} (h : p < b.length + 16) :
    0 ∈ (b ++ List.replicate 16 (0 : UInt8)).drop p := by
  have hlen : (b ++ List.replicate 16 (0 : UInt8)).length = b.length + 16 := by
    rw [List.length_append, List.length_replicate]
  have hlast : (b ++ List.replicate 16 (0 : UInt8))[b.length + 15]? = some 0 := by
    rw [List.getElem?_append_right (Nat.le_add_right _ _), Nat.add_sub_cancel_left]
    rfl
  refine List.mem_of_getElem? (i := b.length + 15 - p) ?_
  rw [List.getElem?_drop, ← hlast]
  congr 1
  omega

/-- With zeros behind the buffer the scan stops, at its end or before. -/
theorem find_version_some (b : Bytes) (p : Nat) (h : p ≤ b.length + 4) :
    ∃ q, find_version (b ++ List.replicate 16 0) p = some q ∧ q ≤ b.length + 4 := by
  induction hm : b.length + 4 - p using Nat.strongRecOn generalizing p with
  | ind n ih =>
    obtain ⟨k, hk⟩ := strlen_some (zero_mem_drop b (p := p) (by omega))
    rw [find_version]
    split
    · rename_i hnil
      rw [hnil] at hk
      cases hk
    · rename_i c m hdrop
      by_cases hstop : c = 0 ∨ bufSize ≤ p
      · rw [if_pos hstop]
        exact ⟨p, rfl, h⟩
      · rw [if_neg hstop]
        rw [hdrop] at hk
        simp only [hk]
        split
        · exact ⟨p, rfl, h⟩
        · -- an entry that is not empty starts in the buffer, and ends there too
          have hin : p < b.length := by
            by_contra hge
            have hget : (b ++ List.replicate 16 (0 : UInt8))[p]? = some c := by
              rw [← Nat.add_zero p, ← List.getElem?_drop, hdrop]
              rfl
            rw [List.getElem?_append_right (Nat.le_of_not_lt hge), List.getElem?_replicate] at hget
            split at hget
            · exact hstop (Or.inl (Option.some.inj hget).symm)
            · cases hget
          have hend : k ≤ b.length - p := by
            have hsplit : c :: m = b.drop p ++ List.replicate 16 0 := by
              rw [← hdrop, List.drop_append_of_le_length (Nat.le_of_lt hin)]
            obtain ⟨s, t, hst, hs, rfl⟩ := eq_append_of_strlen _ _ hk
            by_contra hlong
            have hget : (s ++ 0 :: t)[b.length - p]? = some 0 := by
              rw [← hst, hsplit, ← List.length_drop,
                List.getElem?_append_right (Nat.le_refl _), Nat.sub_self]
              rfl
            rw [List.getElem?_append_left (by omega)] at hget
            exact hs (List.mem_of_getElem? hget)
          exact ih _ (by omega) _ (by omega) rfl

section Runs

variable {cfg : Config} {image : Bytes}

/-- Setting the version goes through. -/
theorem run_set_version (b nor : Bytes) :
    Run (lucky cfg image) (set_version (b ++ List.replicate 16 0)) nor (some true) nor := by
  obtain ⟨q, hq, hle⟩ := find_version_some b 4 (by omega)
  rw [set_version, hq]
  simp only
  split
  · obtain ⟨k, hk⟩ := strlen_some (zero_mem_drop b (p := q + 8) (by omega))
    simp only [hk]
    rw [Prog.ask_bind]
    exact .call (r := (0 : Int)) ⟨Int.le_refl 0, rfl⟩ (.ret _ _)
  · exact .ret _ _

/-- A boot loader partition of one sector: all of it is environment. -/
theorem run_boot (buf nor : Bytes) :
    Run (lucky cfg image) (upgrade_bootloader cfg (List.replicate 16 0) buf) nor (some none)
      nor := by
  have hsize : luckyStep cfg image nor (.mtd_size .bootloader) (bufSize : Int) nor :=
    ⟨fun h => absurd h (by decide), rfl⟩
  have hblocks : boot_nblock cfg (bufSize : Int) = 0 := by
    rw [boot_nblock, Abi.longBits]
    split
    · decide
    · decide
  have herase : luckyStep cfg image nor (.part_erase .bootloader 0 0) (0 : Int) nor :=
    ⟨Int.le_refl 0, by rw [if_neg (by decide)]⟩
  have hread : luckyStep cfg image nor (.read_file 0 bufSize)
      (some ((image.drop 0).take bufSize)) nor := ⟨rfl, rfl⟩
  rw [upgrade_bootloader, Prog.ask_bind]
  refine .call (r := true) ⟨rfl, rfl⟩ ?_
  rw [if_neg (by decide), Prog.ask_bind]
  refine .call hsize ?_
  rw [hblocks, Prog.ask_bind]
  refine .call herase ?_
  have hbody : Run (lucky cfg image) (boot_body 0 ⟨0, 0, 0, buf⟩) nor
      (some (.inr ⟨0, 0, 0, buf⟩)) nor := by
    rw [boot_body, if_neg (Int.lt_irrefl 0)]
    exact .ret _ _
  rw [Prog.iterate_bind]
  refine .leave hbody ?_
  rw [Prog.ask_bind]
  refine .call hread ?_
  refine (run_set_version _ nor).bind ?_
  rw [if_pos rfl]
  exact .ret _ _

/-! ### The main image -/

/-- `buf` written at `pos`, except that a byte `x` at `p` that is not erased stays. -/
def rewritten (nor buf : Bytes) (pos p : Nat) (x : UInt8) : Bytes :=
  (List.range nor.length).map fun i =>
    if pos ≤ i ∧ i < pos + buf.length ∧ ¬ (i = p ∧ x ≠ 0xff) then buf.getD (i - pos) 0
    else nor.getD i 0

theorem getElem?_rewritten (nor buf : Bytes) (pos p : Nat) (x : UInt8) (i : Nat) :
    (rewritten nor buf pos p x)[i]? =
      if pos ≤ i ∧ i < pos + buf.length ∧ ¬ (i = p ∧ x ≠ 0xff) ∧ i < nor.length then
        some (buf.getD (i - pos) 0)
      else nor[i]? := by
  rw [rewritten, List.getElem?_map]
  by_cases hi : i < nor.length
  · rw [List.getElem?_range hi, Option.map_some]
    by_cases hin : pos ≤ i ∧ i < pos + buf.length ∧ ¬ (i = p ∧ x ≠ 0xff)
    · rw [if_pos hin, if_pos ⟨hin.1, hin.2.1, hin.2.2, hi⟩]
    · rw [if_neg hin, if_neg fun h => hin ⟨h.1, h.2.1, h.2.2.1⟩, List.getD_eq_getElem?_getD,
        List.getElem?_eq_getElem hi]
      rfl
  · rw [List.getElem?_eq_none (by rw [List.length_range]; omega), if_neg fun h => hi h.2.2.2,
      List.getElem?_eq_none (Nat.le_of_not_lt hi)]
    rfl

/-- A write that fits can be done, and leave a byte as it is that is not erased. -/
theorem programmed_rewritten {nor buf : Bytes} {pos : Nat} (hfit : pos + buf.length ≤ nor.length)
    {p : Nat} {x : UInt8} (hx : x ≠ 0xff → nor[p]? = some x) :
    Programmed nor pos buf (rewritten nor buf pos p x) ∧
      (x ≠ 0xff → (rewritten nor buf pos p x)[p]? = some x) := by
  refine ⟨⟨hfit, ?_, fun i hi => ?_, fun i hle hlt herased => ?_⟩, fun hne => ?_⟩
  · rw [rewritten, List.length_map, List.length_range]
  · rw [getElem?_rewritten, if_neg (by omega)]
  · have hother : ¬ (i = p ∧ x ≠ 0xff) := by
      rintro ⟨rfl, hne⟩
      rw [hx hne] at herased
      exact hne (Option.some.inj herased)
    rw [getElem?_rewritten, if_pos ⟨hle, hlt, hother, by omega⟩, List.getD_eq_getElem?_getD,
      List.getElem?_eq_getElem (by omega)]
    rfl
  · rw [getElem?_rewritten, if_neg fun h => h.2.2.1 ⟨rfl, hne⟩]
    exact hx hne

/-- The loop that writes the file can come to its end, in a flash that is large enough. -/
theorem run_burn_ends (cfg : Config) {s : Burn} {nor : Bytes} {p : Nat} {x : UInt8}
    (hroom : s.dest + (image.length - s.pos) ≤ nor.length) (hx : x ≠ 0xff → nor[p]? = some x) :
    ∃ buf nor', Run (lucky cfg image) (Prog.iterate burn_body s) nor (some buf) nor' ∧
      (x ≠ 0xff → nor'[p]? = some x) := by
  refine Run.iterate_ends (fun s : Burn => image.length - s.pos)
    (I := fun s nor => s.dest + (image.length - s.pos) ≤ nor.length ∧
      (x ≠ 0xff → nor[p]? = some x)) (fun s nor hs => ?_) ⟨hroom, hx⟩
  obtain ⟨hroom, hx⟩ := hs
  have hread : luckyStep cfg image nor (.read_file s.pos bufSize)
      (some ((image.drop s.pos).take bufSize)) nor := ⟨rfl, rfl⟩
  have hlen : ((image.drop s.pos).take bufSize).length = min bufSize (image.length - s.pos) := by
    rw [List.length_take, List.length_drop]
  have hpos := bufSize_pos
  by_cases hend : moved (some ((image.drop s.pos).take bufSize)) = 0
  · refine ⟨.inr (take_in s.buf (some ((image.drop s.pos).take bufSize))), nor, ?_, hx⟩
    rw [burn_body, Prog.ask_bind]
    refine .call hread ?_
    rw [if_pos hend]
    exact .ret _ _
  · have hd : (take_in s.buf (some ((image.drop s.pos).take bufSize))).take
        (moved (some ((image.drop s.pos).take bufSize))) = (image.drop s.pos).take bufSize := by
      rw [take_in, moved, List.take_left]
    have hmoved : moved (some ((image.drop s.pos).take bufSize))
        = min bufSize (image.length - s.pos) := hlen
    have hfit : s.dest + ((image.drop s.pos).take bufSize).length ≤ nor.length := by omega
    obtain ⟨hprog, hx'⟩ := programmed_rewritten hfit hx
    generalize rewritten nor ((image.drop s.pos).take bufSize) s.dest p x = nor' at hprog hx'
    have hwrite : luckyStep cfg image nor (.write .firstos s.dest ((image.drop s.pos).take bufSize))
        (((image.drop s.pos).take bufSize).length : Int) nor' := ⟨rfl, by rwa [if_pos rfl]⟩
    refine ⟨.inl ⟨s.pos + moved (some ((image.drop s.pos).take bufSize)),
      s.dest + ((image.drop s.pos).take bufSize).length,
      take_in s.buf (some ((image.drop s.pos).take bufSize))⟩, nor', ?_, ⟨?_, hx'⟩, ?_⟩
    · rw [burn_body, Prog.ask_bind]
      refine .call hread ?_
      rw [if_neg hend, hd, Prog.ask_bind]
      exact .call hwrite (.ret _ _)
    · show s.dest + ((image.drop s.pos).take bufSize).length
          + (image.length - (s.pos + moved (some ((image.drop s.pos).take bufSize)))) ≤ nor'.length
      rw [hprog.length, hmoved, hlen]
      omega
    · show image.length - (s.pos + moved (some ((image.drop s.pos).take bufSize)))
        < image.length - s.pos
      omega

/-- An erased flash of `n` bytes, but for a byte `x` at `p`. -/
def blank (n p : Nat) (x : UInt8) : Bytes := (List.replicate n 0xff).set p x

theorem blank_length (n p : Nat) (x : UInt8) : (blank n p x).length = n := by
  rw [blank, List.length_set, List.length_replicate]

theorem getElem?_blank {n p : Nat} {x : UInt8} {i : Nat} (hi : i < n) (hp : i = p → x = 0xff) :
    (blank n p x)[i]? = some 0xff := by
  rw [blank, List.getElem?_set]
  by_cases h : p = i
  · rw [if_pos h, if_pos (by rw [List.length_replicate]; omega), hp h.symm]
  · rw [if_neg h, List.getElem?_replicate, if_pos hi]

theorem getElem?_blank_self {n p : Nat} {x : UInt8} (hp : p < n) : (blank n p x)[p]? = some x := by
  rw [blank, List.getElem?_set_self (by rwa [List.length_replicate])]

/-- Erasing what is erased leaves it as it is. -/
theorem erased_blank {n p : Nat} {x : UInt8} {k : Int}
    (hx : x ≠ 0xff → k ≠ -1 ∧ k * bufSize ≤ p) : Erased (blank n p x) 0 k (blank n p x) := by
  refine ⟨rfl, fun hk i hi => ?_, fun _ i hi => ?_⟩
  · rw [blank_length] at hi
    refine getElem?_blank hi fun _ => ?_
    by_contra hne
    exact (hx hne).1 hk
  · rw [blank_length] at hi
    split
    · rename_i hin
      refine getElem?_blank hi fun he => ?_
      by_contra hne
      have hle := (hx hne).2
      rw [Int.zero_add] at hin
      omega
    · rfl

/-- In a blank flash there is no main image. -/
theorem run_verify_blank {n p : Nat} {x : UInt8} (hn : bufSize ≤ n) (hp : p = 0 ∨ bufSize ≤ p) :
    Run (lucky cfg image) (verify_nor_image cfg.abi .firstos []) (blank n p x) (some (-1))
      (blank n p x) := by
  have hread : luckyStep cfg image (blank n p x) (.read .firstos 0 bufSize)
      (some (((blank n p x).drop 0).take bufSize)) (blank n p x) := ⟨fun _ => rfl, rfl⟩
  have hlen : (((blank n p x).drop 0).take bufSize).length = bufSize := by
    rw [List.drop_zero, List.length_take, blank_length]
    omega
  have hdcrc : ih_dcrc (take_in [] (some (((blank n p x).drop 0).take bufSize))) = 0xffffffff := by
    have hget : ∀ i, 24 ≤ i → i < 28 →
        (take_in [] (some (((blank n p x).drop 0).take bufSize))).getD i 0 = 0xff := by
      intro i hle hlt
      have hbuf : (28 : Nat) < bufSize := by decide
      rw [take_in, List.getD_eq_getElem?_getD, List.getElem?_append_left (by omega),
        List.getElem?_take_of_lt (by omega), List.drop_zero,
        getElem?_blank (by omega) (fun h => by omega)]
      rfl
    rw [ih_dcrc, be32, hget 24 (by omega) (by omega), hget 25 (by omega) (by omega),
      hget 26 (by omega) (by omega), hget 27 (by omega) (by omega)]
    decide
  rw [verify_nor_image, Prog.ask_bind]
  refine .call hread ?_
  have hmoved : moved (some (((blank n p x).drop 0).take bufSize)) = bufSize := hlen
  rw [hmoved, if_neg (by decide), if_pos hdcrc]
  exact .ret _ _

/-- A signature that matches goes through. -/
theorem run_hmac {datalen : Int} {nor : Bytes} (h : signature_ok cfg image datalen = true) :
    Run (lucky cfg image) (check_hmac cfg datalen) nor (some none) nor := by
  have hmmap : luckyStep cfg image nor
      (.mmap (cfg.OS_IMG_START - slack cfg) (datalen + slack cfg + SHA256_LEN))
      (map_file cfg image (cfg.OS_IMG_START - slack cfg) (datalen + slack cfg + SHA256_LEN))
      nor := ⟨rfl, rfl⟩
  rw [check_hmac, Prog.ask_bind]
  refine .call hmmap ?_
  rw [signature_ok] at h
  cases hmap : map_file cfg image (cfg.OS_IMG_START - slack cfg)
      (datalen + slack cfg + SHA256_LEN) with
  | none =>
    rw [hmap] at h
    cases h
  | some p_map =>
    rw [hmap] at h
    simp only [Bool.and_eq_true] at h
    simp only
    rw [if_neg (by rw [h.1]; decide), if_pos h.2]
    exact .ret _ _

/-- From the main image on, everything can go well. -/
theorem run_burn_main_ends (cfg : Config) (upgrade_boot : Bool) (buf : Bytes) {datalen : Int}
    {n p : Nat} {x : UInt8} (hn : image.length ≤ n) (hp : p < n)
    (hx : x ≠ 0xff → nblock datalen ≠ -1 ∧ nblock datalen * bufSize ≤ p) :
    ∃ nor', Run (lucky cfg image) (burn_main cfg upgrade_boot (List.replicate 16 0) buf datalen)
      (blank n p x) (some .success) nor' ∧ (x ≠ 0xff → nor'[p]? = some x) := by
  have herase : luckyStep cfg image (blank n p x) (.part_erase .firstos 0 (nblock datalen))
      (0 : Int) (blank n p x) := ⟨Int.le_refl 0, by rw [if_pos rfl]; exact erased_blank hx⟩
  have hroom : 0 + (image.length - cfg.OS_IMG_START) ≤ (blank n p x).length := by
    rw [blank_length]
    omega
  obtain ⟨buf', nor', hloop, hx'⟩ := run_burn_ends cfg
    (s := ⟨cfg.OS_IMG_START, 0, buf⟩) hroom (fun _ : x ≠ 0xff => getElem?_blank_self hp)
  refine ⟨nor', ?_, hx'⟩
  have hfinish : Run (lucky cfg image) finish nor' (some .success) nor' := by
    rw [finish, Prog.ask_bind]
    refine .call (r := (0 : Int)) ⟨Int.le_refl 0, rfl⟩ ?_
    rw [if_neg (by decide)]
    exact .ret _ _
  have hburn : Run (lucky cfg image) (burn cfg datalen buf) (blank n p x) (some (.inr buf'))
      nor' := by
    rw [burn, Prog.ask_bind]
    refine .call herase ?_
    rw [if_neg (by decide)]
    exact hloop.bind (.ret _ _)
  rw [burn_main]
  refine hburn.bind ?_
  show Run _ (after_burn cfg upgrade_boot (List.replicate 16 0) buf') _ _ _
  rw [after_burn]
  split
  · exact (run_boot buf' nor').bind hfinish
  · exact hfinish

/-- **A file that passes is burnt.** -/
theorem run_passed (upgrade_boot : Bool) {buf : Bytes} {n p : Nat} {x : UInt8}
    (hpass : passes cfg image (file_header cfg image buf) = true)
    (hn : image.length ≤ n) (hbuf : bufSize ≤ n) (hp : p < n) (hp0 : p = 0 ∨ bufSize ≤ p)
    (hx : x ≠ 0xff → nblock (image_datalen (file_header cfg image buf)) ≠ -1 ∧
      nblock (image_datalen (file_header cfg image buf)) * bufSize ≤ p) :
    ∃ nor', Run (lucky cfg image)
      (upgrade_main_board cfg upgrade_boot ⟨buf, List.replicate 16 0, [], []⟩) (blank n p x)
      (some .success) nor' ∧ (x ≠ 0xff → nor'[p]? = some x) := by
  have hanswers : Answers (lucky cfg image) cfg image.length
      (some ((image.drop cfg.OS_IMG_START).take bufSize)) (blank n p x) :=
    ⟨⟨rfl, rfl⟩, fun _ => ⟨rfl, rfl⟩, rfl, ⟨rfl, rfl⟩, ⟨rfl, rfl⟩, ⟨rfl, rfl⟩⟩
  obtain ⟨nor', hmain, hx'⟩ := run_burn_main_ends cfg upgrade_boot
    (take_in buf (some ((image.drop cfg.OS_IMG_START).take bufSize))) hn hp hx
  refine ⟨nor', ?_, hx'⟩
  rw [passes, Bool.and_eq_true] at hpass
  obtain ⟨hheader, hsigned⟩ := hpass
  have hverify : Run (lucky cfg image) (verify_nor_image cfg.abi .firstos []) (blank n p x)
      (some (-1)) (blank n p x) := run_verify_blank hbuf hp0
  have hskip := run_backup_skipped ⟨buf, List.replicate 16 0, [], []⟩ hverify
    (take_in buf (some ((image.drop cfg.OS_IMG_START).take bufSize)))
  refine run_upgrade hanswers hheader hskip ?_
  rw [after_backup, Prog.ask_bind]
  refine .call (r := (0 : Int)) ⟨Int.le_refl 0, rfl⟩ ?_
  rw [if_neg (by decide), after_flag, ← image_datalen_take]
  cases hboard : cfg.board with
  | IR9 => exact hmain
  | IDTU9 =>
    rw [hboard] at hsigned
    have hsig : signature_ok cfg image (image_datalen (file_header cfg image buf)) = true := by
      simpa using hsigned
    exact (run_hmac hsig).bind hmain

end Runs

/-- **When a success can be trusted**: for what the stack held before in `buf`, every run
that reports a success leaves a valid image, exactly when the file, if it passes the
checks, is sound. -/
theorem success_iff (cfg : Config) (image : Bytes) (upgrade_boot : Bool) (buf : Bytes) :
    (∀ behind norBuf nandBuf nor nor' : Bytes,
        Run (lucky cfg image) (upgrade_main_board cfg upgrade_boot ⟨buf, behind, norBuf, nandBuf⟩)
          nor (some .success) nor' → Holds cfg image (file_header cfg image buf) nor') ↔
      (passes cfg image (file_header cfg image buf) = true →
        Sound cfg image (file_header cfg image buf)) := by
  constructor
  · intro h hpass
    have hbig : image.length ≤ image.length + bufSize := Nat.le_add_right _ _
    have hbuf : bufSize ≤ image.length + bufSize := Nat.le_add_left _ _
    have hpos := bufSize_pos
    obtain ⟨nor', hrun, -⟩ := run_passed upgrade_boot (p := 0) (x := 0xff)
      hpass hbig hbuf (by omega) (Or.inl rfl) (fun hne => absurd rfl hne)
    obtain ⟨hwhole, -, hcrc⟩ := h _ _ _ _ _ hrun
    refine ⟨hwhole, ?_, hcrc⟩
    by_contra hcovered
    obtain ⟨hall, hshort⟩ := not_or.mp hcovered
    generalize hk : nblock (image_datalen (file_header cfg image buf)) = k at hall hshort
    generalize hlen : imageHeaderSize + ih_size (file_header cfg image buf) = len at hwhole hshort
    -- the first byte behind the erased sectors still belongs to the image
    have hp : k.toNat * bufSize < len := by
      rcases Int.le_total 0 k with hk0 | hk0
      · have hcast : ((k.toNat * bufSize : Nat) : Int) = k * bufSize := by
          rw [Int.natCast_mul, Int.toNat_of_nonneg hk0]
        omega
      · rw [Int.toNat_of_nonpos hk0, Nat.zero_mul]
        rw [← hlen]
        exact Nat.lt_of_lt_of_le (by decide) (Nat.le_add_right _ _)
    have hplace : k.toNat * bufSize = 0 ∨ bufSize ≤ k.toNat * bufSize := by
      rcases Nat.eq_zero_or_pos k.toNat with h0 | h1
      · exact Or.inl (by rw [h0, Nat.zero_mul])
      · exact Or.inr (Nat.le_mul_of_pos_left _ h1)
    have hbehind : k * bufSize ≤ ((k.toNat * bufSize : Nat) : Int) := by
      rw [Int.natCast_mul]
      exact Int.mul_le_mul_of_nonneg_right (Int.self_le_toNat k) (by decide)
    obtain ⟨x, hxff, hxne⟩ : ∃ x : UInt8, x ≠ 0xff ∧
        image[cfg.OS_IMG_START + k.toNat * bufSize]? ≠ some x := by
      by_cases h0 : image[cfg.OS_IMG_START + k.toNat * bufSize]? = some 0
      · exact ⟨1, by decide, by rw [h0]; decide⟩
      · exact ⟨0, by decide, h0⟩
    obtain ⟨nor₂, hrun₂, hkept⟩ := run_passed upgrade_boot
      (p := k.toNat * bufSize) (x := x) hpass hbig hbuf (by omega) hplace
      (fun _ => by rw [hk]; exact ⟨hall, hbehind⟩)
    obtain ⟨-, hstarts, -⟩ := h _ _ _ _ _ hrun₂
    rw [hlen] at hstarts
    obtain ⟨rest, hrest⟩ := hstarts
    have hbyte : nor₂[k.toNat * bufSize]? = image[cfg.OS_IMG_START + k.toNat * bufSize]? := by
      rw [← hrest, List.getElem?_append_left (by rw [List.length_take, List.length_drop]; omega),
        List.getElem?_take_of_lt hp, List.getElem?_drop]
    exact hxne (by rw [← hbyte]; exact hkept hxff)
  · intro hsound behind norBuf nandBuf nor nor' hrun
    have hend : Holds cfg image (file_header cfg image (Stack.mk buf behind norBuf nandBuf).buf)
        nor' := holds_of_success hsound hrun
    exact hend

/-! ### A damaged download -/

/-- A file whose payload `1` has not the checksum in its header. -/
def damagedImage : Bytes := plainHeader ++ [1]

/-- The damaged file is burnt, and the success reported. -/
theorem success_damagedImage :
    ¬ ∀ (cfg : Config) (image : Bytes) (upgrade_boot : Bool)
      (buf behind norBuf nandBuf nor nor' : Bytes),
      Run (lucky cfg image) (upgrade_main_board cfg upgrade_boot ⟨buf, behind, norBuf, nandBuf⟩)
        nor (some .success) nor' → Holds cfg image (file_header cfg image buf) nor' := by
  intro h
  have hheader : file_header plainConfig damagedImage [] = plainHeader := by decide +kernel
  have hpass : passes plainConfig damagedImage (file_header plainConfig damagedImage []) = true := by
    rw [hheader]
    decide +kernel
  have hlen : damagedImage.length ≤ bufSize := by decide
  obtain ⟨nor', hrun, -⟩ := run_passed false (p := 0) (x := 0xff)
    hpass hlen (Nat.le_refl bufSize) bufSize_pos (Or.inl rfl) (fun hne => absurd rfl hne)
  obtain ⟨-, -, hcrc⟩ := h _ _ _ _ _ _ _ _ _ hrun
  rw [hheader] at hcrc
  exact absurd hcrc (by decide +kernel)

end Boxing.Iburn
