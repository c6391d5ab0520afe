import Boxing.Ig9.Banks
import Boxing.Ig9.Copy
import Boxing.Ig9.Reject

/-!
# What the bank holds when the flag is set

The image is checked through a mapping, and written by a loop of its own that reads the file
again and drops what `write` answers.  A `read` that fails ends that loop like the end of the
file does, and a short or failed `write` leaves a hole: the flag is set all the same.

Short reads do no harm: what was read is where the bank is written next (`Copied`).  So the
flag is only set on a bank that holds the verified bytes exactly when no file passes the
checks, or there is nothing to hold, or neither a `read` nor a `write` can fail and the file
has the bytes (`switchesSafely_iff`).
-/

namespace Boxing.Ig9

open C Device

/-! ### The flash -/

/-- What can go wrong with the file, and with the flash. -/
structure Faults where
  read : Bool
  write : Bool
deriving DecidableEq, Repr

/-- The bytes of each partition, from the place it is written from; how far the partition
opened last is written; and the flag that was asked for. -/
structure Emmc where
  bytes : Part → Nat → UInt8
  pos : Nat
  asked : Option (BitVec 32)

/-- `d` is written. -/
def Emmc.put (w : Emmc) (part : Part) (d : Bytes) : Emmc where
  bytes := fun p i =>
    if p = part ∧ w.pos ≤ i then d.getD (i - w.pos) (w.bytes p i) else w.bytes p i
  pos := w.pos + d.length
  asked := w.asked

/-- The calls, with the firmware file `image`: an erase may do anything to its partition or
nothing, and a write that falls short writes what it says. -/
def emmcStep (image : Bytes) (faults : Faults) : Emmc → (c : IgCall) → IgRet c → Emmc → Prop
  | w, .f_exists, _, w' => w' = w
  | w, .open_file, _, w' => w' = w
  | w, .fstat, r, w' => r = image.length ∧ w' = w
  | w, .mtd_erase part _ _, _, w' => ∃ c, w' = { w with bytes := Function.update w.bytes part c }
  | w, .part_open _, _, w' => w' = { w with pos := 0 }
  | w, .read pos len, r, w' => Reads faults.read image pos len r ∧ w' = w
  | w, .write part buf size, r, w' =>
    (r = size ∨ faults.write = true ∧ r < size) ∧ w' = w.put part (buf.take r.toNat)
  | w, .bootenv_set _ _, _, w' => w' = w
  | w, .mmap pos len, r, w' => (r = none ∨ r = some ((image.drop pos).take len)) ∧ w' = w
  | w, .munmap, _, w' => w' = w
  | w, .read_bootflag, _, w' => w' = w
  | w, .set_bootflag flag, _, w' => w' = { w with asked := some flag }

/-- A run may be looked at after any call. -/
def emmc (image : Bytes) (faults : Faults) : Sem IgRet Emmc where
  step := emmcStep image faults
  cut := fun _ _ _ => False

section Statement

variable (cfg : Config) (image : Bytes) (faults : Faults)

/-- A bank begins with the bytes that were verified. -/
def HoldsImage (content : Nat → UInt8) : Prop :=
  ∀ i < fdt_totalsize (header cfg image), (mapped cfg image)[i]? = some (content i)

/-- A flag that was asked for names such a bank. -/
def Switched (w : Emmc) : Prop :=
  ∀ flag, w.asked = some flag → HoldsImage cfg image (w.bytes (bank flag))

/-- In every run, wherever it is looked at, and success is only told when a flag was asked
for. -/
def SwitchesSafely : Prop :=
  ∀ (upgrade_boot : Bool) (buf behind : Bytes) (w w' : Emmc) (o : Option Exit), w.asked = none →
    Run (emmc image faults) (upgrade_main_board cfg upgrade_boot buf behind) w o w' →
      (o = some .success → w'.asked ≠ none) ∧ Switched cfg image w'

/-- The file passes the checks, its header read in full or in part. -/
def acceptable : Prop :=
  (∃ k ≤ fdtHeaderSize,
    fdt_check_header (padded fdtHeaderSize ((image.drop cfg.OS_IMG_START).take k)) = 0) ∧
    too_short cfg (int32 image.length) (fdt_totalsize (header cfg image)) = false ∧
      cfg.fit_check_format (mapped cfg image) = true ∧
        cfg.fit_all_image_verify (mapped cfg image) = true

/-- Neither a `read` nor a `write` can fall short, and the file has the bytes. -/
structure Sound : Prop where
  read : faults.read = false
  write : faults.write = false
  buffer : 0 < cfg.EMMC_WRITE_BUFF_SIZE
  whole : cfg.OS_IMG_START + fdt_totalsize (header cfg image) ≤ image.length

end Statement

/-! ### The header -/

section Header

variable {cfg : Config} {image d : Bytes} {k : Nat}

/-- A header that passes has been read beyond its second word: the fields behind that are
not zero. -/
theorem lt_of_check_header (h : fdt_check_header (padded fdtHeaderSize (d.take k)) = 0) :
    20 < k := by
  by_contra hk
  have hzero : ∀ off, 20 ≤ off → be32 (padded fdtHeaderSize (d.take k)) off = 0 := fun off hoff => by
    rw [be32_padded]
    exact be32_of_length_le (Nat.le_trans (List.length_take_le _ _) (by omega))
  have hversion : fdt_version (padded fdtHeaderSize (d.take k)) = 0 := hzero 20 (by decide)
  have hstruct : fdt_size_dt_struct (padded fdtHeaderSize (d.take k)) = 0 := hzero 36 (by decide)
  rw [fdt_check_header, hversion, hstruct] at h
  split at h
  · rw [if_pos (by decide)] at h
    exact absurd h (by decide)
  split at h
  · exact absurd h (by decide)
  · exact absurd h (by decide)

/-- **The size is the right one** however much of the header was read. -/
theorem fdt_totalsize_of_check (hk : k ≤ fdtHeaderSize)
    (h : fdt_check_header (padded fdtHeaderSize ((image.drop cfg.OS_IMG_START).take k)) = 0) :
    fdt_totalsize (padded fdtHeaderSize ((image.drop cfg.OS_IMG_START).take k)) =
      fdt_totalsize (header cfg image) := by
  have hlt := lt_of_check_header h
  rw [header, fdt_totalsize, fdt_totalsize, be32_padded, be32_padded, be32_take _ (by omega),
    be32_take _ (by omega)]

end Header

/-! ### Writing the bank -/

section Write

variable {cfg : Config} {image : Bytes} {faults : Faults} {part : Part} {s : Nat × Bytes}
  {w : Emmc} {buf : Bytes}

theorem put_bytes_of_lt {d : Bytes} {i : Nat} (h : i < w.pos) :
    (w.put part d).bytes part i = w.bytes part i :=
  if_neg fun hc => by omega

theorem put_bytes_of_le {d : Bytes} {i : Nat} (h : w.pos ≤ i) :
    (w.put part d).bytes part i = d.getD (i - w.pos) (w.bytes part i) :=
  if_pos ⟨rfl, h⟩

/-- Nothing written changes nothing. -/
theorem put_nil : (w.put part []).bytes = w.bytes := by
  funext p i
  simp [Emmc.put]

/-- What has been read is what has been written. -/
structure Copied (cfg : Config) (image : Bytes) (part : Part) (s : Nat × Bytes) (w : Emmc) :
    Prop where
  position : s.1 = cfg.OS_IMG_START + w.pos
  same : ∀ i < w.pos, image[cfg.OS_IMG_START + i]? = some (w.bytes part i)

theorem Copied.put (h : Copied cfg image part s w) (k : Nat) (buf : Bytes) :
    Copied cfg image part (s.1 + ((image.drop s.1).take k).length, buf)
      (w.put part ((image.drop s.1).take k)) := by
  have hposition := h.position
  constructor
  · rw [Emmc.put, hposition, Nat.add_assoc]
  · intro i hi
    rcases Nat.lt_or_ge i w.pos with hold | hnew
    · rw [put_bytes_of_lt hold]
      exact h.same i hold
    · have hin : i - w.pos < ((image.drop s.1).take k).length := Nat.sub_lt_left_of_lt_add hnew hi
      have hget : ((image.drop s.1).take k)[i - w.pos]? = image[cfg.OS_IMG_START + i]? := by
        have hk : i - w.pos < k := Nat.lt_of_lt_of_le hin (List.length_take_le _ _)
        have hsum : s.1 + (i - w.pos) = cfg.OS_IMG_START + i := by omega
        rw [List.getElem?_take_of_lt hk, List.getElem?_drop, hsum]
      rw [put_bytes_of_le hnew, List.getD_eq_getElem _ _ hin, ← hget, List.getElem?_eq_getElem hin]

theorem mapped_getElem? {i : Nat} (h : i < fdt_totalsize (header cfg image)) :
    (mapped cfg image)[i]? = image[cfg.OS_IMG_START + i]? := by
  rw [mapped, List.getElem?_take_of_lt h, List.getElem?_drop]

/-- At the end of the file the bank holds the image. -/
theorem Copied.holds (h : Copied cfg image part s w) (hend : image.length ≤ s.1)
    (hwhole : cfg.OS_IMG_START + fdt_totalsize (header cfg image) ≤ image.length) :
    HoldsImage cfg image (w.bytes part) := by
  intro i hi
  have hposition := h.position
  rw [mapped_getElem? hi]
  exact h.same i (by omega)

theorem switched_of_none (h : w.asked = none) : Switched cfg image w := by
  intro flag hflag
  rw [h] at hflag
  cases hflag

/-- One call with no flag asked for yet. -/
theorem wp_ask {α : Type} {c : IgCall} {k : IgRet c → Prog IgRet α} {Q : α → Emmc → Prop}
    (h : w.asked = none)
    (hk : ∀ r w', emmcStep image faults w c r w' →
      wp (emmc image faults) (k r) Q (Switched cfg image) w') :
    wp (emmc image faults) (.call c k) Q (Switched cfg image) w :=
  wp_call.mpr ⟨switched_of_none h, fun _ hc => hc.elim, hk⟩

/-- The loop has no flag to set, and leaves the image in the bank if there is one to leave. -/
theorem wp_write_loop {α : Type} {k : Unit → Prog IgRet α} {Q : α → Emmc → Prop}
    (hgood : fdt_totalsize (header cfg image) = 0 ∨ Sound cfg image faults)
    (h : w.asked = none) (hpos : w.pos = 0)
    (hk : ∀ w', w'.asked = none → HoldsImage cfg image (w'.bytes part) →
      wp (emmc image faults) (k ()) Q (Switched cfg image) w') :
    wp (emmc image faults) (.loop (write_body cfg part) (cfg.OS_IMG_START, buf) k) Q
      (Switched cfg image) w := by
  have hstart : Copied cfg image part (cfg.OS_IMG_START, buf) w :=
    ⟨by rw [hpos, Nat.add_zero], fun i hi => absurd hi (by omega)⟩
  refine wp_loop (fun s w => w.asked = none ∧ (Sound cfg image faults → Copied cfg image part s w))
    ⟨h, fun _ => hstart⟩ fun s w hs => ?_
  obtain ⟨hnone, hcopied⟩ := hs
  rw [write_body, Prog.ask_bind]
  refine wp_ask hnone fun r w₁ hread => ?_
  obtain ⟨hr, rfl⟩ := hread
  by_cases hm : moved r = 0
  · -- the loop is left, at the end of the file if no read can fail
    rw [if_pos hm]
    refine wp_pure.mpr ⟨hk w₁ hnone ?_, switched_of_none hnone⟩
    rcases hgood with hempty | hsound
    · intro i hi
      rw [hempty] at hi
      exact absurd hi (Nat.not_lt_zero i)
    rcases hr with ⟨hfails, -⟩ | ⟨n, -, hzero, rfl⟩
    · rw [hsound.read] at hfails
      cases hfails
    have hbuffer := hsound.buffer
    have hend : image.length ≤ s.1 := by
      rw [moved, List.length_take, List.length_drop] at hm
      by_cases hn : n = 0
      · rcases hzero hn with h0 | hend
        · omega
        · exact hend
      · omega
    exact (hcopied hsound).holds hend hsound.whole
  · rw [if_neg hm, Prog.ask_bind]
    refine wp_ask hnone fun ret w₂ hwrite => ?_
    obtain ⟨hret, rfl⟩ := hwrite
    refine wp_pure.mpr ⟨⟨hnone, fun hsound => ?_⟩, switched_of_none hnone⟩
    rcases hr with ⟨-, rfl⟩ | ⟨n, -, -, rfl⟩
    · exact absurd rfl hm
    have hfull : ret = moved (some ((image.drop s.1).take n)) := by
      refine hret.resolve_right fun hfails => ?_
      rw [hsound.write] at hfails
      cases hfails.1
    have hbuf : ((take_in s.2 (some ((image.drop s.1).take n))).take
        (moved (some ((image.drop s.1).take n)))).take ret.toNat = (image.drop s.1).take n := by
      rw [hfull, Int.toNat_natCast, List.take_take, Nat.min_self, take_in, moved,
        List.take_left]
    rw [hbuf]
    exact (hcopied hsound).put n _

/-- **The flag is set on the bank that was written.** -/
theorem wp_write_safely
    (hgood : fdt_totalsize (header cfg image) = 0 ∨ Sound cfg image faults)
    (h : w.asked = none) :
    wp (emmc image faults) (write_bank cfg buf)
      (fun e w' => (e = .success → w'.asked ≠ none) ∧ Switched cfg image w')
      (Switched cfg image) w := by
  have hexit : ∀ e w, e ≠ Exit.success → w.asked = none →
      wp (emmc image faults) (.pure e)
        (fun e w' => (e = .success → w'.asked ≠ none) ∧ Switched cfg image w')
        (Switched cfg image) w := fun e w he hw =>
    wp_pure.mpr ⟨⟨fun h => absurd h he, switched_of_none hw⟩, switched_of_none hw⟩
  rw [write_bank, Prog.ask_bind]
  refine wp_ask h fun fd w₁ hs => ?_
  obtain rfl : w₁ = { w with pos := 0 } := hs
  split
  · exact hexit _ _ (by decide) h
  rw [Prog.ask_bind]
  refine wp_ask h fun bootflag w₂ hs => ?_
  obtain rfl : w₂ = { w with pos := 0 } := hs
  rw [Prog.ask_bind]
  refine wp_ask h fun r w₃ hs => ?_
  obtain ⟨c, rfl⟩ := hs
  rw [Prog.ask_bind]
  refine wp_ask h fun OsFd w₄ hs => ?_
  obtain rfl : w₄ = ⟨Function.update w.bytes (target bootflag) c, 0, w.asked⟩ := hs
  split
  · exact hexit _ _ (by decide) h
  rw [Prog.iterate_bind]
  refine wp_write_loop hgood h rfl fun w₅ hnone hholds => ?_
  rw [Prog.ask_bind]
  refine wp_ask hnone fun err w₆ hs => ?_
  obtain rfl : w₆ = { w₅ with asked := some (new_flag bootflag) } := hs
  have hswitched : Switched cfg image { w₅ with asked := some (new_flag bootflag) } := by
    intro flag hflag
    obtain rfl := Option.some.inj hflag
    rw [bank_new_flag]
    exact hholds
  split
  · exact wp_pure.mpr ⟨⟨fun he => absurd he (by decide), hswitched⟩, hswitched⟩
  · exact wp_pure.mpr ⟨⟨fun _ => Option.some_ne_none _, hswitched⟩, hswitched⟩

end Write

/-! ### The checks -/

section Check

variable {cfg : Config} {image : Bytes} {faults : Faults} {w : Emmc}

/-- The checks leave the flag alone. -/
theorem aside_asked {c : IgCall} {r : IgRet c} {w' : Emmc} (hc : Aside c) (h : w.asked = none)
    (hs : emmcStep image faults w c r w') : w'.asked = none := by
  cases c with
  | mtd_erase part start count =>
    obtain ⟨content, rfl⟩ := hs
    exact h
  | write part buf size =>
    obtain ⟨-, rfl⟩ := hs
    exact h
  | set_bootflag flag => exact hc.elim
  | read pos len =>
    obtain rfl : w' = w := hs.2
    exact h
  | mmap pos len =>
    obtain rfl : w' = w := hs.2
    exact h
  | fstat =>
    obtain rfl : w' = w := hs.2
    exact h
  | part_open part =>
    obtain rfl : w' = { w with pos := 0 } := hs
    exact h
  | f_exists => obtain rfl : w' = w := hs; exact h
  | open_file => obtain rfl : w' = w := hs; exact h
  | bootenv_set name value => obtain rfl : w' = w := hs; exact h
  | munmap => obtain rfl : w' = w := hs; exact h
  | read_bootflag => obtain rfl : w' = w := hs; exact h

/-- **A file that passes is acceptable.** -/
theorem acceptable_of_check {w' : Emmc}
    (h : Run (emmc image faults) (check_image cfg (int32 image.length)) w (some none) w') :
    acceptable cfg image := by
  rw [check_image, Prog.ask_bind, Run.some_call] at h
  obtain ⟨r, w₁, ⟨hr, -⟩, h⟩ := h
  rcases hr with ⟨-, rfl⟩ | ⟨k, hk, -, rfl⟩
  · cases (Run.some_pure.mp h).1
  simp only [check_header] at h
  split at h
  · cases (Run.some_pure.mp h).1
  rename_i hhead
  rw [not_not] at hhead
  rw [fdt_totalsize_of_check hk hhead] at h
  split at h
  · cases (Run.some_pure.mp h).1
  rename_i hsize
  rw [Prog.ask_bind, Run.some_call] at h
  obtain ⟨p_map, w₂, ⟨hmap, -⟩, h⟩ := h
  rcases hmap with rfl | rfl
  · cases (Run.some_pure.mp h).1
  simp only at h
  split at h
  · rw [Prog.ask_bind, Run.some_call] at h
    obtain ⟨ret, w₃, -, h⟩ := h
    cases (Run.some_pure.mp h).1
  rename_i hformat
  split at h
  · rw [Prog.ask_bind, Run.some_call] at h
    obtain ⟨ret, w₃, -, h⟩ := h
    cases (Run.some_pure.mp h).1
  rename_i hhash
  rw [Bool.not_eq_false] at hformat hhash
  rw [Bool.not_eq_true] at hsize
  exact ⟨⟨k, hk, hhead⟩, hsize, hformat, hhash⟩

/-- And an acceptable one can pass. -/
theorem run_check_acceptable (h : acceptable cfg image) (w : Emmc) :
    Run (emmc image faults) (check_image cfg (int32 image.length)) w (some none) w := by
  obtain ⟨⟨k, hk, hhead⟩, hsize, hformat, hhash⟩ := h
  have hread : (emmc image faults).step w (.read cfg.OS_IMG_START fdtHeaderSize)
      (some ((image.drop cfg.OS_IMG_START).take k)) w :=
    ⟨Or.inr ⟨k, hk, fun h0 => absurd (lt_of_check_header hhead) (by omega), rfl⟩, rfl⟩
  have hmap : (emmc image faults).step w
      (.mmap cfg.OS_IMG_START (fdt_totalsize (header cfg image)))
      (some (mapped cfg image)) w := ⟨Or.inr rfl, rfl⟩
  have hunmap : (emmc image faults).step w .munmap (0 : Int) w := rfl
  rw [check_image, Prog.ask_bind]
  refine .call hread ?_
  simp only [check_header]
  rw [if_neg (not_not.mpr hhead), fdt_totalsize_of_check hk hhead, hsize, if_neg (by decide),
    Prog.ask_bind]
  refine .call hmap ?_
  simp only [hformat, hhash]
  rw [if_neg (by decide), if_neg (by decide), Prog.ask_bind]
  refine .call hunmap ?_
  rw [if_neg (by decide)]
  exact .ret _ _

end Check

/-! ### Runs that set the flag -/

section Fails

variable {cfg : Config} {image : Bytes} {faults : Faults} {part : Part} {w : Emmc}

/-- A `read` or a `write` can fail, or there is no buffer. -/
def Broken (cfg : Config) (faults : Faults) : Prop :=
  faults.read = true ∨ faults.write = true ∨ cfg.EMMC_WRITE_BUFF_SIZE = 0

/-- One round, with this answer to its read and this one to its write. -/
theorem run_write_body {s : Nat × Bytes} {r : Option Bytes} {ret : Int}
    (hr : Reads faults.read image s.1 cfg.EMMC_WRITE_BUFF_SIZE r) (hm : moved r ≠ 0)
    (hret : ret = moved r ∨ faults.write = true ∧ ret < moved r) :
    Run (emmc image faults) (write_body cfg part s) w
      (some (.inl (s.1 + moved r, take_in s.2 r)))
      (w.put part (((take_in s.2 r).take (moved r)).take ret.toNat)) := by
  have hread : (emmc image faults).step w (.read s.1 cfg.EMMC_WRITE_BUFF_SIZE) r w := ⟨hr, rfl⟩
  rw [write_body, Prog.ask_bind]
  refine .call hread ?_
  rw [if_neg hm, Prog.ask_bind]
  exact .call (r := ret) ⟨hret, rfl⟩ (.ret _ _)

/-- The last one. -/
theorem run_write_body_end {s : Nat × Bytes} {r : Option Bytes}
    (hr : Reads faults.read image s.1 cfg.EMMC_WRITE_BUFF_SIZE r) (hm : moved r = 0) :
    Run (emmc image faults) (write_body cfg part s) w (some (.inr ())) w := by
  have hread : (emmc image faults).step w (.read s.1 cfg.EMMC_WRITE_BUFF_SIZE) r w := ⟨hr, rfl⟩
  rw [write_body, Prog.ask_bind]
  refine .call hread ?_
  rw [if_pos hm]
  exact .ret _ _

/-- The loop can come to its end, and if something is broken with nothing written. -/
theorem run_write_loop (cfg : Config) (image : Bytes) (faults : Faults) (part : Part)
    (s : Nat × Bytes) (h : w.asked = none) :
    ∃ u w', Run (emmc image faults) (Prog.iterate (write_body cfg part) s) w (some u) w' ∧
      w'.asked = none ∧ (Broken cfg faults → w'.bytes = w.bytes) := by
  refine Run.iterate_ends
    (I := fun _ (w' : Emmc) => w'.asked = none ∧ (Broken cfg faults → w'.bytes = w.bytes))
    (P := fun _ (w' : Emmc) => w'.asked = none ∧ (Broken cfg faults → w'.bytes = w.bytes))
    (fun (s : Nat × Bytes) => image.length - s.1) (fun s v hv => ?_) ⟨h, fun _ => rfl⟩
  -- a read or a write that can fail does
  by_cases hread : faults.read = true
  · exact ⟨.inr (), v, run_write_body_end (Or.inl ⟨hread, rfl⟩) rfl, hv⟩
  have hreads : Reads faults.read image s.1 cfg.EMMC_WRITE_BUFF_SIZE
      (some ((image.drop s.1).take cfg.EMMC_WRITE_BUFF_SIZE)) :=
    Or.inr ⟨_, Nat.le_refl _, fun h0 => Or.inl h0, rfl⟩
  have hlen : moved (some ((image.drop s.1).take cfg.EMMC_WRITE_BUFF_SIZE)) =
      min cfg.EMMC_WRITE_BUFF_SIZE (image.length - s.1) := by
    rw [moved, List.length_take, List.length_drop]
  generalize some ((image.drop s.1).take cfg.EMMC_WRITE_BUFF_SIZE) = r at hreads hlen
  by_cases hm : moved r = 0
  · exact ⟨.inr (), v, run_write_body_end hreads hm, hv⟩
  have hless : image.length - (s.1 + moved r) < image.length - s.1 := by omega
  by_cases hwrite : faults.write = true
  · have hneg : (-1 : Int) < moved r := by omega
    refine ⟨_, _, run_write_body hreads hm (Or.inr ⟨hwrite, hneg⟩), ⟨hv.1, fun hb => ?_⟩, hless⟩
    show (v.put part []).bytes = w.bytes
    rw [put_nil]
    exact hv.2 hb
  · refine ⟨_, _, run_write_body hreads hm (Or.inl rfl), ⟨hv.1, fun hb => ?_⟩, hless⟩
    rcases hb with hb | hb | hb
    · exact absurd hb hread
    · exact absurd hb hwrite
    · rw [hlen, hb, Nat.zero_min] at hm
      exact absurd rfl hm

/-- **An acceptable file can be told to have been written**, whatever the banks held, and if
something is broken they still hold it. -/
theorem run_switched (faults : Faults) (h : acceptable cfg image) (b : Part → Nat → UInt8) :
    ∃ w', Run (emmc image faults) (upgrade_main_board cfg false [] []) ⟨b, 0, none⟩
        (some .success) w' ∧ w'.asked = some (new_flag 0) ∧ (Broken cfg faults → w'.bytes = b) := by
  obtain ⟨u, w₁, hloop, hnone, hsame⟩ := run_write_loop cfg image faults (target 0)
    (w := ⟨b, 0, none⟩) (cfg.OS_IMG_START, []) rfl
  have herase : (emmc image faults).step ⟨b, 0, none⟩ (.mtd_erase (target 0) 0 1024) (0 : Int)
      ⟨b, 0, none⟩ := ⟨b (target 0), by rw [Function.update_eq_self]⟩
  have hread : (emmc image faults).step ⟨b, 0, none⟩ .read_bootflag (0 : BitVec 32)
      ⟨b, 0, none⟩ := rfl
  refine ⟨{ w₁ with asked := some (new_flag 0) }, ?_, rfl, hsame⟩
  rw [upgrade_main_board, Prog.ask_bind]
  refine .call (r := true) rfl ?_
  rw [if_neg (by decide), Prog.ask_bind]
  refine .call (r := true) rfl ?_
  rw [if_neg (by decide), Prog.ask_bind]
  refine .call (r := (image.length : Int)) ⟨rfl, rfl⟩ ?_
  rw [if_neg (by decide)]
  refine (run_check_acceptable h _).bind ?_
  show Run (emmc image faults) (write_bank cfg []) _ _ _
  rw [write_bank, Prog.ask_bind]
  refine .call (r := true) rfl ?_
  rw [if_neg (by decide), Prog.ask_bind]
  refine .call hread ?_
  rw [Prog.ask_bind]
  refine .call herase ?_
  rw [Prog.ask_bind]
  refine .call (r := true) rfl ?_
  rw [if_neg (by decide)]
  refine hloop.bind ?_
  rw [Prog.ask_bind]
  refine .call (r := (0 : Int)) rfl ?_
  rw [if_neg (by decide)]
  exact .ret _ _

/-- The bank cannot hold what is not in the file, nor what is not written. -/
theorem not_switchesSafely (h : acceptable cfg image)
    (htotal : fdt_totalsize (header cfg image) ≠ 0)
    (hbad : Broken cfg faults ∨
      image.length < cfg.OS_IMG_START + fdt_totalsize (header cfg image)) :
    ¬ SwitchesSafely cfg image faults := by
  intro hsafe
  -- a bank whose bytes are not the first one of the image
  obtain ⟨w', hrun, hflag, hsame⟩ := run_switched faults h
    fun _ _ => image.getD cfg.OS_IMG_START 0 + 1
  have hholds := (hsafe false [] [] _ w' _ rfl hrun).2 _ hflag
  rcases hbad with hbroken | hshort
  · have hfirst := hholds 0 (Nat.pos_of_ne_zero htotal)
    rw [mapped_getElem? (Nat.pos_of_ne_zero htotal), hsame hbroken, Nat.add_zero,
      List.getD_eq_getElem?_getD] at hfirst
    rw [hfirst, Option.getD_some] at hfirst
    have hne := Option.some.inj hfirst
    simp at hne
  · have hlast : fdt_totalsize (header cfg image) - 1 < fdt_totalsize (header cfg image) := by omega
    have hget := hholds _ hlast
    rw [mapped_getElem? hlast, List.getElem?_eq_none (by omega)] at hget
    cases hget

/-- **When the banks are switched safely**: exactly when no file passes the checks, or there
is nothing to hold, or nothing can fall short and the file has the bytes. -/
theorem switchesSafely_iff (cfg : Config) (image : Bytes) (faults : Faults) :
    SwitchesSafely cfg image faults ↔ ¬ acceptable cfg image ∨
      fdt_totalsize (header cfg image) = 0 ∨ Sound cfg image faults := by
  constructor
  · intro hsafe
    by_contra hno
    obtain ⟨hacc, htotal, hsound⟩ : acceptable cfg image ∧
        fdt_totalsize (header cfg image) ≠ 0 ∧ ¬ Sound cfg image faults := by tauto
    refine not_switchesSafely hacc htotal ?_ hsafe
    by_contra hfine
    obtain ⟨hbroken, hwhole⟩ := not_or.mp hfine
    rw [Broken] at hbroken
    refine hsound ⟨by simpa using fun h => hbroken (Or.inl h), ?_, ?_, Nat.le_of_not_lt hwhole⟩
    · simpa using fun h => hbroken (Or.inr (Or.inl h))
    · exact Nat.pos_of_ne_zero fun h => hbroken (Or.inr (Or.inr h))
  · intro hgood upgrade_boot buf behind w w' o hnone hrun
    have hwp : wp (emmc image faults) (upgrade_main_board cfg upgrade_boot buf behind)
        (fun e w' => (e = .success → w'.asked ≠ none) ∧ Switched cfg image w')
        (Switched cfg image) w := by
      refine wp_stages (I := fun w => w.asked = none) (fun _ _ _ _ hc hw hs => aside_asked hc hw hs)
        (fun _ _ _ _ _ hcut => hcut.elim) (fun _ hw => switched_of_none hw)
        (fun e w he hw => ⟨fun h => absurd h he, switched_of_none hw⟩) ?_ hnone
      intro v v' w w' st_size hsize hcheck hw
      obtain rfl : st_size = image.length := hsize.1
      exact wp_write_safely (hgood.resolve_left (not_not.mpr (acceptable_of_check hcheck))) hw
    have hend := hwp.run hrun
    cases o with
    | none => exact ⟨fun h => absurd h (by simp), hend⟩
    | some e => exact ⟨fun h => hend.1 (Option.some.inj h), hend.2⟩

/-- Two bytes, and a tree that is only its header. -/
def tinyImage : Bytes := [0, 0] ++ tinyHeader

/-- The header is not written when a `write` can fail, and the flag is set. -/
theorem switched_unwritten :
    ¬ ∀ (cfg : Config) (image : Bytes) (faults : Faults), SwitchesSafely cfg image faults := by
  intro h
  have hacc : acceptable tinyConfig tinyImage :=
    ⟨⟨fdtHeaderSize, Nat.le_refl _, by decide⟩, by decide, rfl, rfl⟩
  exact not_switchesSafely hacc (by decide) (Or.inl (Or.inr (Or.inl rfl)))
    (h tinyConfig tinyImage ⟨false, true⟩)

end Fails

end Boxing.Ig9
