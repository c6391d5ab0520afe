import Boxing.Iburn.Stages

/-!
# What a reported success leaves in the NOR flash

All calls go well here.  What is left to the device: programming can clear bits only,
so a written byte is the one that was sent where the flash was erased, and can be
anything where it was not.

The file's header is checked (`passes`), and what the burner does with a file that
passes is determined: it erases `nblock` sectors and writes all of the file from
`OS_IMG_START` on.  So a success leaves header and payload in the flash when they are
all there in the file and the erased sectors cover them (`run_burn`) — and that the
payload has the checksum of the header must come from the file, as nothing looks at
it (`holds_of_success`).
-/

namespace Boxing.Iburn

open C Device Uboot

/-! ### The NOR flash -/

/-- `nor'` after writing `buf` at `pos`: nothing changes elsewhere, and an erased byte
takes what is written. -/
structure Programmed (nor : Bytes) (pos : Nat) (buf nor' : Bytes) : Prop where
  fits : pos + buf.length ≤ nor.length
  length : nor'.length = nor.length
  outside : ∀ i, i < pos ∨ pos + buf.length ≤ i → nor'[i]? = nor[i]?
  inside : ∀ i, pos ≤ i → i < pos + buf.length → nor[i]? = some 0xff → nor'[i]? = buf[i - pos]?

/-- `nor'` after erasing `n` sectors from `start` on, all of them when `n` is -1; what
another negative number does is not known. -/
structure Erased (nor : Bytes) (start n : Int) (nor' : Bytes) : Prop where
  length : nor'.length = nor.length
  all : n = -1 → ∀ i, i < nor.length → nor'[i]? = some 0xff
  sectors : 0 ≤ n → ∀ i : Nat, i < nor.length →
    if start * bufSize ≤ i ∧ i < (start + n) * bufSize then nor'[i]? = some 0xff
    else nor'[i]? = nor[i]?

section Lucky

variable (cfg : Config) (image : Bytes)

/-- `n` rounded up to whole pages. -/
def roundUp (page n : Nat) : Nat := (n + page - 1) / page * page

/-- The pages of the file that `mmap` shows, with zeros behind the end of the file. -/
def map_file (pos : Nat) (len : Int) : Option Bytes :=
  if len ≤ 0 then none
  else some ((padded (roundUp cfg.pageSize (image.length - pos)) (image.drop pos)).take
    (roundUp cfg.pageSize len.toNat))

/-- The calls when all goes well, with the firmware file `image`; the world is what is
in the NOR flash. -/
def luckyStep : Bytes → (c : MbCall) → MbRet c → Bytes → Prop
  | nor, .f_exists, r, nor' => r = true ∧ nor' = nor
  | nor, .open_file, r, nor' => r = true ∧ nor' = nor
  | nor, .fstat, r, nor' => r = image.length ∧ nor' = nor
  | nor, .part_open _, r, nor' => r = true ∧ nor' = nor
  | nor, .mtd_size part, r, nor' => (part = .firstos → r = nor.length) ∧ nor' = nor
  | nor, .read_bootflag, _, nor' => nor' = nor
  | nor, .read_file pos len, r, nor' => r = some ((image.drop pos).take len) ∧ nor' = nor
  | nor, .read part pos len, r, nor' =>
    (part = .firstos → r = some ((nor.drop pos).take len)) ∧ nor' = nor
  | nor, .write part pos buf, r, nor' => r = buf.length ∧
    if part = .firstos then Programmed nor pos buf nor' else nor' = nor
  | nor, .part_read _ _ _, r, nor' => 0 < r.1 ∧ nor' = nor
  | nor, .part_write _ _ _, r, nor' => 0 < r ∧ nor' = nor
  | nor, .part_erase part start n, r, nor' => 0 ≤ r ∧
    if part = .firstos then Erased nor start n nor' else nor' = nor
  | nor, .set_bootflag _, r, nor' => 0 ≤ r ∧ nor' = nor
  | nor, .mmap pos len, r, nor' => r = map_file cfg image pos len ∧ nor' = nor
  | nor, .bootenv_set _ _, r, nor' => 0 ≤ r ∧ nor' = nor

/-- No power loss here. -/
def lucky : Sem MbRet Bytes where
  step := luckyStep cfg image
  cut := fun _ _ _ => False

/-! ### What is said of the file -/

/-- The header as it is read into the buffer `buf`. -/
def file_header (buf : Bytes) : Bytes :=
  (take_in buf (some ((image.drop cfg.OS_IMG_START).take bufSize))).take imageHeaderSize

/-- The signature behind the image is the right one. -/
def signature_ok (datalen : Int) : Bool :=
  match map_file cfg image (cfg.OS_IMG_START - slack cfg) (datalen + slack cfg + SHA256_LEN) with
  | none => false
  | some p_map => in_pages cfg datalen p_map && hmac_matches cfg datalen p_map

/-- All that `upgrade_main_board` checks. -/
def passes (h : Bytes) : Bool :=
  header_ok cfg (int32 image.length) h &&
    (cfg.board = .IR9 || signature_ok cfg image (image_datalen h))

/-- The `ih_size` bytes behind the header. -/
def payload (h : Bytes) : Bytes :=
  (image.drop (cfg.OS_IMG_START + imageHeaderSize)).take (ih_size h)

/-- The image is all in the file, the sectors that are erased cover it, and its
checksum is right. -/
structure Sound (h : Bytes) : Prop where
  whole : cfg.OS_IMG_START + (imageHeaderSize + ih_size h) ≤ image.length
  covered : nblock (image_datalen h) = -1 ∨
    ((imageHeaderSize + ih_size h : Nat) : Int) ≤ nblock (image_datalen h) * bufSize
  crc : (crc32 cfg.abi 0 (payload cfg image h)).toNat = ih_dcrc h

/-- The flash starts with the file's header and payload, and the checksum of the payload
is the one in the header. -/
structure Holds (h nor : Bytes) : Prop where
  whole : cfg.OS_IMG_START + (imageHeaderSize + ih_size h) ≤ image.length
  starts : (image.drop cfg.OS_IMG_START).take (imageHeaderSize + ih_size h) <+: nor
  crc : (crc32 cfg.abi 0 (payload cfg image h)).toNat = ih_dcrc h

end Lucky

section Success

variable {cfg : Config} {image : Bytes} {nor nor' : Bytes}

/-! ### What leaves the NOR alone -/

theorem lucky_spares {c : MbCall} {r : MbRet c} (hc : Spares .firstos c)
    (h : luckyStep cfg image nor c r nor') : nor' = nor := by
  cases c with
  | write part pos buf =>
    have hw := h.2
    rwa [if_neg hc] at hw
  | part_erase part start n =>
    have hw := h.2
    rwa [if_neg hc] at hw
  | read_bootflag => exact h
  | _ => exact h.2

theorem run_spares {α : Type} {p : Prog MbRet α} {o : Option α}
    (hp : Prog.Only (Spares .firstos) p) (h : Run (lucky cfg image) p nor o nor') :
    nor' = nor := by
  exact h.keeps_eq id (fun _ _ _ _ hc hs => lucky_spares hc hs) (fun _ _ _ _ hcut => False.elim hcut) hp

/-! ### The main image -/

theorem image_datalen_take (b : Bytes) :
    image_datalen (b.take imageHeaderSize) = image_datalen b := by
  rw [image_datalen, image_datalen, ih_size, ih_size, be32_take b (by decide)]

/-- After `dest` bytes the first `dest` of the image are in the flash, and the rest of
the `n` that matter is still erased. -/
structure Burning (cfg : Config) (image : Bytes) (n : Nat) (s : Burn) (nor : Bytes) : Prop where
  pos : s.pos = cfg.OS_IMG_START + s.dest
  room : s.dest ≤ nor.length
  done : ∀ i, i < s.dest → i < n → nor[i]? = image[cfg.OS_IMG_START + i]?
  erased : ∀ i, s.dest ≤ i → i < n → i < nor.length → nor[i]? = some 0xff

/-- **One write**: the next piece of the file goes where the flash is erased. -/
theorem Burning.write {n : Nat} {s : Burn} {d buf : Bytes} (h : Burning cfg image n s nor)
    (hd : d = (image.drop s.pos).take bufSize) (hw : Programmed nor s.dest d nor') :
    Burning cfg image n ⟨s.pos + d.length, s.dest + d.length, buf⟩ nor' := by
  refine ⟨?_, ?_, fun i hi hin => ?_, fun i hi hin hlen => ?_⟩
  · show s.pos + d.length = cfg.OS_IMG_START + (s.dest + d.length)
    rw [h.pos, Nat.add_assoc]
  · show s.dest + d.length ≤ nor'.length
    rw [hw.length]
    exact hw.fits
  · have hi : i < s.dest + d.length := hi
    by_cases hlt : i < s.dest
    · rw [hw.outside i (Or.inl hlt)]
      exact h.done i hlt hin
    · have hle : s.dest ≤ i := Nat.le_of_not_lt hlt
      have hnor : i < nor.length := Nat.lt_of_lt_of_le hi hw.fits
      rw [hw.inside i hle hi (h.erased i hle hin hnor), hd]
      have hchunk : i - s.dest < bufSize := by
        have hdlen : d.length ≤ bufSize := by
          rw [hd, List.length_take]
          exact Nat.min_le_left _ _
        omega
      rw [List.getElem?_take_of_lt hchunk, List.getElem?_drop, h.pos]
      congr 1
      omega
  · have hi : s.dest + d.length ≤ i := hi
    rw [hw.outside i (Or.inr hi)]
    exact h.erased i (by omega) hin (hw.length ▸ hlen)

/-- The loop writes the file to its end. -/
theorem run_burn_loop {n : Nat} {s : Burn} {buf : Bytes} (h : Burning cfg image n s nor)
    (hr : Run (lucky cfg image) (Prog.iterate burn_body s) nor (some buf) nor') :
    ∃ s', Burning cfg image n s' nor' ∧ image.length ≤ s'.pos := by
  have hwp : wp (lucky cfg image) (Prog.iterate burn_body s)
      (fun _ nor' => ∃ s', Burning cfg image n s' nor' ∧ image.length ≤ s'.pos)
      (fun _ => True) nor := by
    refine wp_loop (Burning cfg image n) h fun s nor hs => ?_
    rw [burn_body, Prog.ask_bind, wp_call]
    refine ⟨trivial, fun _ _ => trivial, fun r nor₁ hread => ?_⟩
    obtain ⟨rfl, rfl⟩ := hread
    by_cases hend : moved (some ((image.drop s.pos).take bufSize)) = 0
    · rw [if_pos hend]
      refine wp_pure.mpr ⟨wp_pure.mpr ⟨⟨s, hs, ?_⟩, trivial⟩, trivial⟩
      have hlen : min bufSize (image.length - s.pos) = 0 := by
        rw [← List.length_drop, ← List.length_take]
        exact hend
      have := bufSize_pos
      omega
    · rw [if_neg hend, Prog.ask_bind, wp_call]
      refine ⟨trivial, fun _ _ => trivial, fun w nor₂ hwrite => ?_⟩
      obtain ⟨hw, hprog⟩ := hwrite
      have hd : (take_in s.buf (some ((image.drop s.pos).take bufSize))).take
          (moved (some ((image.drop s.pos).take bufSize))) = (image.drop s.pos).take bufSize := by
        rw [take_in, moved, List.take_left]
      rw [if_pos rfl] at hprog
      rw [hd] at hw hprog
      subst hw
      exact wp_pure.mpr ⟨hs.write rfl hprog, trivial⟩
  exact hwp.1 _ _ hr

/-- The erase comes first, and covers what matters. -/
theorem burning_of_erased {n : Nat} {datalen : Int} {buf : Bytes}
    (h : Erased nor 0 (nblock datalen) nor')
    (hn : nblock datalen = -1 ∨ (n : Int) ≤ nblock datalen * bufSize) :
    Burning cfg image n ⟨cfg.OS_IMG_START, 0, buf⟩ nor' := by
  refine ⟨rfl, Nat.zero_le _, fun i hi => absurd hi (Nat.not_lt_zero i), fun i _ hin hlen => ?_⟩
  rw [h.length] at hlen
  rcases hn with hall | hn
  · exact h.all hall i hlen
  · have hpos : 0 ≤ nblock datalen := by
      by_contra hneg
      have := Int.mul_neg_of_neg_of_pos (Int.not_le.mp hneg)
        (show (0 : Int) < bufSize by decide)
      omega
    have hs := h.sectors hpos i hlen
    rw [Int.zero_add, Int.zero_mul] at hs
    rwa [if_pos ⟨Int.natCast_nonneg i, by omega⟩] at hs

/-- **What the flash holds after the burn.** -/
theorem run_burn {n : Nat} {datalen : Int} {buf buf' : Bytes}
    (hr : Run (lucky cfg image) (burn cfg datalen buf) nor (some (.inr buf')) nor')
    (hwhole : cfg.OS_IMG_START + n ≤ image.length)
    (hn : nblock datalen = -1 ∨ (n : Int) ≤ nblock datalen * bufSize) :
    (image.drop cfg.OS_IMG_START).take n <+: nor' := by
  rw [burn, Prog.ask_bind, Run.some_call] at hr
  obtain ⟨err, nor₁, ⟨herr, herase⟩, hr⟩ := hr
  rw [if_pos rfl] at herase
  rw [if_neg (Int.not_lt.mpr herr), Run.some_bind] at hr
  obtain ⟨buf₁, nor₂, hloop, hr⟩ := hr
  obtain ⟨-, rfl⟩ := Run.some_pure.mp hr
  obtain ⟨s, hs, hend⟩ := run_burn_loop (burning_of_erased herase hn) hloop
  have hdest : n ≤ s.dest := by
    have := hs.pos
    omega
  have htake : (image.drop cfg.OS_IMG_START).take n = nor'.take n := by
    apply List.ext_getElem?
    intro i
    by_cases hi : i < n
    · rw [List.getElem?_take_of_lt hi, List.getElem?_take_of_lt hi, List.getElem?_drop]
      exact (hs.done i (by omega) hi).symm
    · rw [List.getElem?_take_eq_none (Nat.le_of_not_lt hi),
        List.getElem?_take_eq_none (Nat.le_of_not_lt hi)]
  rw [htake]
  exact List.take_prefix n nor'

/-! ### The way to a success -/

/-- From the main image on: a success comes after a burn. -/
theorem run_burn_main {upgrade_boot : Bool} {behind buf : Bytes} {datalen : Int} {n : Nat}
    (h : Run (lucky cfg image) (burn_main cfg upgrade_boot behind buf datalen) nor
      (some .success) nor')
    (hwhole : cfg.OS_IMG_START + n ≤ image.length)
    (hn : nblock datalen = -1 ∨ (n : Int) ≤ nblock datalen * bufSize) :
    (image.drop cfg.OS_IMG_START).take n <+: nor' := by
  rw [burn_main, Run.some_bind] at h
  obtain ⟨burnt, nor₁, hburn, h⟩ := h
  cases burnt with
  | inl e =>
    rw [burn, Prog.ask_bind, Run.some_call] at hburn
    obtain ⟨err, nor₂, ⟨herr, -⟩, hburn⟩ := hburn
    rw [if_neg (Int.not_lt.mpr herr), Run.some_bind] at hburn
    obtain ⟨buf₁, nor₃, -, hburn⟩ := hburn
    cases (Run.some_pure.mp hburn).1
  | inr buf₁ =>
    have hsame : nor' = nor₁ :=
      run_spares (after_burn_spares cfg .firstos (by decide) upgrade_boot behind buf₁) h
    rw [hsame]
    exact run_burn hburn hwhole hn

/-- The check of the signature goes through only when it matches. -/
theorem run_check_hmac {datalen : Int} {o : Option Exit}
    (h : Run (lucky cfg image) (check_hmac cfg datalen) nor (some o) nor') :
    (o = none ∧ signature_ok cfg image datalen = true) ∨ o = some .failed ∨ o = some .crashed := by
  rw [check_hmac, Prog.ask_bind, Run.some_call] at h
  obtain ⟨p_map, nor₁, ⟨rfl, rfl⟩, h⟩ := h
  rw [signature_ok]
  cases hmap : map_file cfg image (cfg.OS_IMG_START - slack cfg)
      (datalen + slack cfg + SHA256_LEN) with
  | none =>
    rw [hmap] at h
    exact Or.inr (Or.inl (Run.some_pure.mp h).1)
  | some p_map =>
    rw [hmap] at h
    simp only at h ⊢
    split at h
    · exact Or.inr (Or.inr (Run.some_pure.mp h).1)
    rename_i hin
    split at h
    · rename_i hmatch
      refine Or.inl ⟨(Run.some_pure.mp h).1, ?_⟩
      rw [hmatch, Bool.and_true]
      simpa using hin
    · exact Or.inr (Or.inl (Run.some_pure.mp h).1)

/-- **A reported success**, when every file that passes is sound, means that header and
payload are in the flash and agree. -/
theorem holds_of_success {upgrade_boot : Bool} {stack : Stack}
    (hsound : passes cfg image (file_header cfg image stack.buf) = true →
      Sound cfg image (file_header cfg image stack.buf))
    (h : Run (lucky cfg image) (upgrade_main_board cfg upgrade_boot stack) nor
      (some .success) nor') :
    Holds cfg image (file_header cfg image stack.buf) nor' := by
  rw [upgrade_main_board, Prog.ask_bind, Run.some_call] at h
  obtain ⟨there, nor₁, ⟨rfl, rfl⟩, h⟩ := h
  rw [if_neg (by decide), Prog.ask_bind, Run.some_call] at h
  obtain ⟨fd, nor₂, ⟨rfl, rfl⟩, h⟩ := h
  rw [if_neg (by decide), Prog.ask_bind, Run.some_call] at h
  obtain ⟨bootflag, nor₃, rfl, h⟩ := h
  rw [Prog.ask_bind, Run.some_call] at h
  obtain ⟨imageFd, nor₄, ⟨rfl, rfl⟩, h⟩ := h
  rw [if_neg (by decide), Prog.ask_bind, Run.some_call] at h
  obtain ⟨st_size, nor₅, ⟨rfl, rfl⟩, h⟩ := h
  rw [Prog.ask_bind, Run.some_call] at h
  obtain ⟨r, nor₆, ⟨rfl, rfl⟩, h⟩ := h
  split at h
  swap
  · cases (Run.some_pure.mp h).1
  rename_i hheader
  rw [backup_and_burn, Prog.ask_bind, Run.some_call] at h
  obtain ⟨norFd, nor₇, ⟨rfl, rfl⟩, h⟩ := h
  rw [if_neg (by decide), Run.some_bind] at h
  obtain ⟨saved, nor₈, hbackup, h⟩ := h
  cases saved with
  | inl e =>
    obtain rfl := backup_exit hbackup
    cases (Run.some_pure.mp h).1
  | inr buf' =>
    rw [← image_datalen_take] at h
    -- what is left: passed the signature or not, the burn comes next
    obtain ⟨hpass, nor₉, h⟩ : passes cfg image (file_header cfg image stack.buf) = true ∧
        ∃ nor₉, Run (lucky cfg image) (burn_main cfg upgrade_boot stack.behind buf'
          (image_datalen (file_header cfg image stack.buf))) nor₉ (some .success) nor' := by
      simp only [after_backup] at h
      rw [Prog.ask_bind, Run.some_call] at h
      obtain ⟨err, nor₉, ⟨herr, rfl⟩, h⟩ := h
      rw [if_neg (Int.not_lt.mpr herr), after_flag] at h
      cases hboard : cfg.board with
      | IR9 =>
        rw [hboard] at h
        refine ⟨?_, nor₉, h⟩
        rw [passes, Bool.and_eq_true]
        exact ⟨hheader, by rw [hboard]; rfl⟩
      | IDTU9 =>
        rw [hboard, Run.some_bind] at h
        obtain ⟨checked, nor₁₀, hchecked, h⟩ := h
        rcases run_check_hmac hchecked with ⟨rfl, hsig⟩ | rfl | rfl
        · refine ⟨?_, nor₁₀, h⟩
          rw [passes, Bool.and_eq_true]
          refine ⟨hheader, ?_⟩
          rw [Bool.or_eq_true]
          exact Or.inr hsig
        · cases (Run.some_pure.mp h).1
        · cases (Run.some_pure.mp h).1
    obtain ⟨hwhole, hcovered, hcrc⟩ := hsound hpass
    exact ⟨hwhole, run_burn_main h hwhole hcovered, hcrc⟩

end Success

end Boxing.Iburn
