import Boxing.Iburn.Verified
import Boxing.Uboot.Standard

/-!
# When `verify_nor_image` is the payload check

The function is to accept an image when its payload is all in the flash and has the
checksum of the header: `checked`.  For most sizes it does.  The loop carries the checksum
of what has been read of the payload (`Carried`), and the last block is cut where the
payload ends.

There are three stretches of sizes where it does something else.  The first sector is
summed up to its end, also when the payload ends before; a size from `2 ^ 31 - 64` on is
negative in an `int`, or small, and again it is the first sector that counts; and in the
last sector below `2 ^ 31` the length carried along gets negative, so that the loop reads to
the end of the flash and fails.  In these it is right when the checksums happen to say the
same: `Agrees`.  A flash that is not a whole number of sectors has a last block that is
short, so what the stack held before is behind it.
-/

namespace Boxing.Iburn

open C Device Uboot

/-! ### The flash -/

/-- Reads of the NOR flash go well. -/
def norStep (content : Bytes) : Unit → (c : MbCall) → MbRet c → Unit → Prop
  | _, .read .firstos pos len, r, _ => r = some ((content.drop pos).take len)
  | _, .mtd_size .firstos, r, _ => r = content.length
  | _, _, _, _ => True

def norFlash (content : Bytes) : Sem MbRet Unit where
  step := norStep content
  cut := fun _ _ _ => False

section Nor

variable (abi : Abi) (content buf : Bytes)

/-- The `ih_size` bytes behind the header. -/
def norPayload : Bytes := (content.drop imageHeaderSize).take (ih_size content)

/-- The payload check. -/
def checked : Prop :=
  ih_dcrc content ≠ 0xffffffff ∧ imageHeaderSize + ih_size content ≤ content.length ∧
    (crc32 abi 0 (norPayload content)).toNat = ih_dcrc content

/-- The function comes to an end, and returns 0 exactly when the payload check succeeds. -/
def Exact : Prop :=
  (∃ r, Run (norFlash content) (verify_nor_image abi .firstos buf) () (some r) ()) ∧
    ∀ r, Run (norFlash content) (verify_nor_image abi .firstos buf) () (some r) () →
      (r = 0 ↔ checked abi content)

/-- The first sector behind the header, as it is in the buffer. -/
def sector : Bytes :=
  ((take_in buf (some (content.take bufSize))).take bufSize).drop imageHeaderSize

/-- Where the code sums up something else than the payload, or nothing, the answers are the
same. -/
structure Agrees : Prop where
  short : imageHeaderSize + ih_size content < bufSize →
    imageHeaderSize + ih_size content ≤ content.length →
      ((crc32 abi 0 (sector content buf)).toNat = ih_dcrc content ↔
        (crc32 abi 0 (norPayload content)).toNat = ih_dcrc content)
  last : 2 ^ 31 - bufSize < imageHeaderSize + ih_size content →
    imageHeaderSize + ih_size content ≤ content.length →
      (crc32 abi 0 (norPayload content)).toNat ≠ ih_dcrc content
  wraps : 2 ^ 31 ≤ imageHeaderSize + ih_size content →
    (crc32 abi 0 (sector content buf)).toNat ≠ ih_dcrc content

/-- What the function decides. -/
def accepts : Prop :=
  ih_dcrc content ≠ 0xffffffff ∧ image_datalen content ≤ content.length ∧
    if image_datalen content ≤ bufSize then
      (crc32 abi 0 (sector content buf)).toNat = ih_dcrc content
    else image_datalen content ≤ 2 ^ 31 - bufSize ∧
      (crc32 abi 0 (norPayload content)).toNat = ih_dcrc content

end Nor

section Loop

variable {abi : Abi} {content buf : Bytes} {datalen : Int} {s : Verifying abi Nat}

/-! ### The loop -/

/-- The variables behind a round that has read something. -/
def Verifying.next (content : Bytes) (datalen : Int) (s : Verifying abi Nat) : Verifying abi Nat where
  len := int32 (s.len + bufSize)
  newcrc := crc32 abi s.newcrc
    ((take_in s.buf (some ((content.drop s.pos).take bufSize))).take (chunk datalen s.len))
  pos := s.pos + min bufSize (content.length - s.pos)
  buf := take_in s.buf (some ((content.drop s.pos).take bufSize))

@[simp] theorem Verifying.next_len :
    (s.next content datalen).len = int32 (s.len + bufSize) := rfl

@[simp] theorem Verifying.next_pos :
    (s.next content datalen).pos = s.pos + min bufSize (content.length - s.pos) := rfl

/-- One round. -/
def round (content : Bytes) (datalen : Int) (s : Verifying abi Nat) :
    Verifying abi Nat ⊕ Option (BitVec abi.longBits) :=
  if s.len < datalen then
    if content.length ≤ s.pos then .inr none else .inl (s.next content datalen)
  else .inr (some s.newcrc)

theorem length_block (content : Bytes) (pos : Nat) :
    ((content.drop pos).take bufSize).length = min bufSize (content.length - pos) := by
  rw [List.length_take, List.length_drop]

theorem run_round {r : Verifying abi Nat ⊕ Option (BitVec abi.longBits)} :
    Run (norFlash content) (nor_body abi .firstos datalen s) () (some r) () ↔
      r = round content datalen s := by
  have hread : ∀ d u, (norFlash content).step () (.read .firstos s.pos bufSize) d u ↔
      d = some ((content.drop s.pos).take bufSize) ∧ u = () := fun d u => (and_iff_left rfl).symm
  have hmoved : moved (some ((content.drop s.pos).take bufSize))
      = min bufSize (content.length - s.pos) := length_block content s.pos
  rw [nor_body, round]
  by_cases hlen : s.len < datalen
  · rw [if_pos hlen, if_pos hlen, Prog.ask_bind, Run.some_call_eq hread, hmoved]
    have hbuf := bufSize_pos
    by_cases hend : content.length ≤ s.pos
    · rw [if_pos (by omega), if_pos hend, Prog.pure_eq, Run.some_pure, and_iff_left rfl]
    · rw [if_neg (by omega), if_neg hend, Prog.pure_eq, Run.some_pure, and_iff_left rfl]
      rfl
  · rw [if_neg hlen, if_neg hlen, Prog.pure_eq, Run.some_pure, and_iff_left rfl]

/-- The loop comes to its end: each round reads on. -/
theorem nor_loop_ends (content : Bytes) (datalen : Int) (s : Verifying abi Nat) :
    ∃ o, Run (norFlash content) (Prog.iterate (nor_body abi .firstos datalen) s) () (some o) () := by
  have hround : ∀ s : Verifying abi Nat, True →
      ∃ r, Run (norFlash content) (nor_body abi .firstos datalen s) () (some r) () ∧
        r.elim (fun s' => True ∧ content.length - s'.pos < content.length - s.pos)
          (fun _ => True) := by
    intro s _
    refine ⟨round content datalen s, run_round.mpr rfl, ?_⟩
    rw [round]
    split
    · split
      · trivial
      · have hbuf := bufSize_pos
        rw [Sum.elim_inl, Verifying.next_pos]
        exact ⟨trivial, by omega⟩
    · trivial
  obtain ⟨o, ho, -⟩ := Run.iterate_ends_same (fun s : Verifying abi Nat => content.length - s.pos)
    hround trivial
  exact ⟨o, ho⟩

/-- A loop invariant, checked round by round. -/
theorem wp_rounds {I : Verifying abi Nat → Prop} {P : Option (BitVec abi.longBits) → Prop}
    (hI : I s) (h : ∀ s, I s → (round content datalen s).elim I P) :
    wp (norFlash content) (Prog.iterate (nor_body abi .firstos datalen) s) (fun o _ => P o)
      (fun _ => True) () := by
  refine wp_loop (fun s _ => I s) hI fun s _ hs => ⟨fun r _ hr => ?_, fun _ _ => trivial⟩
  have hnext := h s hs
  rw [← run_round.mp hr] at hnext
  cases r with
  | inl s' => exact hnext
  | inr o => exact wp_pure.mpr ⟨hnext, trivial⟩

/-- What has been summed up when `len` bytes of the flash have been read. -/
structure Carried (content : Bytes) (datalen : Int) (s : Verifying abi Nat) : Prop where
  crc : s.newcrc = crc32 abi 0
    ((content.drop imageHeaderSize).take (min s.len datalen - imageHeaderSize).toNat)
  sectors : (65536 : Int) ∣ s.len
  first : bufSize ≤ s.len
  pos : s.len < datalen → s.pos = s.len

/-- The next block of the payload. -/
theorem Carried.next (h : Carried content datalen s) (hlen : s.len < datalen)
    (hin : datalen ≤ content.length) (hmax : datalen ≤ 2 ^ 31 - bufSize) :
    Carried content datalen (s.next content datalen) := by
  have hpos := h.pos hlen
  have hfirst := h.first
  have hsectors := h.sectors
  have hbuf : (bufSize : Int) = 65536 := rfl
  have hheader : (imageHeaderSize : Int) = 64 := rfl
  have hnext : int32 (s.len + bufSize) = s.len + bufSize := int32_of_lt (by omega) (by omega)
  have hchunk : chunk datalen s.len ≤ ((content.drop s.pos).take bufSize).length := by
    rw [length_block, chunk]
    omega
  have hblock : (take_in s.buf (some ((content.drop s.pos).take bufSize))).take
      (chunk datalen s.len) = (content.drop s.pos).take (chunk datalen s.len) := by
    rw [take_in, List.take_append_of_le_length hchunk, List.take_take,
      Nat.min_eq_left (chunk_le _ _)]
  have hplace : s.pos = imageHeaderSize + (min s.len datalen - imageHeaderSize).toNat := by
    omega
  have hend : (min (s.len + bufSize) datalen - imageHeaderSize).toNat
      = (min s.len datalen - imageHeaderSize).toNat + chunk datalen s.len := by
    rw [chunk]
    omega
  refine ⟨?_, ?_, ?_, ?_⟩
  · rw [Verifying.next, hblock, hnext, h.crc, crc32_append, hend, List.take_add, List.drop_drop,
      ← hplace]
  · rw [Verifying.next_len, hnext]
    omega
  · rw [Verifying.next_len, hnext]
    omega
  · rw [Verifying.next_len, Verifying.next_pos, hnext]
    omega

/-- **The loop sums up the payload** when it is all there, and ends before the last sector
below `2 ^ 31`. -/
theorem wp_nor_payload (h : Carried content datalen s) (hin : datalen ≤ content.length)
    (hmax : datalen ≤ 2 ^ 31 - bufSize) :
    wp (norFlash content) (Prog.iterate (nor_body abi .firstos datalen) s)
      (fun o _ => o = some (crc32 abi 0
        ((content.drop imageHeaderSize).take (datalen - imageHeaderSize).toNat)))
      (fun _ => True) () := by
  refine wp_rounds h fun s hs => ?_
  rw [round]
  by_cases hlen : s.len < datalen
  · have hpos := hs.pos hlen
    rw [if_pos hlen, if_neg (by omega)]
    exact hs.next hlen hin hmax
  · have hmin : min s.len datalen = datalen := by omega
    rw [if_neg hlen, hs.crc, hmin]
    rfl

/-- In the last sector below `2 ^ 31` the length gets negative, and the loop goes on until
the flash ends. -/
theorem wp_nor_overrun (hin : datalen ≤ content.length) (hsize : content.length < 2 ^ 31)
    (hlast : 2 ^ 31 - bufSize < datalen) (hlen : s.len = bufSize) (hpos : s.pos = bufSize) :
    wp (norFlash content) (Prog.iterate (nor_body abi .firstos datalen) s)
      (fun o _ => o = none) (fun _ => True) () := by
  have hbuf : (bufSize : Int) = 65536 := rfl
  have hstart : s.len < datalen ∧ (content.length ≤ s.pos ∨
      ((s.pos : Int) = s.len ∧ (65536 : Int) ∣ s.len ∧ 0 ≤ s.len)) :=
    ⟨by omega, Or.inr ⟨by omega, by omega, by omega⟩⟩
  refine wp_rounds (I := fun s : Verifying abi Nat => s.len < datalen ∧ (content.length ≤ s.pos ∨
    ((s.pos : Int) = s.len ∧ (65536 : Int) ∣ s.len ∧ 0 ≤ s.len))) hstart ?_
  rintro s ⟨hlt, hplace⟩
  rw [round, if_pos hlt]
  by_cases hend : content.length ≤ s.pos
  · rw [if_pos hend]
    rfl
  · obtain ⟨hat, hsectors, hnonneg⟩ := hplace.resolve_left hend
    rw [if_neg hend, Sum.elim_inl, Verifying.next_len, Verifying.next_pos]
    by_cases hwrap : s.len + bufSize < 2 ^ 31
    · have hnext : int32 (s.len + bufSize) = s.len + bufSize := int32_of_lt (by omega) hwrap
      rw [hnext]
      exact ⟨by omega, Or.inr ⟨by omega, by omega, by omega⟩⟩
    · have htop : s.len + bufSize = 2 ^ 31 := by omega
      have hnext : int32 (s.len + bufSize) = -2 ^ 31 := by
        rw [htop]
        decide
      rw [hnext]
      exact ⟨by omega, Or.inl (by omega)⟩

end Loop

/-! ### The function -/

section Verify

variable {abi : Abi} {content buf : Bytes}

/-- A field of the header as it is in the buffer. -/
theorem field_in_buffer (hheader : imageHeaderSize ≤ content.length) {off : Nat}
    (hoff : off + 3 < imageHeaderSize) :
    be32 (take_in buf (some (content.take bufSize))) off = be32 content off := by
  have hlen : off + 3 < (content.take bufSize).length := by
    rw [List.length_take]
    have : imageHeaderSize < bufSize := by decide
    omega
  rw [take_in, be32_append _ _ hlen, ← be32_append _ (content.drop bufSize) hlen,
    List.take_append_drop]

/-- A full first sector is what is behind the header in the flash. -/
theorem sector_full (h : bufSize ≤ content.length) :
    sector content buf = (content.drop imageHeaderSize).take (bufSize - imageHeaderSize) := by
  have hlen : (content.take bufSize).length = bufSize := by
    rw [List.length_take]
    omega
  rw [sector, take_in_full hlen buf (Nat.le_refl _), List.take_take, Nat.min_self, List.drop_take]

theorem image_datalen_in_buffer (hheader : imageHeaderSize ≤ content.length) :
    image_datalen (take_in buf (some (content.take bufSize))) = image_datalen content := by
  rw [image_datalen, image_datalen, ih_size, ih_size, field_in_buffer hheader (by decide)]

/-- A length of more than a sector is the length of the image. -/
theorem image_datalen_eq (h : bufSize < image_datalen content) :
    image_datalen content = imageHeaderSize + ih_size content := by
  have hbuf : (bufSize : Int) = 65536 := rfl
  have hheader : (imageHeaderSize : Int) = 64 := rfl
  have hlt : ih_size content < 2 ^ 32 := be32_lt content 12
  rw [image_datalen, int32, Int.bmod_def] at h ⊢
  split at h
  · split
    · omega
    · omega
  · omega

/-- The variables behind the first sector. -/
def firstRead (abi : Abi) (content buf : Bytes) : Verifying abi Nat where
  len := bufSize
  newcrc := crc32 abi 0 (sector content buf)
  pos := min bufSize content.length
  buf := take_in buf (some (content.take bufSize))

theorem carried_firstRead (abi : Abi) (buf : Bytes) (hfull : bufSize ≤ content.length) {datalen : Int}
    (hlong : bufSize < datalen) : Carried content datalen (firstRead abi content buf) := by
  have hmin : (min (bufSize : Int) datalen - imageHeaderSize).toNat
      = bufSize - imageHeaderSize := by
    have hheader : imageHeaderSize < bufSize := by decide
    omega
  refine ⟨?_, ⟨1, rfl⟩, Int.le_refl _, fun _ => ?_⟩
  · show crc32 abi 0 (sector content buf) = crc32 abi 0 ((content.drop imageHeaderSize).take
      (min (bufSize : Int) datalen - imageHeaderSize).toNat)
    rw [hmin, sector_full hfull]
  · show ((min bufSize content.length : Nat) : Int) = bufSize
    rw [Nat.min_eq_left hfull]

/-- What the loop ends with. -/
def loopCrc (abi : Abi) (content buf : Bytes) : Option (BitVec abi.longBits) :=
  if image_datalen content ≤ bufSize then some (crc32 abi 0 (sector content buf))
  else if image_datalen content ≤ 2 ^ 31 - bufSize then some (crc32 abi 0 (norPayload content))
  else none

theorem wp_nor_loop_first (abi : Abi) (buf : Bytes) (hsize : content.length < 2 ^ 31)
    (hin : image_datalen content ≤ content.length) :
    wp (norFlash content) (Prog.iterate (nor_body abi .firstos (image_datalen content))
      (firstRead abi content buf)) (fun o _ => o = loopCrc abi content buf) (fun _ => True) () := by
  rw [loopCrc]
  by_cases hshort : image_datalen content ≤ bufSize
  · rw [if_pos hshort]
    refine wp_rounds (I := fun s => s = firstRead abi content buf) rfl ?_
    rintro s rfl
    rw [round, firstRead, if_neg (Int.not_lt.mpr hshort)]
    rfl
  · have hlong := Int.not_le.mp hshort
    have hfull : bufSize ≤ content.length := by omega
    have hcarried := carried_firstRead abi buf hfull hlong
    rw [if_neg hshort]
    by_cases hlast : image_datalen content ≤ 2 ^ 31 - bufSize
    · have hpayload : (image_datalen content - imageHeaderSize).toNat = ih_size content := by
        have heq := image_datalen_eq hlong
        omega
      rw [if_pos hlast, norPayload, ← hpayload]
      exact wp_nor_payload hcarried hin hlast
    · have hpos : (firstRead abi content buf).pos = bufSize := Nat.min_eq_left hfull
      rw [if_neg hlast]
      exact wp_nor_overrun hin hsize (Int.not_le.mp hlast) rfl hpos

/-- The loop behind the first sector. -/
theorem run_nor_loop (hsize : content.length < 2 ^ 31)
    (hin : image_datalen content ≤ content.length) {o : Option (BitVec abi.longBits)} :
    Run (norFlash content) (Prog.iterate (nor_body abi .firstos (image_datalen content))
        (firstRead abi content buf)) () (some o) () ↔ o = loopCrc abi content buf := by
  have hwp := wp_nor_loop_first abi buf hsize hin
  constructor
  · exact fun hr => hwp.1 _ _ hr
  · intro h
    obtain ⟨o', ho⟩ := nor_loop_ends content (image_datalen content) (firstRead abi content buf)
    have heq := hwp.1 _ _ ho
    rw [h, ← heq]
    exact ho

theorem accepts_iff (hff : ih_dcrc content ≠ 0xffffffff)
    (hin : image_datalen content ≤ content.length) :
    accepts abi content buf ↔
      ∃ newcrc, loopCrc abi content buf = some newcrc ∧ newcrc.toNat = ih_dcrc content := by
  rw [accepts, loopCrc, and_iff_right hff, and_iff_right hin]
  by_cases hshort : image_datalen content ≤ bufSize
  · simp only [if_pos hshort, Option.some.injEq, exists_eq_left']
  · by_cases hlast : image_datalen content ≤ 2 ^ 31 - bufSize
    · rw [if_neg hshort, if_neg hshort, if_pos hlast, and_iff_right hlast]
      simp only [Option.some.injEq, exists_eq_left']
    · rw [if_neg hshort, if_neg hshort, if_neg hlast]
      exact ⟨fun h => absurd h.1 hlast, fun ⟨newcrc, h, _⟩ => absurd h (by simp)⟩

/-- The verdict on the checksum of the loop. -/
theorem run_verdict {o : Option (BitVec abi.longBits)} {dcrc : Nat} {r : Int} :
    Run (norFlash content) (match o with
      | none => pure (-1)
      | some newcrc => if newcrc.toNat ≠ dcrc then pure (-1) else pure 0) () (some r) () ↔
      r = 0 ∧ (∃ newcrc, o = some newcrc ∧ newcrc.toNat = dcrc) ∨
        r = -1 ∧ ¬ ∃ newcrc, o = some newcrc ∧ newcrc.toNat = dcrc := by
  cases o with
  | none =>
    rw [Prog.pure_eq, Run.some_pure, and_iff_left rfl]
    simp
  | some newcrc =>
    simp only [Option.some.injEq, exists_eq_left']
    by_cases heq : newcrc.toNat = dcrc
    · rw [if_neg (not_not.mpr heq), Prog.pure_eq, Run.some_pure, and_iff_left rfl]
      simp [heq]
    · rw [if_pos heq, Prog.pure_eq, Run.some_pure, and_iff_left rfl]
      simp [heq]

/-- **What `verify_nor_image` returns**, and that it returns. -/
theorem run_verify_nor_iff (hheader : imageHeaderSize ≤ content.length)
    (hsize : content.length < 2 ^ 31) {r : Int} :
    Run (norFlash content) (verify_nor_image abi .firstos buf) () (some r) () ↔
      r = 0 ∧ accepts abi content buf ∨ r = -1 ∧ ¬ accepts abi content buf := by
  have hread : ∀ d u, (norFlash content).step () (.read .firstos 0 bufSize) d u ↔
      d = some (content.take bufSize) ∧ u = () := fun d u => by
    rw [and_iff_left rfl]
    exact Iff.rfl
  have hmtd : ∀ d u, (norFlash content).step () (.mtd_size .firstos) d u ↔
      d = (content.length : Int) ∧ u = () := fun d u => (and_iff_left rfl).symm
  have hmoved : moved (some (content.take bufSize)) = min bufSize content.length :=
    List.length_take
  have hne : ¬ min bufSize content.length = 0 := by
    have := bufSize_pos
    have : 0 < imageHeaderSize := by decide
    omega
  have hdcrc : ih_dcrc (take_in buf (some (content.take bufSize))) = ih_dcrc content :=
    field_in_buffer hheader (by decide)
  rw [verify_nor_image, Prog.ask_bind, Run.some_call_eq hread, hmoved, if_neg hne, hdcrc,
    image_datalen_in_buffer hheader]
  by_cases hff : ih_dcrc content = 0xffffffff
  · rw [if_pos hff, Prog.pure_eq, Run.some_pure, and_iff_left rfl]
    simp [accepts, hff]
  rw [if_neg hff, Prog.ask_bind, Run.some_call_eq hmtd]
  by_cases hlarge : (content.length : Int) < image_datalen content
  · rw [if_pos hlarge, Prog.pure_eq, Run.some_pure, and_iff_left rfl]
    simp [accepts, Int.not_le.mpr hlarge]
  have hin := Int.not_lt.mp hlarge
  have hfirst : (⟨bufSize, first_crc abi (take_in buf (some (content.take bufSize))),
      min bufSize content.length, take_in buf (some (content.take bufSize))⟩ : Verifying abi Nat)
      = firstRead abi content buf := rfl
  have hloop : ∀ o, _ ↔ o = loopCrc abi content buf := fun _ => run_nor_loop hsize hin
  rw [if_neg hlarge, hfirst, Run.some_bind, accepts_iff hff hin]
  generalize loopCrc abi content buf = newcrc at hloop ⊢
  rw [← run_verdict]
  constructor
  · rintro ⟨o, u, ho, hr⟩
    rw [← (hloop o).mp ho]
    exact hr
  · exact fun hr => ⟨newcrc, (), (hloop newcrc).mpr rfl, hr⟩

/-- The two decisions are the same exactly where the header says so or the checksums
agree. -/
theorem accepts_checked_iff (hheader : imageHeaderSize ≤ content.length)
    (hsize : content.length < 2 ^ 31) :
    (accepts abi content buf ↔ checked abi content) ↔
      ih_dcrc content = 0xffffffff ∨ Agrees abi content buf := by
  have hlt : ih_size content < 2 ^ 32 := be32_lt content 12
  have hbuf : (bufSize : Int) = 65536 := rfl
  have hhead : (imageHeaderSize : Int) = 64 := rfl
  by_cases hff : ih_dcrc content = 0xffffffff
  · simp [accepts, checked, hff]
  rw [or_iff_right hff, accepts, checked, and_iff_right hff, and_iff_right hff]
  by_cases hwraps : 2 ^ 31 ≤ imageHeaderSize + ih_size content
  · -- the size is too large for any flash, and negative or small in an `int`
    have hdatalen : image_datalen content ≤ imageHeaderSize := by
      rw [image_datalen, int32, Int.bmod_def]
      split
      · omega
      · omega
    rw [if_pos (by omega), and_iff_right (by omega : image_datalen content ≤ content.length)]
    constructor
    · intro h
      exact ⟨fun hlt' => by omega, fun _ hin => by omega,
        fun _ hcrc => absurd (h.mp hcrc).1 (by omega)⟩
    · intro h
      exact ⟨fun hcrc => absurd hcrc (h.wraps hwraps), fun h' => absurd h'.1 (by omega)⟩
  have hdatalen : image_datalen content = imageHeaderSize + ih_size content :=
    int32_of_lt (by omega) (by omega)
  by_cases hin : imageHeaderSize + ih_size content ≤ content.length
  swap
  · have hno : ¬ image_datalen content ≤ content.length := by omega
    refine iff_of_true ⟨fun h => absurd h.1 hno, fun h => absurd h.1 hin⟩ ?_
    exact ⟨fun _ h => absurd h hin, fun _ h => absurd h hin, fun h => absurd h hwraps⟩
  rw [and_iff_right (by omega : image_datalen content ≤ content.length), and_iff_right hin]
  by_cases hshort : image_datalen content ≤ bufSize
  · rw [if_pos hshort]
    constructor
    · intro h
      exact ⟨fun _ _ => h, fun hlast => by omega, fun h' => absurd h' hwraps⟩
    · intro h
      by_cases hlt' : imageHeaderSize + ih_size content < bufSize
      · exact h.short hlt' hin
      · -- the payload ends with the sector
        have hpayload : ih_size content = bufSize - imageHeaderSize := by omega
        rw [norPayload, hpayload, sector_full (by omega)]
  · rw [if_neg hshort]
    by_cases hlast : image_datalen content ≤ 2 ^ 31 - bufSize
    · rw [and_iff_right hlast]
      refine iff_of_true Iff.rfl ⟨fun h => by omega, fun h => by omega, fun h => absurd h hwraps⟩
    · constructor
      · intro h
        exact ⟨fun h' => by omega, fun _ _ hcrc => hlast (h.mpr hcrc).1, fun h' => absurd h' hwraps⟩
      · intro h
        exact ⟨fun h' => absurd h'.1 hlast, fun hcrc => absurd hcrc (h.last (by omega) hin)⟩

/-- The function comes to an end, so what it decides is all that counts. -/
theorem exact_accepts (hheader : imageHeaderSize ≤ content.length)
    (hsize : content.length < 2 ^ 31) :
    Exact abi content buf ↔ (accepts abi content buf ↔ checked abi content) := by
  have hrun : ∀ r, Run (norFlash content) (verify_nor_image abi .firstos buf) () (some r) () ↔
      r = 0 ∧ accepts abi content buf ∨ r = -1 ∧ ¬ accepts abi content buf :=
    fun r => run_verify_nor_iff hheader hsize
  constructor
  · rintro ⟨⟨r, hr⟩, hexact⟩
    rw [← hexact r hr]
    rcases (hrun r).mp hr with ⟨rfl, ha⟩ | ⟨rfl, hna⟩
    · exact iff_of_true ha rfl
    · exact iff_of_false hna (by decide)
  · intro h
    constructor
    · by_cases ha : accepts abi content buf
      · exact ⟨0, (hrun 0).mpr (Or.inl ⟨rfl, ha⟩)⟩
      · exact ⟨-1, (hrun (-1)).mpr (Or.inr ⟨rfl, ha⟩)⟩
    · intro r hr
      rw [← h]
      rcases (hrun r).mp hr with ⟨rfl, ha⟩ | ⟨rfl, hna⟩
      · exact iff_of_true rfl ha
      · exact iff_of_false (by decide) hna

/-- **When `verify_nor_image` is the payload check**: for a flash that begins with a header,
exactly when the header's checksum is the one of an erased flash, or the checksums that are
compared agree. -/
theorem exact_iff (hheader : imageHeaderSize ≤ content.length) (hsize : content.length < 2 ^ 31) :
    Exact abi content buf ↔ ih_dcrc content = 0xffffffff ∨ Agrees abi content buf := by
  rw [exact_accepts hheader hsize, accepts_checked_iff hheader hsize]

end Verify

/-! ### A payload of one byte -/

/-- A header with `ih_size` 1 and the checksum of the byte 0xff. -/
def shortHeader : Bytes :=
  List.replicate 12 0 ++ htonl 1 ++ List.replicate 8 0 ++ htonl 0xff000000 ++ List.replicate 36 0

/-- That byte, and something behind it to the end of the sector. -/
def shortImage : Bytes := shortHeader ++ ([0xff, 0xff, 0xff, 0xff] ++ List.replicate 65468 0)

theorem length_shortImage : shortImage.length = bufSize := by
  rw [shortImage, List.length_append, List.length_append, List.length_replicate]
  decide

/-- Zeros leave a register of zeros as it is. -/
theorem feed_zeros (n : Nat) :
    Crc.feed polynomial 0 (Crc.bytesBits (List.replicate n 0)) = 0 := by
  induction n with
  | zero => rfl
  | succ n ih =>
    have hbyte : Crc.feed polynomial 0 (Crc.byteBits 0) = 0 := by decide
    rw [List.replicate_succ, Crc.bytesBits_cons, Crc.feed_append, hbyte, ih]

/-- The sector has another checksum than the payload. -/
theorem crc_shortImage : crc_int ⟨true, false⟩ (sector shortImage []) = 0xffffffff := by
  have hsector : sector shortImage [] = [0xff, 0xff, 0xff, 0xff] ++ List.replicate 65468 0 := by
    rw [sector_full (by rw [length_shortImage]), shortImage,
      List.drop_left' (show shortHeader.length = imageHeaderSize from rfl)]
    refine List.take_of_length_le ?_
    rw [List.length_append, List.length_replicate]
    decide
  have hfirst : Crc.feed polynomial (~~~0) (Crc.bytesBits [0xff, 0xff, 0xff, 0xff]) = 0 := by
    decide +kernel
  rw [hsector, crc_int_eq, standard, Crc.crc, Crc.bytesBits_append, Crc.feed_append, hfirst,
    feed_zeros]
  decide

theorem exact_iff_shortImage :
    Exact ⟨true, false⟩ shortImage [] ↔
      ih_dcrc shortImage = 0xffffffff ∨ Agrees ⟨true, false⟩ shortImage [] :=
  exact_iff (by rw [length_shortImage]; decide) (by rw [length_shortImage]; decide)

/-- The payload is there and has the checksum, and the image is turned down. -/
theorem verify_nor_rejects_shortImage :
    ¬ ∀ (abi : Abi) (content buf : Bytes), imageHeaderSize ≤ content.length →
      content.length < 2 ^ 31 → Exact abi content buf := by
  intro h
  have hheader : imageHeaderSize ≤ shortImage.length := by rw [length_shortImage]; decide
  have hsize : shortImage.length < 2 ^ 31 := by rw [length_shortImage]; decide
  have hfield : ∀ off, off + 3 < shortHeader.length → be32 shortImage off = be32 shortHeader off :=
    fun off => be32_append _ _
  have hlen : ih_size shortImage = 1 := (hfield 12 (by decide)).trans (by decide)
  have hdcrc : ih_dcrc shortImage = 0xff000000 := (hfield 24 (by decide)).trans (by decide)
  have hpayload : norPayload shortImage = [0xff] := by
    rw [norPayload, hlen, shortImage,
      List.drop_left' (show shortHeader.length = imageHeaderSize from rfl)]
    rfl
  have hchecked : checked ⟨true, false⟩ shortImage := by
    refine ⟨by rw [hdcrc]; decide, by rw [hlen, length_shortImage]; decide, ?_⟩
    rw [hpayload, hdcrc]
    decide
  obtain ⟨-, -, haccepts⟩ :=
    ((exact_accepts hheader hsize).mp (h ⟨true, false⟩ shortImage [] hheader hsize)).mpr hchecked
  have hdatalen : image_datalen shortImage ≤ bufSize := by
    rw [image_datalen, hlen]
    decide
  rw [if_pos hdatalen, hdcrc] at haccepts
  have hcrc := congrArg BitVec.toNat crc_shortImage
  rw [crc_int, BitVec.toNat_setWidth] at hcrc
  rw [show crc32 ⟨true, false⟩ 0 (sector shortImage []) = crc_calc ⟨true, false⟩ 0
    (sector shortImage []) from rfl] at haccepts
  rw [haccepts] at hcrc
  exact absurd hcrc (by decide)

end Boxing.Iburn
