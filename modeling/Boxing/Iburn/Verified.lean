import Boxing.Iburn.Image

/-!
# What the two verifying functions accept

Each of the two functions is a loop of reads.  Here is what the loop computes, as a
function of the contents of the flash: `nor_crc` goes through the rest of the NOR
sector by sector, `nand_crc` follows the offsets that `part_read` gives back.  The
flash is `valid` when the checksum comes out as the header says.

`run_verify_nor` and `run_verify_nand` say that, when reads are reliable, the
functions return 0 exactly on valid contents, whatever the stack held before.  A NOR
partition is a whole number of sectors, so that no `read` of it is short; a NAND
partition is a parameter, as `part_read` leaves out bad blocks by rules of its own.
-/

namespace Boxing.Iburn

open C Device Uboot

/-! ### The contents of the flash -/

/-- The checksum over the rest of the NOR; none when it ends too early. -/
def nor_crc (abi : Abi) (datalen len : Int) (newcrc : BitVec abi.longBits) (rest : Bytes) :
    Option (BitVec abi.longBits) :=
  if len < datalen then
    if rest = [] then none
    else nor_crc abi datalen (int32 (len + bufSize))
      (crc32 abi newcrc (rest.take (chunk datalen len))) (rest.drop bufSize)
  else some newcrc
termination_by rest.length
decreasing_by
  have hlen := List.length_pos_of_ne_nil ‹_›
  rw [List.length_drop]
  have := bufSize_pos
  omega

/-- What `verify_nor_image` accepts. -/
def nor_valid (abi : Abi) (content : Bytes) : Prop :=
  content ≠ [] ∧ ih_dcrc (content.take bufSize) ≠ 0xffffffff ∧
    image_datalen (content.take bufSize) ≤ content.length ∧
      ∃ newcrc, nor_crc abi (image_datalen (content.take bufSize)) bufSize
          (first_crc abi content) (content.drop bufSize) = some newcrc ∧
        newcrc.toNat = ih_dcrc (content.take bufSize)

/-- A NAND partition: what it can hold, and what `part_read` gives at an offset.  A
read that succeeds is a whole buffer, and the offset behind it is nearer to the end. -/
structure Nand where
  Contents : Type
  part_read : Contents → Int → Int × Bytes
  left : Contents → Int → Nat
  full : ∀ c offs, 0 < (part_read c offs).1 → (part_read c offs).2.length = bufSize
  goes_on : ∀ c offs, 0 < (part_read c offs).1 → left c (part_read c offs).1 < left c offs

/-- The checksum over the rest of the NAND. -/
def nand_crc (N : Nand) (c : N.Contents) (abi : Abi) (datalen len : Int)
    (newcrc : BitVec abi.longBits) (offs : Int) : Option (BitVec abi.longBits) :=
  if len < datalen then
    if (N.part_read c offs).1 ≤ 0 then none
    else nand_crc N c abi datalen (int32 (len + bufSize))
      (crc32 abi newcrc ((N.part_read c offs).2.take (chunk datalen len))) (N.part_read c offs).1
  else some newcrc
termination_by N.left c offs
decreasing_by exact N.goes_on c offs (by omega)

theorem nand_crc_done {N : Nand} {c : N.Contents} {abi : Abi} {datalen len offs : Int}
    {newcrc : BitVec abi.longBits} (h : ¬ len < datalen) :
    nand_crc N c abi datalen len newcrc offs = some newcrc := by
  rw [nand_crc, if_neg h]

/-- What `verify_nand_image` accepts. -/
def nand_valid (N : Nand) (abi : Abi) (c : N.Contents) : Prop :=
  0 < (N.part_read c 0).1 ∧
    ∃ newcrc, nand_crc N c abi (image_datalen (N.part_read c 0).2) bufSize
        (first_crc abi (N.part_read c 0).2) (N.part_read c 0).1 = some newcrc ∧
      newcrc.toNat = ih_dcrc (N.part_read c 0).2

/-! ### The buffer -/

section Full

variable {d : Bytes} (h : d.length = bufSize) (buf : Bytes)

include h

/-- A full read leaves nothing of what was in the buffer. -/
theorem take_in_full {n : Nat} (hn : n ≤ bufSize) :
    (take_in buf (some d)).take n = d.take n := by
  rw [take_in, List.take_append_of_le_length (by omega)]

theorem ih_dcrc_full : ih_dcrc (take_in buf (some d)) = ih_dcrc d :=
  be32_append d _ (by rw [h]; decide)

theorem image_datalen_full : image_datalen (take_in buf (some d)) = image_datalen d := by
  have hsize : ih_size (take_in buf (some d)) = ih_size d := be32_append d _ (by rw [h]; decide)
  rw [image_datalen, image_datalen, hsize]

theorem first_crc_full (abi : Abi) : first_crc abi (take_in buf (some d)) = first_crc abi d := by
  rw [first_crc, first_crc, take_in_full h buf (Nat.le_refl _)]

end Full

section Verify

variable {W : Type} {S : Sem MbRet W} {w : W} {abi : Abi} {fd : Part}

/-! ### The NOR -/

section Nor

variable {content : Bytes} (whole : bufSize ∣ content.length)
  (hread : ∀ pos len r w', S.step w (.read fd pos len) r w' →
    r = some ((content.drop pos).take len) ∧ w' = w)

include whole in
/-- On a whole number of sectors a read at a sector is a whole sector, or nothing. -/
theorem sector_read {pos : Nat} (hpos : bufSize ∣ pos) (h : content.drop pos ≠ []) :
    ((content.drop pos).take bufSize).length = bufSize := by
  obtain ⟨n, hn⟩ := whole
  obtain ⟨k, rfl⟩ := hpos
  have hlt : bufSize * k < content.length := by
    by_contra hge
    exact h (List.drop_eq_nil_of_le (by omega))
  rw [hn] at hlt
  have hkn : k < n := Nat.lt_of_mul_lt_mul_left hlt
  have hle : bufSize * (k + 1) ≤ bufSize * n := Nat.mul_le_mul_left _ hkn
  rw [List.length_take, List.length_drop, hn]
  rw [Nat.mul_add] at hle
  omega

include whole hread in
/-- The loop of `verify_nor_image` computes `nor_crc`. -/
theorem wp_nor_loop {datalen : Int} {s : Verifying abi Nat} (hpos : bufSize ∣ s.pos) :
    wp S (Prog.iterate (nor_body abi fd datalen) s)
      (fun o w' => w' = w ∧ o = nor_crc abi datalen s.len s.newcrc (content.drop s.pos))
      (fun _ => True) w := by
  refine wp_loop (fun s' w' => w' = w ∧ bufSize ∣ s'.pos ∧
    nor_crc abi datalen s'.len s'.newcrc (content.drop s'.pos)
      = nor_crc abi datalen s.len s.newcrc (content.drop s.pos)) ⟨rfl, hpos, rfl⟩ ?_
  rintro s' w' ⟨rfl, hpos', heq⟩
  rw [← heq, nor_body]
  by_cases hlen : s'.len < datalen
  · rw [if_pos hlen, Prog.ask_bind, wp_call]
    refine ⟨trivial, fun _ _ => trivial, fun r w'' hs => ?_⟩
    obtain ⟨rfl, rfl⟩ := hread _ _ _ _ hs
    by_cases hend : content.drop s'.pos = []
    · rw [if_pos (by rw [hend]; rfl)]
      refine wp_pure.mpr ⟨wp_pure.mpr ⟨⟨rfl, ?_⟩, trivial⟩, trivial⟩
      rw [nor_crc, if_pos hlen, if_pos hend]
    · have hfull := sector_read whole hpos' hend
      have hmoved : moved (some ((content.drop s'.pos).take bufSize)) = bufSize := hfull
      rw [hmoved, if_neg (by decide), take_in_full hfull _ (chunk_le _ _), List.take_take,
        Nat.min_eq_left (chunk_le _ _)]
      refine wp_pure.mpr ⟨⟨rfl, (Nat.dvd_add_right hpos').mpr (Nat.dvd_refl _), ?_⟩, trivial⟩
      conv_rhs => rw [nor_crc, if_pos hlen, if_neg hend, List.drop_drop]
  · rw [if_neg hlen]
    refine wp_pure.mpr ⟨wp_pure.mpr ⟨⟨rfl, ?_⟩, trivial⟩, trivial⟩
    rw [nor_crc, if_neg hlen]

include whole hread in
/-- **`verify_nor_image` accepts the valid contents**, and no others. -/
theorem run_verify_nor (hsize : ∀ r w', S.step w (.mtd_size fd) r w' → r = content.length ∧ w' = w)
    {buf : Bytes} {r : Int} {w' : W}
    (h : Run S (verify_nor_image abi fd buf) w (some r) w') :
    w' = w ∧ (r = 0 ∧ nor_valid abi content ∨ r = -1 ∧ ¬ nor_valid abi content) := by
  rw [verify_nor_image, Prog.ask_bind, Run.some_call] at h
  obtain ⟨d, w₁, hs, h⟩ := h
  obtain ⟨rfl, rfl⟩ := hread _ _ _ _ hs
  rw [List.drop_zero] at h
  by_cases hnil : content = []
  · subst hnil
    rw [List.take_nil, moved, List.length_nil, if_pos rfl] at h
    obtain ⟨rfl, rfl⟩ := Run.some_pure.mp h
    exact ⟨rfl, Or.inr ⟨rfl, fun hv => hv.1 rfl⟩⟩
  have hfull : (content.take bufSize).length = bufSize := by
    have hsector := sector_read whole (Nat.dvd_zero bufSize) (by rwa [List.drop_zero])
    rwa [List.drop_zero] at hsector
  have hmoved : moved (some (content.take bufSize)) = bufSize := hfull
  rw [hmoved, if_neg (by decide), ih_dcrc_full hfull, image_datalen_full hfull,
    first_crc_full hfull] at h
  split at h
  · rename_i hff
    obtain ⟨rfl, rfl⟩ := Run.some_pure.mp h
    exact ⟨rfl, Or.inr ⟨rfl, fun hv => hv.2.1 hff⟩⟩
  rename_i hff
  rw [Prog.ask_bind, Run.some_call] at h
  obtain ⟨size, w₂, hs₂, h⟩ := h
  obtain ⟨rfl, rfl⟩ := hsize _ _ hs₂
  split at h
  · rename_i hlarge
    obtain ⟨rfl, rfl⟩ := Run.some_pure.mp h
    exact ⟨rfl, Or.inr ⟨rfl, fun hv => absurd hv.2.2.1 (by omega)⟩⟩
  rename_i hlarge
  rw [Run.some_bind] at h
  obtain ⟨newcrc, w₃, hloop, h⟩ := h
  obtain ⟨rfl, hcrc⟩ := (wp_nor_loop whole hread (Nat.dvd_refl bufSize)).1 _ _ hloop
  have hfirst : first_crc abi (content.take bufSize) = first_crc abi content := by
    rw [first_crc, first_crc, List.take_take, Nat.min_self]
  rw [hfirst] at hcrc
  cases newcrc with
  | none =>
    obtain ⟨rfl, rfl⟩ := Run.some_pure.mp h
    refine ⟨rfl, Or.inr ⟨rfl, ?_⟩⟩
    rintro ⟨-, -, -, newcrc, hsome, -⟩
    rw [← hcrc] at hsome
    cases hsome
  | some newcrc =>
    simp only at h
    split at h
    · rename_i hne
      obtain ⟨rfl, rfl⟩ := Run.some_pure.mp h
      refine ⟨rfl, Or.inr ⟨rfl, ?_⟩⟩
      rintro ⟨-, -, -, newcrc', hsome, heq⟩
      rw [← hcrc] at hsome
      obtain rfl := Option.some.inj hsome
      exact hne heq
    · rename_i heq
      obtain ⟨rfl, rfl⟩ := Run.some_pure.mp h
      exact ⟨rfl, Or.inl ⟨rfl, hnil, hff, by omega, newcrc, hcrc.symm, not_not.mp heq⟩⟩

/-- What `nor_crc` computes, the loop comes to. -/
theorem run_nor_body_loop (whole : bufSize ∣ content.length)
    (hread : ∀ pos, S.step w (.read fd pos bufSize) (some ((content.drop pos).take bufSize)) w)
    {datalen len : Int} {newcrc crc : BitVec abi.longBits} {pos : Nat} (buf : Bytes)
    (hpos : bufSize ∣ pos) (h : nor_crc abi datalen len newcrc (content.drop pos) = some crc) :
    Run S (Prog.iterate (nor_body abi fd datalen) ⟨len, newcrc, pos, buf⟩) w (some (some crc)) w := by
  generalize hrest : content.drop pos = rest at h
  induction len, newcrc, rest using nor_crc.induct abi datalen generalizing pos buf with
  | case1 len newcrc hlen =>
    rw [nor_crc, if_pos hlen, if_pos rfl] at h
    cases h
  | case2 len newcrc rest hlen hne ih =>
    have hfull := sector_read whole hpos (hrest ▸ hne)
    have hmoved : moved (some ((content.drop pos).take bufSize)) = bufSize := hfull
    have hnext : content.drop (pos + bufSize) = rest.drop bufSize := by
      rw [← hrest, List.drop_drop]
    rw [nor_crc, if_pos hlen, if_neg hne] at h
    have hround : Run S (nor_body abi fd datalen ⟨len, newcrc, pos, buf⟩) w
        (some (.inl ⟨int32 (len + bufSize), crc32 abi newcrc (rest.take (chunk datalen len)),
          pos + bufSize, take_in buf (some ((content.drop pos).take bufSize))⟩)) w := by
      rw [nor_body, if_pos hlen, Prog.ask_bind]
      refine .call (hread pos) ?_
      rw [hmoved, if_neg (by decide), take_in_full hfull _ (chunk_le _ _), List.take_take,
        Nat.min_eq_left (chunk_le _ _), hrest]
      exact .ret _ _
    exact .again hround (ih _ ((Nat.dvd_add_right hpos).mpr (Nat.dvd_refl _)) hnext h)
  | case3 len newcrc rest hlen =>
    rw [nor_crc, if_neg hlen] at h
    obtain rfl := Option.some.inj h
    refine .leave ?_ (.ret _ _)
    rw [nor_body, if_neg hlen]
    exact .ret _ _

/-- On valid contents there is a run that accepts them. -/
theorem run_verify_nor_valid (whole : bufSize ∣ content.length)
    (hread : ∀ pos, S.step w (.read fd pos bufSize) (some ((content.drop pos).take bufSize)) w)
    (hsize : S.step w (.mtd_size fd) (content.length : Int) w) (h : nor_valid abi content)
    (buf : Bytes) : Run S (verify_nor_image abi fd buf) w (some 0) w := by
  obtain ⟨hne, hff, hfits, crc, hcrc, heq⟩ := h
  have hfull : (content.take bufSize).length = bufSize := by
    have hsector := sector_read whole (Nat.dvd_zero bufSize) (by rwa [List.drop_zero])
    rwa [List.drop_zero] at hsector
  have hmoved : moved (some (content.take bufSize)) = bufSize := hfull
  have hfirst : first_crc abi (content.take bufSize) = first_crc abi content := by
    rw [first_crc, first_crc, List.take_take, Nat.min_self]
  have hstart := hread 0
  rw [List.drop_zero] at hstart
  rw [verify_nor_image, Prog.ask_bind]
  refine .call hstart ?_
  rw [hmoved, if_neg (by decide), ih_dcrc_full hfull, image_datalen_full hfull,
    first_crc_full hfull, if_neg hff, hfirst, Prog.ask_bind]
  refine .call hsize ?_
  rw [if_neg (Int.not_lt.mpr hfits)]
  refine (run_nor_body_loop whole hread _ (Nat.dvd_refl _) hcrc).bind ?_
  simp only [if_neg (not_not.mpr heq)]
  exact .ret _ _

end Nor

/-! ### The NAND -/

section Nand

variable {N : Nand} {c : N.Contents}
  (hread : ∀ offs r w', S.step w (.part_read fd offs bufSize) r w' →
    r = N.part_read c offs ∧ w' = w)

include hread in
/-- The loop of `verify_nand_image` computes `nand_crc`. -/
theorem wp_nand_loop {datalen : Int} {s : Verifying abi Int} :
    wp S (Prog.iterate (nand_body abi fd datalen) s)
      (fun o w' => w' = w ∧ o = nand_crc N c abi datalen s.len s.newcrc s.pos)
      (fun _ => True) w := by
  refine wp_loop (fun s' w' => w' = w ∧ nand_crc N c abi datalen s'.len s'.newcrc s'.pos
    = nand_crc N c abi datalen s.len s.newcrc s.pos) ⟨rfl, rfl⟩ ?_
  rintro s' w' ⟨rfl, heq⟩
  rw [← heq, nand_body]
  by_cases hlen : s'.len < datalen
  · rw [if_pos hlen, Prog.ask_bind, wp_call]
    refine ⟨trivial, fun _ _ => trivial, fun r w'' hs => ?_⟩
    obtain ⟨rfl, rfl⟩ := hread _ _ _ hs
    by_cases hend : (N.part_read c s'.pos).1 ≤ 0
    · rw [if_pos hend]
      refine wp_pure.mpr ⟨wp_pure.mpr ⟨⟨rfl, ?_⟩, trivial⟩, trivial⟩
      rw [nand_crc, if_pos hlen, if_pos hend]
    · have hfull := N.full c s'.pos (by omega)
      rw [if_neg hend, take_in_full hfull _ (chunk_le _ _)]
      refine wp_pure.mpr ⟨⟨rfl, ?_⟩, trivial⟩
      conv_rhs => rw [nand_crc, if_pos hlen, if_neg hend]
  · rw [if_neg hlen]
    exact wp_pure.mpr ⟨wp_pure.mpr ⟨⟨rfl, (nand_crc_done hlen).symm⟩, trivial⟩, trivial⟩

include hread in
/-- **`verify_nand_image` accepts the valid contents**, and no others. -/
theorem run_verify_nand {buf : Bytes} {r : Int} {w' : W}
    (h : Run S (verify_nand_image abi fd buf) w (some r) w') :
    w' = w ∧ (r = 0 ∧ nand_valid N abi c ∨ r = -1 ∧ ¬ nand_valid N abi c) := by
  rw [verify_nand_image, Prog.ask_bind, Run.some_call] at h
  obtain ⟨d, w₁, hs, h⟩ := h
  obtain ⟨rfl, rfl⟩ := hread _ _ _ hs
  by_cases hnone : (N.part_read c 0).1 ≤ 0
  · rw [if_pos hnone] at h
    obtain ⟨rfl, rfl⟩ := Run.some_pure.mp h
    exact ⟨rfl, Or.inr ⟨rfl, fun hv => absurd hv.1 (by omega)⟩⟩
  have hfull := N.full c 0 (by omega)
  rw [if_neg hnone, ih_dcrc_full hfull, image_datalen_full hfull, first_crc_full hfull,
    Run.some_bind] at h
  obtain ⟨newcrc, w₂, hloop, h⟩ := h
  obtain ⟨rfl, hcrc⟩ := (wp_nand_loop hread).1 _ _ hloop
  cases newcrc with
  | none =>
    obtain ⟨rfl, rfl⟩ := Run.some_pure.mp h
    refine ⟨rfl, Or.inr ⟨rfl, ?_⟩⟩
    rintro ⟨-, newcrc, hsome, -⟩
    rw [← hcrc] at hsome
    cases hsome
  | some newcrc =>
    simp only at h
    split at h
    · rename_i hne
      obtain ⟨rfl, rfl⟩ := Run.some_pure.mp h
      refine ⟨rfl, Or.inr ⟨rfl, ?_⟩⟩
      rintro ⟨-, newcrc', hsome, heq⟩
      rw [← hcrc] at hsome
      obtain rfl := Option.some.inj hsome
      exact hne heq
    · rename_i heq
      obtain ⟨rfl, rfl⟩ := Run.some_pure.mp h
      exact ⟨rfl, Or.inl ⟨rfl, by omega, newcrc, hcrc.symm, not_not.mp heq⟩⟩

end Nand

end Verify

end Boxing.Iburn
