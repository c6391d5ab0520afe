import Boxing.Iburn.Dual
import Boxing.Iburn.Exact

/-!
# The copy is accepted when the original is

When all calls go well the backup of a valid main image comes out valid.  Two loops that
were written apart must go through the same bytes: `verify_nor_image` by the file position,
`verify_nand_image` by the offsets `part_read` gives back.  They do, sector by sector
(`nand_crc_of_nor_crc`), as the loop between them has put sector `k` of the NOR where the
`k`-th offset is (`run_copy`).

A NAND partition leaves out its bad blocks, so the offsets of the good sectors are any
numbers (`Layout`).  Nothing else is left open: the device is determined, and one run that
ends tells what all do.
-/

namespace Boxing.Iburn

open C Device Uboot

/-! ### The NAND flash -/

/-- What a sector holds. -/
abbrev Sector := { b : Bytes // b.length = bufSize }

/-- The offsets of the good sectors of a NAND partition. -/
structure Layout where
  offs : Nat → Int
  sector : Int → Option Nat
  offs_zero : offs 0 = 0
  offs_pos : ∀ k, 0 < offs (k + 1)
  sector_offs : ∀ k, sector (offs k) = some k

/-- `part_read`: a sector, and the offset of the next one. -/
def Layout.part_read (L : Layout) (nand : List Sector) (offs : Int) : Int × Bytes :=
  match L.sector offs with
  | none => (-1, [])
  | some k =>
    match nand[k]? with
    | none => (-1, [])
    | some s => (L.offs (k + 1), s.val)

/-- How many sectors are still to come. -/
def Layout.left (L : Layout) (nand : List Sector) (offs : Int) : Nat :=
  match L.sector offs with
  | none => 0
  | some k => nand.length - k

/-- A read that succeeds is one of a good sector. -/
theorem Layout.part_read_cases (L : Layout) {nand : List Sector} {offs : Int}
    (h : 0 < (L.part_read nand offs).1) :
    ∃ k s, L.sector offs = some k ∧ nand[k]? = some s ∧
      L.part_read nand offs = (L.offs (k + 1), s.val) := by
  rw [part_read] at h ⊢
  cases hk : L.sector offs with
  | none =>
    simp only [hk] at h
    exact absurd h (by decide : ¬ (0 : Int) < -1)
  | some k =>
    cases hs : nand[k]? with
    | none =>
      simp only [hk, hs] at h
      exact absurd h (by decide : ¬ (0 : Int) < -1)
    | some s => exact ⟨k, s, rfl, hs, by simp only [hs]⟩

/-- The partition as `verify_nand_image` sees it. -/
abbrev Layout.nand (L : Layout) : Nand where
  Contents := List Sector
  part_read := L.part_read
  left := L.left
  full := by
    intro nand offs h
    obtain ⟨k, s, -, -, heq⟩ := L.part_read_cases h
    rw [heq]
    exact s.property
  goes_on := by
    intro nand offs h
    obtain ⟨k, s, hk, hs, heq⟩ := L.part_read_cases h
    have hlt : k < nand.length := (List.getElem?_eq_some_iff.mp hs).1
    simp only [heq, Layout.left, hk, L.sector_offs]
    omega

theorem Layout.part_read_offs (L : Layout) {nand : List Sector} {k : Nat} {s : Sector}
    (h : nand[k]? = some s) : L.nand.part_read nand (L.offs k) = (L.offs (k + 1), s.val) := by
  show L.part_read nand (L.offs k) = _
  rw [part_read, L.sector_offs]
  simp only [h]

/-- The bytes of the good sectors, one after the other. -/
def contents (nand : List Sector) : Bytes := (nand.map Subtype.val).flatten

theorem length_contents (nand : List Sector) : (contents nand).length = nand.length * bufSize := by
  induction nand with
  | nil => simp [contents]
  | cons s nand ih =>
    have hcons : contents (s :: nand) = s.val ++ contents nand := rfl
    rw [hcons, List.length_append, ih, s.property, List.length_cons, Nat.succ_mul, Nat.add_comm]

/-- Sector `k` is what stands `k` sectors into the contents. -/
theorem sector_contents {nand : List Sector} {k : Nat} {s : Sector} (h : nand[k]? = some s) :
    ((contents nand).drop (k * bufSize)).take bufSize = s.val := by
  induction nand generalizing k with
  | nil => cases h
  | cons t nand ih =>
    have hcons : contents (t :: nand) = t.val ++ contents nand := rfl
    cases k with
    | zero =>
      rw [List.getElem?_cons_zero] at h
      obtain rfl := Option.some.inj h
      rw [Nat.zero_mul, List.drop_zero, hcons, List.take_left' t.property]
    | succ k =>
      rw [List.getElem?_cons_succ] at h
      have hplace : (k + 1) * bufSize = t.val.length + k * bufSize := by
        rw [t.property, Nat.succ_mul, Nat.add_comm]
      rw [hcons, hplace, List.drop_append, List.drop_eq_nil_of_le (Nat.le_add_right _ _),
        List.nil_append, Nat.add_sub_cancel_left, ih h]

/-- A sector written behind the first `k` ones. -/
theorem contents_take_set {nand : List Sector} {k : Nat} (h : k < nand.length) (s : Sector) :
    contents ((nand.set k s).take (k + 1)) = contents (nand.take k) ++ s.val := by
  induction nand generalizing k with
  | nil => cases h
  | cons t nand ih =>
    cases k with
    | zero => simp [contents]
    | succ k =>
      have hcons : ∀ l : List Sector, contents (t :: l) = t.val ++ contents l := fun _ => rfl
      rw [List.set_cons_succ, List.take_succ_cons, List.take_succ_cons, hcons, hcons,
        ih (Nat.lt_of_succ_lt_succ h), List.append_assoc]

/-! ### The two loops on the same bytes -/

section Same

variable {L : Layout} {nor : Nor} {nand : List Sector}

/-- A sector of the NOR is where the copy has it. -/
theorem copied_sector (hcopy : nor.bytes <+: contents nand) {k : Nat}
    (h : nor.bytes.drop (k * bufSize) ≠ []) :
    ∃ s : Sector, nand[k]? = some s ∧ s.val = (nor.bytes.drop (k * bufSize)).take bufSize := by
  have hfull := sector_read nor.whole (Nat.dvd_mul_left bufSize k) h
  have hbuf := bufSize_pos
  have hin : k * bufSize + bufSize ≤ nor.bytes.length := by
    rw [List.length_take, List.length_drop] at hfull
    omega
  have hlen := hcopy.length_le
  rw [length_contents] at hlen
  have hk : k < nand.length := Nat.lt_of_mul_lt_mul_right (a := bufSize) (by omega)
  refine ⟨nand[k], List.getElem?_eq_getElem hk, ?_⟩
  obtain ⟨rest, hrest⟩ := hcopy
  rw [← sector_contents (List.getElem?_eq_getElem hk), ← hrest,
    List.drop_append_of_le_length (by omega),
    List.take_append_of_le_length (by rw [List.length_drop]; omega)]

/-- **The two loops sum up the same bytes.** -/
theorem nand_crc_of_nor_crc (hcopy : nor.bytes <+: contents nand) {abi : Abi} {datalen len : Int}
    {newcrc crc : BitVec abi.longBits} {k : Nat}
    (h : nor_crc abi datalen len newcrc (nor.bytes.drop (k * bufSize)) = some crc) :
    nand_crc L.nand nand abi datalen len newcrc (L.offs k) = some crc := by
  generalize hrest : nor.bytes.drop (k * bufSize) = rest at h
  induction len, newcrc, rest using nor_crc.induct abi datalen generalizing k with
  | case1 len newcrc hlen =>
    rw [nor_crc, if_pos hlen, if_pos rfl] at h
    cases h
  | case2 len newcrc rest hlen hne ih =>
    obtain ⟨s, hs, hval⟩ := copied_sector hcopy (hrest ▸ hne)
    have hnext : nor.bytes.drop ((k + 1) * bufSize) = rest.drop bufSize := by
      rw [← hrest, List.drop_drop, Nat.succ_mul]
    have hpos : ¬ (L.nand.part_read nand (L.offs k)).1 ≤ 0 := by
      rw [L.part_read_offs hs]
      exact Int.not_le.mpr (L.offs_pos k)
    rw [nor_crc, if_pos hlen, if_neg hne] at h
    rw [nand_crc, if_pos hlen, if_neg hpos, L.part_read_offs hs, hval, hrest, List.take_take,
      Nat.min_eq_left (chunk_le _ _)]
    exact ih hnext h
  | case3 len newcrc rest hlen =>
    rw [nor_crc, if_neg hlen] at h
    rw [nand_crc_done hlen, h]

/-- What the one function accepts the other accepts in a copy. -/
theorem nand_valid_of_nor_valid {abi : Abi} (hcopy : nor.bytes <+: contents nand)
    (h : nor_valid abi nor.bytes) : nand_valid L.nand abi nand := by
  obtain ⟨hne, -, -, crc, hcrc, hdcrc⟩ := h
  obtain ⟨s, hs, hval⟩ := copied_sector (k := 0) hcopy (by rwa [Nat.zero_mul, List.drop_zero])
  rw [Nat.zero_mul, List.drop_zero] at hval
  have hread : L.nand.part_read nand 0 = (L.offs 1, s.val) := by
    rw [← L.offs_zero]
    exact L.part_read_offs hs
  have hfirst : first_crc abi s.val = first_crc abi nor.bytes := by
    rw [first_crc, first_crc, hval, List.take_take, Nat.min_self]
  rw [nand_valid, hread, hfirst, hval]
  refine ⟨L.offs_pos 0, crc, nand_crc_of_nor_crc (k := 1) hcopy ?_, hdcrc⟩
  rwa [Nat.one_mul]

end Same

/-! ### The copy -/

/-- The two partitions. -/
structure Copying where
  nor : Nor
  nand : List Sector

/-- A sector that has been erased. -/
def blankSector : Sector := ⟨List.replicate bufSize 0xff, List.length_replicate⟩

/-- `part_write`: a whole sector where a good one begins, and the offset of the next. -/
def Layout.part_write (L : Layout) (nand : List Sector) (offs : Int) (buf : Bytes) :
    Int × List Sector :=
  match L.sector offs with
  | none => (-1, nand)
  | some k =>
    if h : buf.length = bufSize ∧ k < nand.length then (L.offs (k + 1), nand.set k ⟨buf, h.1⟩)
    else (-1, nand)

theorem Layout.part_write_offs (L : Layout) {nand : List Sector} {k : Nat} (hk : k < nand.length)
    (s : Sector) : L.part_write nand (L.offs k) s.val = (L.offs (k + 1), nand.set k s) := by
  rw [part_write, L.sector_offs]
  simp only [dif_pos (And.intro s.property hk)]

section Copy

variable {L : Layout} {nor : Nor}

/-- The calls of the backup, all of them going well; it makes no others. -/
def copyStep (L : Layout) : Copying → (c : MbCall) → MbRet c → Copying → Prop
  | w, .part_open _, r, w' => r = true ∧ w' = w
  | w, .mtd_size .firstos, r, w' => r = w.nor.bytes.length ∧ w' = w
  | w, .read .firstos pos len, r, w' => r = some ((w.nor.bytes.drop pos).take len) ∧ w' = w
  | w, .part_erase .secondos start n, r, w' => (start = 0 ∧ n = -1) ∧
    r = 0 ∧ w' = { w with nand := w.nand.map fun _ => blankSector }
  | w, .part_write .secondos offs buf, r, w' => r = (L.part_write w.nand offs buf).1 ∧
    w' = { w with nand := (L.part_write w.nand offs buf).2 }
  | w, .part_read .secondos offs _, r, w' => r = L.part_read w.nand offs ∧ w' = w
  | _, _, _, _ => False

def copying (L : Layout) : Sem MbRet Copying where
  step := copyStep L
  cut := fun _ _ _ => False

theorem copying_determined (L : Layout) : (copying L).Determined := by
  intro w c r₁ r₂ w₁ w₂ h₁ h₂
  have hsame : ∀ {a : MbRet c} {v : Copying}, r₁ = a ∧ w₁ = v → r₂ = a ∧ w₂ = v →
      r₂ = r₁ ∧ w₂ = w₁ := by
    rintro a v ⟨rfl, rfl⟩ h
    exact h
  cases c with
  | part_open part => exact hsame h₁ h₂
  | mtd_size part =>
    cases part with
    | firstos => exact hsame h₁ h₂
    | _ => exact False.elim h₁
  | read part pos len =>
    cases part with
    | firstos => exact hsame h₁ h₂
    | _ => exact False.elim h₁
  | part_erase part start n =>
    cases part with
    | secondos => exact hsame h₁.2 h₂.2
    | _ => exact False.elim h₁
  | part_write part offs buf =>
    cases part with
    | secondos => exact hsame h₁ h₂
    | _ => exact False.elim h₁
  | part_read part offs len =>
    cases part with
    | secondos => exact hsame h₁ h₂
    | _ => exact False.elim h₁
  | _ => exact False.elim h₁

/-- What the copy loop has done: the first sectors are in the NAND. -/
structure Copied (L : Layout) (nor : Nor) (s : Dump) (w : Copying) : Prop where
  kept : w.nor = nor
  room : nor.bytes.length ≤ w.nand.length * bufSize
  place : ∃ k, s.pos = k * bufSize ∧ s.offs = L.offs k ∧
    contents (w.nand.take k) = nor.bytes.take (k * bufSize)

/-- One round of the copy loop: the next sector, or the end. -/
theorem run_dump_body {s : Dump} {w : Copying} (h : Copied L nor s w) :
    ∃ r w', Run (copying L) (dump_body s) w (some r) w' ∧
      r.elim (fun s' => Copied L nor s' w' ∧
          nor.bytes.length - s'.pos < nor.bytes.length - s.pos)
        (fun _ => w'.nor = nor ∧ nor.bytes <+: contents w'.nand) := by
  obtain ⟨hnor, hroom, k, hpos, hoffs, hcopied⟩ := h
  have hread : (copying L).step w (.read .firstos s.pos bufSize)
      (some ((nor.bytes.drop s.pos).take bufSize)) w := by
    rw [← hnor]
    exact ⟨rfl, rfl⟩
  rw [dump_body, Prog.ask_bind]
  by_cases hend : nor.bytes.drop s.pos = []
  · have hmoved : moved (some ((nor.bytes.drop s.pos).take bufSize)) = 0 := by
      rw [hend]
      rfl
    refine ⟨.inr (take_in s.buf (some ((nor.bytes.drop s.pos).take bufSize))), w,
      .call hread ?_, hnor, ?_⟩
    · rw [if_pos hmoved]
      exact .ret _ _
    · have hall : nor.bytes.take (k * bufSize) = nor.bytes :=
        List.take_of_length_le (hpos ▸ List.drop_eq_nil_iff.mp hend)
      rw [← hall, ← hcopied, ← List.take_append_drop k w.nand, contents, contents, List.map_append,
        List.flatten_append, List.take_append_drop]
      exact List.prefix_append _ _
  · have hfull := sector_read nor.whole (hpos ▸ Nat.dvd_mul_left bufSize k) hend
    have hmoved : moved (some ((nor.bytes.drop s.pos).take bufSize)) = bufSize := hfull
    have hbuf := bufSize_pos
    have hin : s.pos < nor.bytes.length := by
      by_contra hge
      exact hend (List.drop_eq_nil_of_le (Nat.le_of_not_lt hge))
    have hk : k < w.nand.length := by
      refine Nat.lt_of_mul_lt_mul_right (a := bufSize) ?_
      rw [← hpos]
      exact Nat.lt_of_lt_of_le hin hroom
    have hwrite : (copying L).step w
        (.part_write .secondos s.offs ((nor.bytes.drop s.pos).take bufSize)) (L.offs (k + 1))
        { w with nand := w.nand.set k ⟨(nor.bytes.drop s.pos).take bufSize, hfull⟩ } := by
      have heq := L.part_write_offs hk ⟨(nor.bytes.drop s.pos).take bufSize, hfull⟩
      rw [← hoffs] at heq
      exact ⟨(congrArg Prod.fst heq).symm, by rw [heq]⟩
    refine ⟨.inl ⟨s.pos + bufSize, L.offs (k + 1),
      take_in s.buf (some ((nor.bytes.drop s.pos).take bufSize))⟩,
      { w with nand := w.nand.set k ⟨(nor.bytes.drop s.pos).take bufSize, hfull⟩ },
      .call hread ?_, ?_, ?_⟩
    · rw [hmoved, if_neg (by decide), take_in_full hfull _ (Nat.le_refl _), List.take_take,
        Nat.min_self, Prog.ask_bind]
      exact .call hwrite (.ret _ _)
    · refine ⟨hnor, by rwa [List.length_set], k + 1, ?_, rfl, ?_⟩
      · rw [hpos, Nat.succ_mul]
      · have hnext : (k + 1) * bufSize = s.pos + bufSize := by rw [hpos, Nat.succ_mul]
        rw [contents_take_set hk, hcopied, hnext, ← hpos, List.take_add]
    · show nor.bytes.length - (s.pos + bufSize) < nor.bytes.length - s.pos
      omega

/-- **The copy loop** puts all of the NOR into the NAND. -/
theorem run_copy {s : Dump} {w : Copying} (h : Copied L nor s w) :
    ∃ buf w', Run (copying L) (Prog.iterate dump_body s) w (some buf) w' ∧
      w'.nor = nor ∧ nor.bytes <+: contents w'.nand :=
  Run.iterate_ends (fun s => nor.bytes.length - s.pos) (fun _ _ => run_dump_body) h

/-- The loop of `verify_nand_image` comes to an end: each round reads on. -/
theorem run_nand_loop_ends {abi : Abi} (datalen : Int) (s : Verifying abi Int) (w : Copying) :
    ∃ o, Run (copying L) (Prog.iterate (nand_body abi .secondos datalen) s) w (some o) w := by
  have hround : ∀ s : Verifying abi Int, True →
      ∃ r, Run (copying L) (nand_body abi .secondos datalen s) w (some r) w ∧
        r.elim (fun s' => True ∧ L.left w.nand s'.pos < L.left w.nand s.pos) (fun _ => True) := by
    intro s _
    have hread : (copying L).step w (.part_read .secondos s.pos bufSize)
        (L.part_read w.nand s.pos) w := ⟨rfl, rfl⟩
    rw [nand_body]
    by_cases hlen : s.len < datalen
    · rw [if_pos hlen, Prog.ask_bind]
      by_cases hend : (L.part_read w.nand s.pos).1 ≤ 0
      · refine ⟨.inr none, .call hread ?_, trivial⟩
        rw [if_pos hend]
        exact .ret _ _
      · have hgoes := L.nand.goes_on w.nand s.pos (Int.not_le.mp hend)
        refine ⟨.inl ⟨int32 (s.len + bufSize), crc32 abi s.newcrc ((take_in s.buf
          (some (L.part_read w.nand s.pos).2)).take (chunk datalen s.len)),
          (L.part_read w.nand s.pos).1, take_in s.buf (some (L.part_read w.nand s.pos).2)⟩,
          .call hread ?_, trivial, hgoes⟩
        rw [if_neg hend]
        exact .ret _ _
    · rw [if_neg hlen]
      exact ⟨.inr (some s.newcrc), .ret _ _, trivial⟩
  obtain ⟨o, ho, -⟩ := Run.iterate_ends_same (fun s : Verifying abi Int => L.left w.nand s.pos)
    hround trivial
  exact ⟨o, ho⟩

/-- `verify_nand_image` comes to an end. -/
theorem run_verify_nand_ends (abi : Abi) (buf : Bytes) (w : Copying) :
    ∃ r, Run (copying L) (verify_nand_image abi .secondos buf) w (some r) w := by
  have hread : (copying L).step w (.part_read .secondos 0 bufSize) (L.part_read w.nand 0) w :=
    ⟨rfl, rfl⟩
  rw [verify_nand_image, Prog.ask_bind]
  by_cases hnone : (L.part_read w.nand 0).1 ≤ 0
  · refine ⟨-1, .call hread ?_⟩
    rw [if_pos hnone]
    exact .ret _ _
  obtain ⟨o, hloop⟩ := run_nand_loop_ends
    (image_datalen (take_in buf (some (L.part_read w.nand 0).2)))
    ⟨bufSize, first_crc abi (take_in buf (some (L.part_read w.nand 0).2)),
      (L.part_read w.nand 0).1, take_in buf (some (L.part_read w.nand 0).2)⟩ w
  cases o with
  | none =>
    refine ⟨-1, .call hread ?_⟩
    rw [if_neg hnone]
    exact hloop.bind (.ret _ _)
  | some newcrc =>
    by_cases hcrc : newcrc.toNat ≠ ih_dcrc (take_in buf (some (L.part_read w.nand 0).2))
    · refine ⟨-1, .call hread ?_⟩
      rw [if_neg hnone]
      refine hloop.bind ?_
      simp only [if_pos hcrc]
      exact .ret _ _
    · refine ⟨0, .call hread ?_⟩
      rw [if_neg hnone]
      refine hloop.bind ?_
      simp only [if_neg hcrc]
      exact .ret _ _

/-- A good copy is accepted. -/
theorem run_verify_nand_valid {abi : Abi} {buf : Bytes} {w : Copying}
    (h : nand_valid L.nand abi w.nand) :
    Run (copying L) (verify_nand_image abi .secondos buf) w (some 0) w := by
  obtain ⟨r, hr⟩ := run_verify_nand_ends abi buf w
  obtain ⟨-, ⟨rfl, -⟩ | ⟨-, hnot⟩⟩ := run_verify_nand (N := L.nand) (c := w.nand)
    (fun offs r w' hs => hs) hr
  · exact hr
  · exact absurd h hnot

/-- The whole backup, with its erase, its loop and its check. -/
theorem run_backup_valid {cfg : Config} (stack : Stack) (buf : Bytes) {w : Copying}
    (hvalid : nor_valid cfg.abi w.nor.bytes)
    (hroom : w.nor.bytes.length ≤ w.nand.length * bufSize) :
    ∃ buf' w', Run (copying L) (dump_all cfg stack buf) w (some (.inr buf')) w' ∧
      w.nor.bytes <+: contents w'.nand ∧
        Run (copying L) (verify_nand_image cfg.abi .secondos stack.nand) w' (some 0) w' := by
  have herase : (copying L).step w (.part_erase .secondos 0 (-1)) (0 : Int)
      { w with nand := w.nand.map fun _ => blankSector } := ⟨⟨rfl, rfl⟩, rfl, rfl⟩
  have hstart : Copied L w.nor ⟨0, 0, buf⟩ { w with nand := w.nand.map fun _ => blankSector } := by
    refine ⟨rfl, by rwa [List.length_map], 0, (Nat.zero_mul _).symm, L.offs_zero.symm, ?_⟩
    rw [Nat.zero_mul]
    rfl
  obtain ⟨buf', w', hloop, hnor, hcopy⟩ := run_copy hstart
  have hverify : Run (copying L) (verify_nand_image cfg.abi .secondos stack.nand) w' (some 0) w' :=
    run_verify_nand_valid (nand_valid_of_nor_valid hcopy hvalid)
  refine ⟨buf', w', ?_, hcopy, hverify⟩
  rw [dump_all, Prog.ask_bind]
  refine .call (r := true) ⟨rfl, rfl⟩ ?_
  rw [if_neg (by decide), Prog.ask_bind]
  refine .call herase ?_
  rw [if_neg (by decide)]
  refine hloop.bind (hverify.bind ?_)
  rw [if_neg (by decide)]
  exact .ret _ _

/-- **A faithful backup is never rejected.**  When `verify_nor_image` accepts what is in the
NOR and all calls go well, the backup comes to its end, and then the NAND begins with the
bytes of the NOR and `verify_nand_image` returns 0. -/
theorem backup_accepted (L : Layout) (cfg : Config) (stack : Stack) (buf : Bytes) {w w₀ : Copying}
    (haccept : Run (copying L) (verify_nor_image cfg.abi .firstos stack.nor) w (some 0) w₀)
    (hroom : w.nor.bytes.length ≤ w.nand.length * bufSize) :
    (∃ o w', Run (copying L) (dump_all cfg stack buf) w (some o) w') ∧
      ∀ o w', Run (copying L) (dump_all cfg stack buf) w (some o) w' →
        (∃ buf', o = .inr buf') ∧ w.nor.bytes <+: contents w'.nand ∧
          Run (copying L) (verify_nand_image cfg.abi .secondos stack.nand) w' (some 0) w' := by
  have hvalid : nor_valid cfg.abi w.nor.bytes := by
    obtain ⟨-, ⟨-, hvalid⟩ | ⟨habs, -⟩⟩ := run_verify_nor w.nor.whole
      (fun pos len r w' hs => hs) (fun r w' hs => hs) haccept
    · exact hvalid
    · exact absurd habs (by decide)
  obtain ⟨buf', w', hrun, hcopy, hverify⟩ := run_backup_valid stack buf hvalid hroom
  refine ⟨⟨_, _, hrun⟩, fun o w'' hother => ?_⟩
  obtain ⟨rfl, rfl⟩ := hrun.unique (copying_determined L) hother
  exact ⟨⟨buf', rfl⟩, hcopy, hverify⟩

end Copy

/-! ### An image of two sectors -/

/-- No bad blocks. -/
def plainLayout : Layout where
  offs := fun k => k * 65536
  sector := fun offs => if offs % 65536 = 0 then some (offs / 65536).toNat else none
  offs_zero := rfl
  offs_pos := fun k => by omega
  sector_offs := fun k => by
    rw [if_pos (by omega)]
    congr 1
    omega

/-- The checksum of zeros is not the one of an erased flash: only a register of zeros
stays one. -/
theorem zeros_crc_ne (n : Nat) :
    (crc32 plainConfig.abi 0 (List.replicate n 0)).toNat ≠ 0xffffffff := by
  intro h
  rw [crc32] at h
  have hcrc : crc_int plainConfig.abi (List.replicate n 0) = ~~~0 := by
    refine BitVec.eq_of_toNat_eq ?_
    rw [crc_int, BitVec.toNat_setWidth, h]
    rfl
  rw [crc_int_eq, standard, Crc.crc, BitVec.not_inj] at hcrc
  have hfeed : Crc.feed polynomial (~~~0) (Crc.bytesBits (List.replicate n 0))
      = Crc.feed polynomial 0 (Crc.bytesBits (List.replicate n 0)) := by
    rw [hcrc, feed_zeros]
  exact absurd (Crc.feed_left_injective (by decide) _ hfeed) (by decide)

/-- The checksum of 65536 zeros. -/
def zeroCrc : Nat := (crc32 plainConfig.abi 0 (List.replicate 65536 0)).toNat

/-- What stands in front of the zeros: `ih_size`, 65536, and `ih_dcrc`. -/
def twoHeader : Bytes :=
  List.replicate 12 0 ++ htonl 65536 ++ List.replicate 8 0 ++ htonl zeroCrc

/-- A sector for the header and most of the zeros, and one for the rest. -/
def twoSectors : Bytes := twoHeader ++ List.replicate 131044 0

theorem length_twoSectors : twoSectors.length = 2 * bufSize := by
  rw [twoSectors, List.length_append, List.length_replicate]
  rfl

theorem drop_twoSectors {n : Nat} (h : 28 ≤ n) :
    twoSectors.drop n = List.replicate (131072 - n) 0 := by
  have hlen : twoHeader.length = 28 := rfl
  rw [twoSectors, List.drop_append, hlen, List.drop_eq_nil_of_le (by omega), List.nil_append,
    List.drop_replicate]
  congr 1
  omega

theorem image_datalen_twoSectors : image_datalen (twoSectors.take bufSize) = 65600 := by
  have hsize : ih_size (twoSectors.take bufSize) = 65536 := by
    rw [ih_size, be32_take _ (by decide), twoSectors, twoHeader, List.append_assoc,
      List.append_assoc, List.append_assoc]
    exact be32_htonl (by decide) (List.replicate 12 0) _
  rw [image_datalen, hsize]
  decide

theorem ih_dcrc_twoSectors : ih_dcrc (twoSectors.take bufSize) = zeroCrc := by
  rw [ih_dcrc, be32_take _ (by decide), twoSectors, twoHeader, List.append_assoc]
  exact be32_htonl (BitVec.isLt _) (List.replicate 12 0 ++ htonl 65536 ++ List.replicate 8 0) _

/-- The loop goes round once. -/
theorem nor_valid_twoSectors : nor_valid plainConfig.abi twoSectors := by
  have hfirst : first_crc plainConfig.abi twoSectors =
      crc32 plainConfig.abi 0 (List.replicate 65472 0) := by
    rw [first_crc, List.drop_take, drop_twoSectors (by decide), List.take_replicate]
    rfl
  have hchunk : chunk 65600 bufSize = 64 := by decide
  refine ⟨?_, ?_, ?_, crc32 plainConfig.abi 0 (List.replicate 65536 0), ?_, ih_dcrc_twoSectors.symm⟩
  · refine List.ne_nil_of_length_pos ?_
    rw [length_twoSectors]
    decide
  · rw [ih_dcrc_twoSectors]
    exact zeros_crc_ne _
  · rw [image_datalen_twoSectors, length_twoSectors]
    decide
  · rw [image_datalen_twoSectors, hfirst, drop_twoSectors (by decide), nor_crc, if_pos (by decide),
      if_neg (by decide), hchunk, List.take_replicate, crc32_append, List.replicate_append_replicate,
      nor_crc, if_neg (by decide)]
    rfl

/-- It is in the NOR, and an empty NAND has three sectors. -/
def beforeCopy : Copying where
  nor := ⟨twoSectors, ⟨2, length_twoSectors.trans (Nat.mul_comm _ _)⟩⟩
  nand := [blankSector, blankSector, blankSector]

/-- `verify_nor_image` accepts it. -/
theorem run_verify_twoSectors :
    Run (copying plainLayout) (verify_nor_image plainConfig.abi .firstos []) beforeCopy (some 0)
      beforeCopy := by
  have hread : ∀ pos, (copying plainLayout).step beforeCopy (.read .firstos pos bufSize)
      (some ((twoSectors.drop pos).take bufSize)) beforeCopy := fun _ => ⟨rfl, rfl⟩
  have hsize : (copying plainLayout).step beforeCopy (.mtd_size .firstos) (twoSectors.length : Int)
      beforeCopy := ⟨rfl, rfl⟩
  exact run_verify_nor_valid beforeCopy.nor.whole hread hsize nor_valid_twoSectors []

theorem room_twoSectors : beforeCopy.nor.bytes.length ≤ beforeCopy.nand.length * bufSize := by
  show twoSectors.length ≤ 3 * bufSize
  rw [length_twoSectors]
  decide

/-- Its backup: two sectors are copied, and each of the loops that verify goes round. -/
theorem backup_accepted_twoSectors :
    (∃ o w', Run (copying plainLayout) (dump_all plainConfig ⟨[], [], [], []⟩ []) beforeCopy
        (some o) w') ∧
      ∀ o w', Run (copying plainLayout) (dump_all plainConfig ⟨[], [], [], []⟩ []) beforeCopy
          (some o) w' →
        (∃ buf', o = .inr buf') ∧ beforeCopy.nor.bytes <+: contents w'.nand ∧
          Run (copying plainLayout) (verify_nand_image plainConfig.abi .secondos []) w' (some 0)
            w' :=
  backup_accepted plainLayout plainConfig ⟨[], [], [], []⟩ [] run_verify_twoSectors room_twoSectors

/-! ### The power goes behind the backup -/

/-- The two partitions, as the safety of the two images sees them. -/
def Copying.images (w : Copying) : Images plainLayout.nand := ⟨w.nor, w.nand⟩

/-- A backup is one of its runs. -/
theorem run_images {α : Type} {p : Prog MbRet α} {o : Option α} {w w' : Copying}
    (h : Run (copying plainLayout) p w o w') : Run (images plainLayout.nand) p w.images o w'.images := by
  have hstep : ∀ {w : Copying} {c : MbCall} {r : MbRet c} {w' : Copying},
      (copying plainLayout).step w c r w' →
        (images plainLayout.nand).step w.images c r w'.images := by
    intro w c r w' hs
    cases c with
    | part_open part => exact congrArg Copying.images hs.2
    | mtd_size part =>
      cases part with
      | firstos => exact ⟨hs.1, congrArg Copying.images hs.2⟩
      | _ => exact hs.elim
    | read part pos len =>
      cases part with
      | firstos => exact ⟨hs.1, congrArg Copying.images hs.2⟩
      | _ => exact hs.elim
    | part_erase part start n =>
      cases part with
      | secondos =>
        obtain ⟨-, -, rfl⟩ := hs
        exact ⟨_, rfl⟩
      | _ => exact hs.elim
    | part_write part offs buf =>
      cases part with
      | secondos =>
        obtain ⟨-, rfl⟩ := hs
        exact ⟨_, rfl⟩
      | _ => exact hs.elim
    | part_read part offs len =>
      cases part with
      | secondos => exact ⟨hs.1, congrArg Copying.images hs.2⟩
      | _ => exact hs.elim
    | _ => exact hs.elim
  exact h.map Copying.images hstep fun hcut => hcut.elim

/-- An erased NOR of two sectors. -/
def erasedNor : Nor := ⟨List.replicate (2 * bufSize) 0xff, 2, by rw [List.length_replicate, Nat.mul_comm]⟩

/-- The image is copied, and the power is lost while the NOR is erased. -/
theorem dual_of_run_twoSectors : ∃ nand, twoSectors <+: contents nand ∧
    Dual plainConfig.abi (⟨erasedNor, nand⟩ : Images plainLayout.nand) := by
  have hvalid : nor_valid plainConfig.abi beforeCopy.nor.bytes := nor_valid_twoSectors
  obtain ⟨buf', w', hrun, hcopy, -⟩ := run_backup_valid (L := plainLayout) ⟨[], [], [], []⟩
    plainHeader hvalid room_twoSectors
  have hbackup : Run (images plainLayout.nand) (backup plainConfig ⟨[], [], [], []⟩ plainHeader)
      beforeCopy.images (some (.inr buf')) w'.images := by
    rw [backup]
    refine (run_images run_verify_twoSectors).bind ?_
    rw [if_neg (by decide)]
    exact run_images hrun
  have hanswers : Answers (images plainLayout.nand) plainConfig 65 (some plainHeader)
      beforeCopy.images := ⟨rfl, fun _ => rfl, rfl, rfl, rfl, rfl⟩
  have hblocks : nblock (image_datalen plainHeader) = 1 := by decide
  have herase : (images plainLayout.nand).cut w'.images (.part_erase .firstos 0 1)
      ⟨erasedNor, w'.nand⟩ := Or.inr ⟨(0 : Int), erasedNor, rfl⟩
  have hall : Run (images plainLayout.nand)
      (upgrade_main_board plainConfig false ⟨[], [], [], []⟩) beforeCopy.images none
      ⟨erasedNor, w'.nand⟩ := by
    refine run_upgrade hanswers header_ok_plainHeader hbackup ?_
    rw [after_backup, Prog.ask_bind]
    refine .call (r := (0 : Int)) rfl ?_
    rw [if_neg (by decide)]
    show Run _ (burn_main plainConfig false [] _ (image_datalen plainHeader)) _ _ _
    rw [burn_main, burn, hblocks, Prog.ask_bind, Prog.call_bind]
    exact .cut herase
  exact ⟨w'.nand, hcopy, dual_of_run (Or.inl hvalid) hall⟩

end Boxing.Iburn
