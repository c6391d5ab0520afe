import Boxing.C.Num

/-!
# `mtd-write` and `mtd-read`

`do_mtd_write` copies a file into a partition in blocks of 2 KiB, the last one padded with
0xFF, until the file or the length it was given is at its end.  `do_mtd_read` copies a
length out of a partition, and cuts the last block.

The first does not cut: it counts the bytes it has read from the file, after it has read and
written them.  So what is written reads back (`slice_written`), but when the length ends
inside a block of a longer file, the rest of that block is written as well, over what was in
the partition behind the length (`do_mtd_inverse_iff`).

`part_write` and `part_read` are parameters; `Transfers` is what they are taken to do.
-/

namespace Boxing.Mtd

open C

/-! ### A partition as a memory -/

/-- The bytes of a partition. -/
abbrev Flash := Nat → UInt8

/-- `buf` put at `start`. -/
def put (m : Flash) (start : Nat) (buf : Bytes) : Flash :=
  fun i => if start ≤ i then (buf[i - start]?).getD (m i) else m i

/-- The `n` bytes from `start` on. -/
def slice (m : Flash) (start n : Nat) : Bytes := (List.range n).map fun i => m (start + i)

section Memory

variable {m m' : Flash} {start n : Nat} {buf : Bytes}

theorem put_of_lt {i : Nat} (h : i < start) : put m start buf i = m i :=
  if_neg (Nat.not_le.mpr h)

theorem put_add {i : Nat} (h : i < buf.length) : put m start buf (start + i) = buf[i] := by
  rw [put, if_pos (Nat.le_add_right _ _), Nat.add_sub_cancel_left, List.getElem?_eq_getElem h,
    Option.getD_some]

@[simp] theorem length_slice (m : Flash) (start n : Nat) : (slice m start n).length = n := by
  rw [slice, List.length_map, List.length_range]

@[simp] theorem slice_zero (m : Flash) (start : Nat) : slice m start 0 = [] := rfl

theorem slice_add (m : Flash) (start n k : Nat) :
    slice m start (n + k) = slice m start n ++ slice m (start + n) k := by
  show (List.range (n + k)).map _ = _
  rw [List.range_add, List.map_append, List.map_map]
  refine congrArg (slice m start n ++ ·) (List.map_congr_left fun i _ => ?_)
  rw [Function.comp_apply, Nat.add_assoc]

theorem slice_congr (h : ∀ i, start ≤ i → i < start + n → m i = m' i) :
    slice m start n = slice m' start n := by
  refine List.map_congr_left fun i hi => h _ (Nat.le_add_right _ _) ?_
  have := List.mem_range.mp hi
  omega

/-- What has been put is there. -/
theorem slice_put (m : Flash) (start : Nat) (buf : Bytes) :
    slice (put m start buf) start buf.length = buf := by
  refine List.ext_getElem (length_slice _ _ _) fun i h h' => ?_
  simp only [slice, List.getElem_map, List.getElem_range]
  exact put_add h'

theorem take_slice (m : Flash) (start : Nat) {n k : Nat} (h : k ≤ n) :
    (slice m start n).take k = slice m start k := by
  obtain ⟨j, rfl⟩ := Nat.exists_eq_add_of_le h
  rw [slice_add, List.take_left' (length_slice _ _ _)]

end Memory

/-! ### The two programs -/

/-- The partition calls: what they do, and the offset they return, or an error below 0. -/
structure Calls where
  part_write : Flash → Int → Bytes → Flash × Int
  part_read : Flash → Int → Nat → Bytes × Int

/-- Both transfer all they are asked to and return the offset behind it, if it is an
`int`. -/
structure Transfers (dev : Calls) : Prop where
  write : ∀ (m : Flash) (start : Nat) (buf : Bytes), start + buf.length < 2 ^ 31 →
    dev.part_write m start buf = (put m start buf, ((start + buf.length : Nat) : Int))
  read : ∀ (m : Flash) (start n : Nat), start + n < 2 ^ 31 →
    dev.part_read m start n = (slice m start n, ((start + n : Nat) : Int))

/-- `sizeof(buf)`. -/
def sizeofBuf : Nat := 2048

theorem sizeofBuf_eq : sizeofBuf = 2048 := rfl

/-- What `do_mtd_write` leaves: its result, the partition, and the bytes of the file that
have been put into it. -/
structure Written where
  err : Int
  flash : Flash
  given : Bytes

/-- `while (wrel < len)`, with `rest` what is left of the file. -/
def write_loop (dev : Calls) (len : Int) (rest : Bytes) (start wrel : Int) (m : Flash)
    (given : Bytes) : Written :=
  if wrel < len then
    let n := min sizeofBuf rest.length
    if n = 0 then ⟨0, m, given⟩
    else
      let r := dev.part_write m start (rest.take n ++ List.replicate (sizeofBuf - n) 0xFF)
      if r.2 < 0 then ⟨r.2, r.1, given ++ rest.take n⟩
      else write_loop dev len (rest.drop n) r.2 (int32 (wrel + n)) r.1 (given ++ rest.take n)
  else ⟨0, m, given⟩
termination_by rest.length
decreasing_by
  rw [List.length_drop]
  omega

/-- `do_mtd_write`, with the results of `part_open` and `fopen`. -/
def do_mtd_write (dev : Calls) (mf : Int) (pf : Option Bytes) (start len : Int) (m : Flash) :
    Written :=
  if mf < 0 then ⟨mf, m, []⟩
  else
    match pf with
    | none => ⟨-1, m, []⟩
    | some file =>
      write_loop dev (if len ≤ 0 then 0x7fffffff else len) file (if start < 0 then 0 else start) 0
        m []

/-- `while (rrel < len)`: the result, and what has been written out. -/
def read_loop (dev : Calls) (m : Flash) (len start rrel : Int) (out : Bytes) : Int × Bytes :=
  if rrel < len then
    let len2 := min (sizeofBuf : Int) (len - rrel)
    let r := dev.part_read m start len2.toNat
    if r.2 < 0 then (r.2, out)
    else read_loop dev m len r.2 (rrel + len2) (out ++ r.1)
  else (0, out)
termination_by (len - rrel).toNat
decreasing_by
  rw [sizeofBuf_eq]
  omega

/-- `do_mtd_read` into a file. -/
def do_mtd_read (dev : Calls) (mf : Int) (pf : Bool) (start len : Int) (m : Flash) : Int × Bytes :=
  if mf < 0 then (mf, [])
  else if pf = false then (-1, [])
  else
    read_loop dev m (if len ≤ 0 then (sizeofBuf : Int) else len) (if start < 0 then 0 else start) 0 []

/-! ### What is written -/

/-- The number of bytes of a file of `size` that fill whole blocks up to `len`. -/
def blocks (len size : Nat) : Nat := (min len size + (sizeofBuf - 1)) / sizeofBuf

section Loops

variable {dev : Calls} {rest given : Bytes} {start wrel len : Nat} {mem : Flash}

theorem blocks_next (hlen : wrel < len) (hne : rest ≠ []) :
    blocks (len - wrel) rest.length
      = blocks (len - (wrel + min sizeofBuf rest.length))
          (rest.drop (min sizeofBuf rest.length)).length + 1 := by
  have hpos := List.length_pos_iff.mpr hne
  unfold blocks
  rw [sizeofBuf_eq, List.length_drop]
  omega

theorem take_blocks (rest : Bytes) (b : Nat) : rest.take (sizeofBuf * (b + 1))
    = rest.take (min sizeofBuf rest.length)
      ++ (rest.drop (min sizeofBuf rest.length)).take (sizeofBuf * b) := by
  rcases Nat.le_total sizeofBuf rest.length with h | h
  · rw [Nat.min_eq_left h, ← List.take_add]
    congr 1
    rw [Nat.mul_add, Nat.mul_one, Nat.add_comm]
  · rw [Nat.min_eq_right h, List.drop_length, List.take_nil, List.append_nil, List.take_length,
      List.take_of_length_le (by rw [sizeofBuf_eq] at h ⊢; omega)]

/-- The block that is written of `rest`: what there is of it, and the padding. -/
def block (rest : Bytes) : Bytes :=
  rest.take (min sizeofBuf rest.length)
    ++ List.replicate (sizeofBuf - min sizeofBuf rest.length) 0xFF

@[simp] theorem length_block (rest : Bytes) : (block rest).length = sizeofBuf := by
  have hle : min sizeofBuf rest.length ≤ sizeofBuf := Nat.min_le_left _ _
  rw [block, List.length_append, List.length_replicate,
    List.length_take_of_le (Nat.min_le_right _ _), Nat.add_sub_cancel' hle]

/-- What has been put as the block of `rest` starts with what there is of `rest`. -/
theorem slice_block (mem : Flash) (start : Nat) (rest : Bytes) :
    slice (put mem start (block rest)) start (min sizeofBuf rest.length)
      = rest.take (min sizeofBuf rest.length) := by
  have hle : min sizeofBuf rest.length ≤ (block rest).length :=
    (length_block rest).symm ▸ Nat.min_le_left _ _
  rw [← take_slice _ _ hle, slice_put, block,
    List.take_left' (List.length_take_of_le (Nat.min_le_right _ _))]

/-- **One turn of the writing loop.**  It puts the next block, and counts what the block has of
the file. -/
theorem write_loop_next (hdev : Transfers dev) (hlen : wrel < len) (hne : rest ≠ [])
    (hwrel : wrel ≤ start) (hroom : start + sizeofBuf < 2 ^ 31) :
    write_loop dev len rest start wrel mem given
      = write_loop dev len (rest.drop (min sizeofBuf rest.length)) (start + sizeofBuf : Nat)
          (wrel + min sizeofBuf rest.length : Nat) (put mem start (block rest))
          (given ++ rest.take (min sizeofBuf rest.length)) := by
  have hpos := List.length_pos_iff.mpr hne
  have hwritten := hdev.write mem start (block rest) ((length_block rest).symm ▸ hroom)
  rw [length_block, block] at hwritten
  have hnz : min sizeofBuf rest.length ≠ 0 := by
    rw [sizeofBuf_eq]
    omega
  have hwrap : int32 ((wrel : Int) + (min sizeofBuf rest.length : Nat))
      = ((wrel + min sizeofBuf rest.length : Nat) : Int) := by
    have hle : min sizeofBuf rest.length ≤ sizeofBuf := Nat.min_le_left _ _
    have hlt := Nat.lt_of_le_of_lt (Nat.add_le_add hwrel hle) hroom
    rw [← Nat.cast_add, int32_of_lt (by omega) (by omega)]
  rw [write_loop, if_pos (Int.ofNat_lt.mpr hlen)]
  simp only [hwritten]
  rw [if_neg hnz, if_neg (Int.not_lt.mpr (Int.natCast_nonneg _)), hwrap]
  rfl

/-- What follows a block is behind it, or there is nothing more of the file. -/
theorem slice_next {mem' : Flash} {b : Nat}
    (hframe : ∀ i < start + sizeofBuf, mem' i = put mem start (block rest) i)
    (hslice : slice mem' (start + sizeofBuf)
        ((rest.drop (min sizeofBuf rest.length)).take (sizeofBuf * b)).length
      = (rest.drop (min sizeofBuf rest.length)).take (sizeofBuf * b)) :
    slice mem' start (rest.take (sizeofBuf * (b + 1))).length
      = rest.take (sizeofBuf * (b + 1)) := by
  have hle : min sizeofBuf rest.length ≤ sizeofBuf := Nat.min_le_left _ _
  have hfirst : slice mem' start (min sizeofBuf rest.length)
      = rest.take (min sizeofBuf rest.length) := by
    rw [← slice_block mem start rest]
    exact slice_congr fun i _ hi => hframe i (Nat.lt_of_lt_of_le hi (Nat.add_le_add_left hle _))
  rw [take_blocks, List.length_append, List.length_take_of_le (Nat.min_le_right _ _), slice_add,
    hfirst]
  refine congrArg (rest.take (min sizeofBuf rest.length) ++ ·) ?_
  rcases Nat.lt_or_ge rest.length sizeofBuf with hshort | hfull
  · rw [Nat.min_eq_right (Nat.le_of_lt hshort), List.drop_length, List.take_nil]
    rfl
  · rw [Nat.min_eq_left hfull] at hslice ⊢
    exact hslice

/-- **The writing loop.**  It puts the file into the partition up to the end of the block in
which the length ends, and nothing before `start`. -/
theorem write_loop_spec (hdev : Transfers dev) (rest given : Bytes) (mem : Flash)
    (hwrel : wrel ≤ start)
    (hend : start + sizeofBuf * blocks (len - wrel) rest.length < 2 ^ 31) :
    ∃ mem' : Flash, write_loop dev len rest start wrel mem given
        = ⟨0, mem', given ++ rest.take (sizeofBuf * blocks (len - wrel) rest.length)⟩ ∧
      (∀ i < start, mem' i = mem i) ∧
      slice mem' start (rest.take (sizeofBuf * blocks (len - wrel) rest.length)).length
        = rest.take (sizeofBuf * blocks (len - wrel) rest.length) := by
  induction hn : rest.length using Nat.strongRecOn generalizing rest start wrel mem given with
  | ind n ih =>
    by_cases hlen : wrel < len
    swap
    · -- enough has been read
      have hzero : blocks (len - wrel) n = 0 := by
        unfold blocks
        rw [sizeofBuf_eq]
        omega
      rw [write_loop, if_neg (by omega), hzero, Nat.mul_zero, List.take_zero, List.append_nil]
      exact ⟨mem, rfl, fun _ _ => rfl, rfl⟩
    by_cases hne : rest = []
    · subst hne
      rw [List.length_nil] at hn
      rw [write_loop, if_pos (by omega)]
      simp only [List.length_nil, Nat.min_zero, if_true, List.take_nil, List.append_nil]
      exact ⟨mem, rfl, fun _ _ => rfl, rfl⟩
    have hnext := blocks_next hlen hne
    rw [hnext, Nat.mul_succ, ← Nat.add_assoc, Nat.add_right_comm] at hend
    rw [← hn, hnext]
    have hroom : start + sizeofBuf < 2 ^ 31 := Nat.lt_of_le_of_lt (Nat.le_add_right _ _) hend
    have hshorter : (rest.drop (min sizeofBuf rest.length)).length < n := by
      have hpos := List.length_pos_iff.mpr hne
      rw [List.length_drop, sizeofBuf_eq, ← hn]
      omega
    obtain ⟨mem', hloop, hframe, hslice⟩ := ih _ hshorter (rest.drop (min sizeofBuf rest.length))
      (given ++ rest.take (min sizeofBuf rest.length)) (put mem start (block rest))
      (Nat.add_le_add hwrel (Nat.min_le_left _ _)) hend rfl
    refine ⟨mem', ?_, fun i hi => ?_, slice_next hframe hslice⟩
    · rw [write_loop_next hdev hlen hne hwrel hroom, hloop, List.append_assoc, ← take_blocks]
    · rw [hframe i (Nat.lt_add_right _ hi), put_of_lt hi]

/-- **The reading loop.**  It writes out the length, wherever its last block is cut. -/
theorem read_loop_spec (hdev : Transfers dev) {rrel : Nat} {out : Bytes} (hrrel : rrel ≤ len)
    (hend : start + (len - rrel) < 2 ^ 31) :
    read_loop dev mem len start rrel out = (0, out ++ slice mem start (len - rrel)) := by
  induction hn : len - rrel using Nat.strongRecOn generalizing start rrel out with
  | ind n ih =>
    by_cases hlen : rrel < len
    · have hmin : min (sizeofBuf : Int) ((len : Int) - rrel) = (min sizeofBuf (len - rrel) : Nat) := by
        generalize sizeofBuf = b
        omega
      have hpos : 0 < min sizeofBuf (len - rrel) :=
        Nat.lt_min.mpr ⟨by rw [sizeofBuf_eq]; decide, Nat.sub_pos_of_lt hlen⟩
      rw [read_loop, if_pos (Int.ofNat_lt.mpr hlen)]
      simp only [hmin, Int.toNat_natCast]
      have hle : min sizeofBuf (len - rrel) ≤ len - rrel := Nat.min_le_right _ _
      generalize min sizeofBuf (len - rrel) = k at hpos hle
      rw [hdev.read mem start k (by omega)]
      dsimp only
      rw [if_neg (Int.not_lt.mpr (Int.natCast_nonneg _)), ← Nat.cast_add,
        ih (len - (rrel + k)) (by omega) (by omega) (by omega) rfl, List.append_assoc, ← slice_add]
      congr 3
      omega
    · have hzero : n = 0 := by omega
      rw [read_loop, if_neg (by omega), hzero, slice_zero, List.append_nil]

end Loops

/-! ### Writing and reading back -/

section Inverse

variable {dev : Calls} {file : Bytes} {mf : Int} {start len : Nat} {mem : Flash}

/-- What is written is of the first `len` bytes of the file, and these can be read back. -/
structure Inverse (dev : Calls) (mf : Int) (file : Bytes) (start len : Nat) (mem : Flash) : Prop where
  given : (do_mtd_write dev mf (some file) start len mem).given <+: file.take len
  back : do_mtd_read dev mf true start (min len file.length : Nat)
    (do_mtd_write dev mf (some file) start len mem).flash = (0, file.take len)

/-- A length is rounded up to whole blocks, unless it is one already. -/
theorem round_up {b : Nat} (hb : 0 < b) (n : Nat) :
    n ≤ b * ((n + (b - 1)) / b) ∧ (b * ((n + (b - 1)) / b) = n ↔ b ∣ n) := by
  have hdiv := Nat.div_add_mod (n + (b - 1)) b
  have hmod := Nat.mod_lt (n + (b - 1)) hb
  refine ⟨by omega, fun h => ⟨_, h.symm⟩, ?_⟩
  rintro ⟨k, rfl⟩
  rw [Nat.mul_comm b k, Nat.add_comm, Nat.add_mul_div_right _ _ hb, Nat.div_eq_of_lt (by omega),
    Nat.zero_add, Nat.mul_comm]

/-- What is given to the partition ends with the block in which the length ends. -/
theorem given_prefix_iff (file : Bytes) (len : Nat) :
    file.take (sizeofBuf * blocks len file.length) <+: file.take len
      ↔ file.length ≤ len ∨ sizeofBuf ∣ len := by
  have hb : 0 < sizeofBuf := by
    rw [sizeofBuf_eq]
    decide
  unfold blocks
  generalize sizeofBuf = b at hb ⊢
  obtain ⟨hle, hiff⟩ := round_up hb (min len file.length)
  rw [List.prefix_take_iff, List.length_take]
  rcases Nat.le_total file.length len with h | h
  · exact iff_of_true ⟨List.take_prefix _ _, by omega⟩ (Or.inl h)
  · rw [Nat.min_eq_left h] at hle hiff ⊢
    constructor
    · rintro ⟨-, hround⟩
      by_cases hall : file.length ≤ len
      · exact Or.inl hall
      · exact Or.inr (hiff.mp (by omega))
    · rintro (hall | hdvd)
      · exact ⟨List.take_prefix _ _, by omega⟩
      · exact ⟨List.take_prefix _ _, by rw [hiff.mpr hdvd]; omega⟩

/-- **What is written reads back**, up to the length or the end of the file. -/
theorem slice_written (file : Bytes) {len : Nat} {mem : Flash}
    (h : slice mem start (file.take (sizeofBuf * blocks len file.length)).length
      = file.take (sizeofBuf * blocks len file.length)) :
    slice mem start (min len file.length) = file.take len := by
  have hb : 0 < sizeofBuf := by
    rw [sizeofBuf_eq]
    decide
  unfold blocks at h
  generalize sizeofBuf = b at hb h
  have hle := (round_up hb (min len file.length)).1
  generalize b * ((min len file.length + (b - 1)) / b) = k at h hle
  have hcut := congrArg (List.take (min len file.length)) h
  rw [take_slice _ _ (by rw [List.length_take]; omega), List.take_take, Nat.min_eq_left hle] at hcut
  rw [hcut, ← List.take_take, List.take_length]

/-- The two programs, one after the other. -/
theorem written_and_read (hdev : Transfers dev) (hmf : 0 ≤ mf) (hfile : file ≠ []) (hlen : 0 < len)
    (mem : Flash) (hend : start + sizeofBuf * blocks len file.length < 2 ^ 31) :
    (do_mtd_write dev mf (some file) start len mem).given
        = file.take (sizeofBuf * blocks len file.length) ∧
      do_mtd_read dev mf true start (min len file.length : Nat)
        (do_mtd_write dev mf (some file) start len mem).flash = (0, file.take len) := by
  obtain ⟨mem', hwrite, -, hslice⟩ := write_loop_spec hdev file [] mem (Nat.zero_le start) hend
  rw [List.nil_append, Nat.sub_zero] at hwrite
  rw [Nat.sub_zero] at hslice
  have hmf' : ¬ mf < 0 := Int.not_lt.mpr hmf
  have hstart : ¬ (start : Int) < 0 := Int.not_lt.mpr (Int.natCast_nonneg start)
  have hpos := List.length_pos_iff.mpr hfile
  have hwritten : do_mtd_write dev mf (some file) start len mem
      = ⟨0, mem', file.take (sizeofBuf * blocks len file.length)⟩ := by
    rw [do_mtd_write, if_neg hmf', if_neg (by omega), if_neg hstart]
    exact hwrite
  have hlt : start + (min len file.length - 0) < 2 ^ 31 := by
    have hb : 0 < sizeofBuf := by
      rw [sizeofBuf_eq]
      decide
    exact Nat.lt_of_le_of_lt (Nat.add_le_add_left (round_up hb (min len file.length)).1 start) hend
  rw [hwritten]
  refine ⟨rfl, ?_⟩
  rw [do_mtd_read, if_neg hmf', if_neg (by decide), if_neg (by omega), if_neg hstart,
    ← slice_written file hslice]
  exact read_loop_spec hdev (Nat.zero_le _) hlt

end Inverse

/-- **Writing, and reading back.**  The two are inverse exactly when the length does not end
inside a block of a longer file. -/
theorem do_mtd_inverse_iff (dev : Calls) (hdev : Transfers dev) (mf : Int) (hmf : 0 ≤ mf)
    (file : Bytes) (hfile : file ≠ []) (start len : Nat) (hlen : 0 < len) (mem : Flash)
    (hend : start + sizeofBuf * blocks len file.length < 2 ^ 31) :
    Inverse dev mf file start len mem ↔ file.length ≤ len ∨ sizeofBuf ∣ len := by
  obtain ⟨hgiven, hback⟩ := written_and_read hdev hmf hfile hlen mem hend
  rw [← given_prefix_iff, ← hgiven]
  exact ⟨fun h => h.given, fun h => ⟨h, hback⟩⟩

/-- A partition that does what it is asked to. -/
def plain : Calls where
  part_write m start buf := (put m start.toNat buf, start + buf.length)
  part_read m start n := (slice m start.toNat n, start + n)

theorem transfers_plain : Transfers plain := by
  constructor
  · intro m start buf _
    exact Prod.ext rfl (Nat.cast_add _ _).symm
  · intro m start n _
    exact Prod.ext rfl (Nat.cast_add _ _).symm

/-- The first two blocks of a file of 5000 bytes, into a partition that begins with something
else. -/
theorem do_mtd_inverse_two_blocks :
    Inverse plain 3 (List.replicate 5000 7) 100 4096 (fun _ => 0xFF) := by
  have hlen : (List.replicate 5000 (7 : UInt8)).length = 5000 := List.length_replicate
  refine (do_mtd_inverse_iff plain transfers_plain 3 (by decide) _ ?_ 100 4096 (by decide) _ ?_).mpr
    (Or.inr (by decide))
  · exact List.ne_nil_of_length_pos (by rw [hlen]; decide)
  · rw [hlen]
    decide

/-- One byte of a file of two is asked for, and both are written. -/
theorem do_mtd_write_too_much :
    ¬ ∀ (dev : Calls), Transfers dev → ∀ (mf : Int), 0 ≤ mf → ∀ (file : Bytes), file ≠ [] →
      ∀ (start len : Nat), 0 < len → ∀ mem : Flash,
        start + sizeofBuf * blocks len file.length < 2 ^ 31 → Inverse dev mf file start len mem := by
  intro hall
  have hinv := hall plain transfers_plain 3 (by decide) [7, 8] (by decide) 0 1 (by decide)
    (fun _ => 0xFF) (by decide)
  have hgiven := hinv.given
  rw [(written_and_read transfers_plain (by decide) (by decide) (by decide) _ (by decide)).1] at hgiven
  have hlen := hgiven.length_le
  rw [List.length_take, List.length_take] at hlen
  exact absurd hlen (by decide)

end Boxing.Mtd
