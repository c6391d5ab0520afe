import Boxing.Serial.Reassembly

/-!
# Two ways to strip the zeros of a field

The first server drops the leading zeros of a field with `strcpy(id, id+i)`.  The
one in `systools/` bounds the copy by `sizeof(id+i)`, which is the size of a
pointer: with eight bytes the bound is behind every field, with four the copy
keeps three characters.  Length and data have no more than that.  The id and the
checksum have four, and where the first of them is not a zero the last one is
lost: the id 1000 is summed as 100, and the checksum 1000 is read as 100.

`crc_para_same_iff` says for which frames the two servers answer alike.
-/

namespace Boxing.Serial

open C

/-! ### The fields of a frame -/

/-- The id. -/
def Frame.id (f : Frame) : Bytes := f.digits.take 4

/-- The length. -/
def Frame.datalength (f : Frame) : Bytes := (f.digits.drop 4).take 2

/-- The data. -/
def Frame.data (f : Frame) : Bytes := (f.digits.drop 6).take 3

/-- The checksum. -/
def Frame.crc (f : Frame) : Bytes := f.digits.drop 9

/-- The character codes of a text, summed. -/
def codes (s : Bytes) : Nat := (s.map UInt8.toNat).sum

/-- The sum over the message of a frame: its id, length and data, each without its
leading zeros. -/
def Frame.sum (f : Frame) : Nat :=
  codes (dropZeros f.id) + codes (dropZeros f.datalength) + codes (dropZeros f.data)

namespace Frame

variable (f : Frame)

theorem length_id : f.id.length = 4 := by simp [Frame.id, f.length_digits]

theorem length_datalength : f.datalength.length = 2 := by simp [datalength, f.length_digits]

theorem length_data : f.data.length = 3 := by simp [Frame.data, f.length_digits]

theorem length_crc : f.crc.length = 4 := by simp [crc, f.length_digits]

theorem isDigit_id : ∀ c ∈ f.id, isDigit c = true :=
  fun c hc => f.isDigit_digits c (List.mem_of_mem_take hc)

theorem isDigit_datalength : ∀ c ∈ f.datalength, isDigit c = true :=
  fun c hc => f.isDigit_digits c (List.mem_of_mem_drop (List.mem_of_mem_take hc))

theorem isDigit_data : ∀ c ∈ f.data, isDigit c = true :=
  fun c hc => f.isDigit_digits c (List.mem_of_mem_drop (List.mem_of_mem_take hc))

theorem isDigit_crc : ∀ c ∈ f.crc, isDigit c = true :=
  fun c hc => f.isDigit_digits c (List.mem_of_mem_drop hc)

/-- The thirteen digits are the four fields. -/
theorem digits_eq : f.digits = f.id ++ f.datalength ++ f.data ++ f.crc := by
  have h9 : f.data ++ f.crc = f.digits.drop 6 := by
    rw [Frame.data, crc, show f.digits.drop 9 = (f.digits.drop 6).drop 3 by rw [List.drop_drop],
      List.take_append_drop]
  have h6 : f.datalength ++ f.digits.drop 6 = f.digits.drop 4 := by
    rw [datalength, show f.digits.drop 6 = (f.digits.drop 4).drop 2 by rw [List.drop_drop],
      List.take_append_drop]
  rw [List.append_assoc, List.append_assoc, h9, h6, Frame.id, List.take_append_drop]

/-- What the server cuts out of a frame is its fields. -/
theorem field_bytes : field f.bytes 1 4 = f.id ∧ field f.bytes 5 2 = f.datalength ∧
    field f.bytes 7 3 = f.data ∧ field f.bytes 10 4 = f.crc := by
  have hS : asc "S" = [chS] := by decide
  have hD : asc "D" = [chD] := by decide
  have hbytes : f.bytes = asc "S" ++ f.id ++ f.datalength ++ f.data ++ f.crc ++ asc "D" := by
    rw [Frame.bytes, f.digits_eq, hS, hD]
    simp only [List.append_assoc, List.cons_append, List.nil_append]
  rw [hbytes]
  exact fields_append f.length_id f.length_datalength f.length_data f.length_crc f.isDigit_id
    f.isDigit_datalength f.isDigit_data f.isDigit_crc

end Frame

/-! ### The servers on a frame -/

theorem codes_append (s t : Bytes) : codes (s ++ t) = codes s + codes t := by
  rw [codes, List.map_append, List.sum_append, codes, codes]

theorem dropZeros_suffix (s : Bytes) : dropZeros s <:+ s := List.dropWhile_suffix _

theorem isDigit_of_copy {copy : Bytes → Bytes} (hcopy : ∀ s, copy s <+: s) {s : Bytes}
    (h : ∀ c ∈ s, isDigit c = true) : ∀ c ∈ copy (dropZeros s), isDigit c = true :=
  fun c hc => h c ((dropZeros_suffix s).subset ((hcopy _).subset hc))

theorem length_copy_le {copy : Bytes → Bytes} (hcopy : ∀ s, copy s <+: s) (s : Bytes) :
    (copy (dropZeros s)).length ≤ s.length :=
  (hcopy _).length_le.trans (dropZeros_suffix s).length_le

/-- What a server accepts whose copy keeps the beginning of a text. -/
theorem crc_para_by_bytes (abi : Abi) {copy : Bytes → Bytes} (hcopy : ∀ s, copy s <+: s)
    (f : Frame) :
    crc_para_by abi copy f.bytes = 0 ↔
      abi.toChar (((codes (copy (dropZeros f.id)) + codes (copy (dropZeros f.datalength))
        + codes (copy (dropZeros f.data))) % 256 : Nat) : Int)
        = (digitsVal (copy (dropZeros f.crc)) : Int) := by
  obtain ⟨h1, h2, h3, h4⟩ := f.field_bytes
  have hdig : ∀ c ∈ copy (dropZeros f.id) ++ copy (dropZeros f.datalength)
      ++ copy (dropZeros f.data), isDigit c = true := by
    intro c hc
    rcases List.mem_append.mp hc with hc | hc
    · rcases List.mem_append.mp hc with hc | hc
      · exact isDigit_of_copy hcopy f.isDigit_id c hc
      · exact isDigit_of_copy hcopy f.isDigit_datalength c hc
    · exact isDigit_of_copy hcopy f.isDigit_data c hc
  have hlen : (copy (dropZeros f.id) ++ copy (dropZeros f.datalength)
      ++ copy (dropZeros f.data)).length ≤ 32 := by
    have hid := length_copy_le hcopy f.id
    have hdl := length_copy_le hcopy f.datalength
    have hda := length_copy_le hcopy f.data
    rw [f.length_id] at hid
    rw [f.length_datalength] at hdl
    rw [f.length_data] at hda
    simp only [List.length_append]
    omega
  have hcodes : crc_sum (copy (dropZeros f.id) ++ copy (dropZeros f.datalength)
      ++ copy (dropZeros f.data)) (copy (dropZeros f.id) ++ copy (dropZeros f.datalength)
      ++ copy (dropZeros f.data)).length
      = (codes (copy (dropZeros f.id)) + codes (copy (dropZeros f.datalength))
        + codes (copy (dropZeros f.data))) % 256 := by
    rw [crc_sum, List.take_length]
    exact congrArg (· % 256) (by rw [← codes, codes_append, codes_append])
  simp only [crc_para_by, h1, h2, h3, h4, crc_8_padded abi hdig hlen, hcodes,
    atoi_digits (isDigit_of_copy hcopy f.isDigit_crc), ite_eq_left_iff, one_ne_zero, imp_false,
    not_not]

/-- The first server on a frame. -/
theorem original_crc_para_bytes (abi : Abi) (f : Frame) :
    original_crc_para abi f.bytes = 0 ↔
      abi.toChar ((f.sum % 256 : Nat) : Int) = (digitsVal f.crc : Int) := by
  have hcrc : digitsVal (dropZeros f.crc) = digitsVal f.crc := digitsVal_dropWhile_zero f.crc
  rw [original_crc_para, crc_para_by_bytes abi (fun s => List.prefix_refl s), hcrc, Frame.sum]

/-! ### Three characters of a field -/

theorem exists_digits {s : Bytes} (hlen : s.length = 4) (h : ∀ c ∈ s, isDigit c = true) :
    ∃ a b c d : UInt8, s = [a, b, c, d] ∧ (48 ≤ a.toNat ∧ a.toNat ≤ 57) ∧
      (48 ≤ b.toNat ∧ b.toNat ≤ 57) ∧ (48 ≤ c.toNat ∧ c.toNat ≤ 57) ∧
      (48 ≤ d.toNat ∧ d.toNat ≤ 57) := by
  match s, hlen with
  | [a, b, c, d], _ =>
    exact ⟨a, b, c, d, rfl, isDigit_iff.mp (h a (by simp)), isDigit_iff.mp (h b (by simp)),
      isDigit_iff.mp (h c (by simp)), isDigit_iff.mp (h d (by simp))⟩

/-- Four digits keep three characters: below 1000 that is all there is, and from
1000 on the last digit is lost, from the sum as from the number. -/
theorem take_dropZeros {s : Bytes} (hlen : s.length = 4) (h : ∀ c ∈ s, isDigit c = true) :
    (digitsVal s < 1000 ∧ (dropZeros s).take 3 = dropZeros s) ∨
      (1000 ≤ digitsVal s ∧ digitsVal ((dropZeros s).take 3) = digitsVal s / 10 ∧
        codes (dropZeros s) = codes ((dropZeros s).take 3) + (48 + digitsVal s % 10)) := by
  obtain ⟨a, b, c, d, rfl, ha, hb, hc, hd⟩ := exists_digits hlen h
  have hval : digitsVal [a, b, c, d]
      = 1000 * (a.toNat - 48) + 100 * (b.toNat - 48) + 10 * (c.toNat - 48) + (d.toNat - 48) := by
    simp only [digitsVal, List.foldl_cons, List.foldl_nil]
    omega
  by_cases h0 : a = 48
  · left
    have ha0 : a.toNat = 48 := by rw [h0]; rfl
    have hdrop : dropZeros [a, b, c, d] = dropZeros [b, c, d] := by
      rw [dropZeros, List.dropWhile_cons_of_pos (by simp [h0]), dropZeros]
    refine ⟨by omega, List.take_of_length_le ?_⟩
    rw [hdrop]
    exact (dropZeros_suffix [b, c, d]).length_le
  · right
    have ha0 : a.toNat ≠ 48 := fun he => h0 (UInt8.toNat_inj.mp he)
    have hdrop : dropZeros [a, b, c, d] = [a, b, c, d] := by
      rw [dropZeros, List.dropWhile_cons_of_neg (by simp [h0])]
    rw [hdrop]
    refine ⟨by omega, ?_, ?_⟩
    · rw [hval]
      simp only [List.take_succ_cons, List.take_zero, digitsVal, List.foldl_cons, List.foldl_nil]
      omega
    · rw [hval]
      simp only [List.take_succ_cons, List.take_zero, codes, List.map_cons, List.map_nil,
        List.sum_cons, List.sum_nil]
      omega

/-- Fields of two and three characters lose nothing. -/
theorem take_dropZeros_short {s : Bytes} (h : s.length ≤ 3) :
    (dropZeros s).take 3 = dropZeros s :=
  List.take_of_length_le ((dropZeros_suffix s).length_le.trans h)

/-- The sum that is left of a frame in three characters a field. -/
def Frame.cutSum (f : Frame) : Nat :=
  if digitsVal f.id < 1000 then f.sum else f.sum - (48 + digitsVal f.id % 10)

/-- The checksum that is left. -/
def Frame.cutCrc (f : Frame) : Nat :=
  if digitsVal f.crc < 1000 then digitsVal f.crc else digitsVal f.crc / 10

/-- The server in `systools/` with four-byte pointers. -/
theorem crc_para_narrow (abi : Abi) (hw : abi.wide = false) (f : Frame) :
    crc_para abi f.bytes = 0 ↔
      abi.toChar ((f.cutSum % 256 : Nat) : Int) = (f.cutCrc : Int) := by
  have hsize : abi.ptrSize - 1 = 3 := by rw [Abi.ptrSize, hw]; rfl
  have hsum : codes ((dropZeros f.id).take 3) + codes ((dropZeros f.datalength).take 3)
      + codes ((dropZeros f.data).take 3) = f.cutSum := by
    rw [take_dropZeros_short (s := f.datalength) (by rw [f.length_datalength]; decide),
      take_dropZeros_short (s := f.data) (by rw [f.length_data]), Frame.cutSum]
    rcases take_dropZeros f.length_id f.isDigit_id with ⟨hlt, he⟩ | ⟨hge, -, he⟩
    · rw [if_pos hlt, he, Frame.sum]
    · rw [if_neg (by omega), Frame.sum, he]
      omega
  have hcrc : digitsVal ((dropZeros f.crc).take 3) = f.cutCrc := by
    rw [Frame.cutCrc]
    rcases take_dropZeros f.length_crc f.isDigit_crc with ⟨hlt, he⟩ | ⟨hge, he, -⟩
    · rw [if_pos hlt, he, dropZeros, digitsVal_dropWhile_zero]
    · rw [if_neg (by omega), he]
  rw [crc_para, crc_para_by_bytes abi (fun s => List.take_prefix _ s), hsize, hsum, hcrc]

/-- With eight-byte pointers it does what the first server does. -/
theorem crc_para_wide (abi : Abi) (hw : abi.wide = true) (f : Frame) :
    crc_para abi f.bytes = 0 ↔ original_crc_para abi f.bytes = 0 := by
  have hsize : abi.ptrSize - 1 = 7 := by rw [Abi.ptrSize, hw]; rfl
  have hkeep : ∀ {s : Bytes}, s.length ≤ 7 → (dropZeros s).take 7 = dropZeros s :=
    fun h => List.take_of_length_le ((dropZeros_suffix _).length_le.trans h)
  rw [crc_para, original_crc_para, crc_para_by_bytes abi (fun s => List.take_prefix _ s),
    crc_para_by_bytes abi (fun s => List.prefix_refl s), hsize,
    hkeep (s := f.id) (by rw [f.length_id]; decide),
    hkeep (s := f.datalength) (by rw [f.length_datalength]; decide),
    hkeep (s := f.data) (by rw [f.length_data]; decide),
    hkeep (s := f.crc) (by rw [f.length_crc]; decide)]

/-! ### Where the two part -/

/-- `char` tells the numbers below 256 apart. -/
theorem toChar_inj (abi : Abi) {x y : Nat} (hx : x < 256) (hy : y < 256)
    (h : abi.toChar (x : Int) = abi.toChar (y : Int)) : x = y := by
  have hchar : ∀ {z : Nat}, z < 256 →
      abi.toChar (z : Int) = z ∨ (128 ≤ z ∧ abi.toChar (z : Int) = z - 256) := by
    intro z hz
    by_cases hlow : z < 128
    · exact Or.inl (Abi.toChar_low abi (by omega) (by omega))
    · rw [Abi.toChar_high abi (by omega) (by omega)]
      split
      · exact Or.inr ⟨by omega, rfl⟩
      · exact Or.inl rfl
  rcases hchar hx with h₁ | ⟨-, h₁⟩
  · rcases hchar hy with h₂ | ⟨-, h₂⟩
    · omega
    · omega
  · rcases hchar hy with h₂ | ⟨-, h₂⟩
    · omega
    · omega

theorem toChar_lt (abi : Abi) {x : Nat} (hx : x < 256) : abi.toChar (x : Int) < 256 := by
  by_cases hlow : x < 128
  · rw [Abi.toChar_low abi (by omega) (by omega)]
    omega
  · rw [Abi.toChar_high abi (by omega) (by omega)]
    split
    · omega
    · omega

/-- The sum of a frame with an id from 1000 on covers its last digit. -/
theorem Frame.le_sum (f : Frame) (h : 1000 ≤ digitsVal f.id) :
    48 + digitsVal f.id % 10 ≤ f.sum := by
  rcases take_dropZeros f.length_id f.isDigit_id with ⟨hlt, -⟩ | ⟨-, -, he⟩
  · omega
  · rw [Frame.sum, he]
    omega

/-- From an id or a checksum of 1000 on, no frame is accepted by both. -/
theorem not_both {abi : Abi} {f : Frame} (h : 1000 ≤ digitsVal f.id ∨ 1000 ≤ digitsVal f.crc)
    (hold : abi.toChar ((f.sum % 256 : Nat) : Int) = (digitsVal f.crc : Int)) :
    abi.toChar ((f.cutSum % 256 : Nat) : Int) ≠ (f.cutCrc : Int) := by
  intro hnew
  have hlt := toChar_lt abi (x := f.sum % 256) (Nat.mod_lt _ (by decide))
  have hcrc : digitsVal f.crc < 1000 := by omega
  have hid : 1000 ≤ digitsVal f.id := by omega
  rw [Frame.cutCrc, if_pos hcrc, ← hold, Frame.cutSum, if_neg (by omega)] at hnew
  have hle := f.le_sum hid
  have := toChar_inj abi (Nat.mod_lt _ (by decide)) (Nat.mod_lt _ (by decide)) hnew
  omega

/-- **Where the two servers answer alike**: with eight-byte pointers on every frame;
with four-byte pointers where id and checksum are below 1000, and otherwise where
the checksum fits neither the whole frame nor what three characters leave of it. -/
theorem crc_para_same_iff (abi : Abi) (f : Frame) :
    (crc_para abi f.bytes = 0 ↔ original_crc_para abi f.bytes = 0) ↔
      abi.wide = true ∨ (digitsVal f.id < 1000 ∧ digitsVal f.crc < 1000) ∨
        (abi.toChar ((f.sum % 256 : Nat) : Int) ≠ (digitsVal f.crc : Int) ∧
          abi.toChar ((f.cutSum % 256 : Nat) : Int) ≠ (f.cutCrc : Int)) := by
  cases hw : abi.wide with
  | true => exact ⟨fun _ => Or.inl rfl, fun _ => crc_para_wide abi hw f⟩
  | false =>
    rw [crc_para_narrow abi hw, original_crc_para_bytes]
    by_cases hsmall : digitsVal f.id < 1000 ∧ digitsVal f.crc < 1000
    · rw [Frame.cutSum, if_pos hsmall.1, Frame.cutCrc, if_pos hsmall.2]
      exact ⟨fun _ => Or.inr (Or.inl hsmall), fun _ => Iff.rfl⟩
    · have hlarge : 1000 ≤ digitsVal f.id ∨ 1000 ≤ digitsVal f.crc := by omega
      constructor
      · intro h
        have hold : abi.toChar ((f.sum % 256 : Nat) : Int) ≠ (digitsVal f.crc : Int) :=
          fun hold => not_both hlarge hold (h.mpr hold)
        exact Or.inr (Or.inr ⟨hold, fun hnew => hold (h.mp hnew)⟩)
      · rintro (h | h | ⟨hold, hnew⟩)
        · exact absurd h (by decide)
        · exact absurd h hsmall
        · exact ⟨fun h => absurd h hnew, fun h => absurd h hold⟩

/-- The frame `S1000050320091D`, which the client sends with the id 1000 and five
data bits. -/
def frame1000 : Frame := ⟨asc "1000050320091", by decide, List.all_eq_true.mp (by decide)⟩

/-- With four-byte pointers the rewritten server rejects it. -/
theorem crc_para_rejects_1000 :
    ¬ ∀ (abi : Abi) (f : Frame),
      crc_para abi f.bytes = 0 ↔ original_crc_para abi f.bytes = 0 := by
  intro h
  have hold : original_crc_para ⟨true, false⟩ frame1000.bytes = 0 := by decide
  exact absurd ((h ⟨true, false⟩ frame1000).mpr hold) (by decide)

end Boxing.Serial
