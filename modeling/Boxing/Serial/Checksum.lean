import Mathlib.Data.Nat.Digits.Lemmas
import Boxing.C.Num

/-!
# The checksum of a serial test frame

A frame of the serial tester is `S`, four digits of id, two of length, three of
data, four of checksum, `D`.  `serialclient.py` sums the character codes of the
unpadded id, length and data modulo 256 and pads the fields when it sends;
`stestserver.c` cuts the fields out again, drops their leading zeros and compares
its own sum with the checksum field.

There are two servers.  The first strips a field with `strcpy(id, id+i)`; the one
in `systools/` with `strlcpy(id, id+i, sizeof(id+i))`, and `sizeof` of a pointer
is 4 or 8, so it keeps three characters or seven.  `crc_para_by` is what they
share, with the copy as its parameter.

The sum goes through a plain `char`: `crc_8` returns `char`, and `(int)crc_ret`
is negative from 128 on where `char` is signed, while `atoi` of a digit string is
not.  `original_crc_para` says so: it is the client's checksum taken through `char` that
the server accepts.  `crc_para_agrees_iff` draws the line between the two.
-/

namespace Boxing.Serial

open C

/-- `n` bytes of `data` from `off` on, copied and closed with a NUL. -/
def field (data : Bytes) (off n : Nat) : Bytes :=
  str ((List.range n).map fun i => data.getD (off + i) 0)

/-- The field from its first character that is not `'0'`. -/
def dropZeros (s : Bytes) : Bytes := s.dropWhile (· = 48)

/-- `crc_8`: the sum of the characters, cut to a byte and returned as a `char`. -/
def crc_8 (abi : Abi) (_crc : Int) (message : Bytes) (len : Nat) : Int :=
  abi.toChar (((message.take len).map abi.ofChar).sum % 256)

/-- `crc_para` with the copy that strips the zeros as a parameter. -/
def crc_para_by (abi : Abi) (copy : Bytes → Bytes) (data : Bytes) : Int :=
  let id := copy (dropZeros (field data 1 4))
  let length := copy (dropZeros (field data 5 2))
  let sdata := copy (dropZeros (field data 7 3))
  let crc_sum := copy (dropZeros (field data 10 4))
  let crc_message := padded 32 (id ++ length ++ sdata)
  let crc_ret := crc_8 abi 0 crc_message 32
  if crc_ret = atoi crc_sum then 0 else 1

/-- `crc_para` of the first server: `strcpy(id, id+i)`. -/
def original_crc_para (abi : Abi) : Bytes → Int := crc_para_by abi fun s => s

/-- `crc_para` of the server in `systools/`: `strlcpy(id, id+i, sizeof(id+i))`. -/
def crc_para (abi : Abi) : Bytes → Int := crc_para_by abi (·.take (abi.ptrSize - 1))

/-! ### The client -/

/-- Python's `str(n)`. -/
def dec (n : Nat) : Bytes :=
  if n = 0 then [48] else ((Nat.digits 10 n).map fun d => UInt8.ofNat (48 + d)).reverse

/-- Python's `s.zfill(w)` on a string of digits. -/
def zfill (w : Nat) (s : Bytes) : Bytes := List.replicate (w - s.length) 48 ++ s

/-- `crc_sum` of `serialclient.py`. -/
def crc_sum (data : Bytes) (data_len : Nat) : Nat :=
  ((data.take data_len).map UInt8.toNat).sum % 256

/-- `str(id) + str(datalength) + str(data)`, what the client sums. -/
def crc_data (id datalength data : Nat) : Bytes := dec id ++ dec datalength ++ dec data

/-- The character codes of the three decimal strings, summed. -/
def codeSum (id datalength data : Nat) : Nat :=
  ((dec id).map UInt8.toNat).sum + ((dec datalength).map UInt8.toNat).sum
    + ((dec data).map UInt8.toNat).sum

theorem crc_sum_crc_data (id datalength data : Nat) :
    crc_sum (crc_data id datalength data) (crc_data id datalength data).length
      = codeSum id datalength data % 256 := by
  rw [crc_sum, List.take_length, crc_data, List.map_append, List.map_append, List.sum_append,
    List.sum_append, codeSum]

/-- A frame with the checksum field `c`. -/
def frameOf (id datalength data : Nat) (c : Bytes) : Bytes :=
  asc "S" ++ zfill 4 (dec id) ++ zfill 2 (dec datalength) ++ zfill 3 (dec data) ++ c ++ asc "D"

/-! ### Decimal strings -/

theorem dec_of_pos {n : Nat} (h : 0 < n) :
    dec n = ((Nat.digits 10 n).map fun d => UInt8.ofNat (48 + d)).reverse := if_neg (by omega)

theorem toNat_digit {d : Nat} (h : d < 10) : (UInt8.ofNat (48 + d)).toNat = 48 + d := by
  rw [UInt8.toNat_ofNat']
  omega

theorem isDigit_of_mem_dec {n : Nat} {c : UInt8} (h : c ∈ dec n) : isDigit c = true := by
  rw [isDigit_iff]
  by_cases hn : n = 0
  · rw [dec, if_pos hn] at h
    obtain rfl := List.mem_singleton.mp h
    decide
  · rw [dec, if_neg hn, List.mem_reverse, List.mem_map] at h
    obtain ⟨d, hd, rfl⟩ := h
    have := Nat.digits_lt_base (by decide : 1 < 10) hd
    rw [toNat_digit this]
    omega

/-- A positive number is written without a leading zero. -/
theorem dropZeros_dec {n : Nat} (h : 0 < n) : dropZeros (dec n) = dec n := by
  have hne : Nat.digits 10 n ≠ [] := Nat.digits_ne_nil_iff_ne_zero.mpr (by omega)
  have hlast : (Nat.digits 10 n).getLast hne ≠ 0 := Nat.getLast_digit_ne_zero 10 (by omega)
  have hlt : (Nat.digits 10 n).getLast hne < 10 :=
    Nat.digits_lt_base (by decide) (List.getLast_mem hne)
  have hsplit := List.dropLast_append_getLast hne
  rw [dec_of_pos h, ← hsplit, List.map_append, List.map_singleton, List.reverse_append,
    List.reverse_singleton, List.singleton_append, dropZeros, List.dropWhile_cons_of_neg]
  simp only [decide_eq_true_eq]
  intro hc
  have := congrArg UInt8.toNat hc
  rw [toNat_digit hlt] at this
  exact hlast (by have h48 : (48 : UInt8).toNat = 48 := rfl
                  omega)

theorem length_dec_le {n w : Nat} (hw : 0 < w) (h : n < 10 ^ w) : (dec n).length ≤ w := by
  by_cases hn : n = 0
  · rw [dec, if_pos hn]
    exact hw
  · rw [dec, if_neg hn, List.length_reverse, List.length_map]
    exact (Nat.digits_length_le_iff (by decide) n).mpr h

theorem length_zfill {w : Nat} {s : Bytes} (h : s.length ≤ w) : (zfill w s).length = w := by
  rw [zfill, List.length_append, List.length_replicate]
  omega

theorem isDigit_of_mem_zfill {w : Nat} {s : Bytes} (h : ∀ c ∈ s, isDigit c = true) :
    ∀ c ∈ zfill w s, isDigit c = true := by
  intro c hc
  rcases List.mem_append.mp hc with hc | hc
  · rw [List.eq_of_mem_replicate hc]
    rfl
  · exact h c hc

theorem dropZeros_zfill (w : Nat) (s : Bytes) : dropZeros (zfill w s) = dropZeros s := by
  rw [zfill]
  generalize w - s.length = k
  induction k with
  | zero => rfl
  | succ k ih =>
    rw [List.replicate_succ, List.cons_append, dropZeros, List.dropWhile_cons_of_pos (by simp)]
    exact ih

theorem not_mem_of_digits {s : Bytes} (h : ∀ c ∈ s, isDigit c = true) : 0 ∉ s :=
  fun h0 => absurd (h 0 h0) (by decide)

/-! ### Cutting a frame up -/

/-- A field of digits is what stands in the frame at its place. -/
theorem field_append {a s b : Bytes} (h : ∀ c ∈ s, isDigit c = true) :
    field (a ++ s ++ b) a.length s.length = s := by
  have hmap : ((List.range s.length).map fun i => (a ++ s ++ b).getD (a.length + i) 0) = s := by
    apply List.ext_getElem (by simp)
    intro i h₁ h₂
    rw [List.getElem_map, List.getElem_range, List.getD_eq_getElem?_getD, List.append_assoc,
      List.getElem?_append_right (by omega), Nat.add_sub_cancel_left,
      List.getElem?_append_left h₂, List.getElem?_eq_getElem h₂]
    rfl
  rw [field, hmap, str_of_not_mem s (not_mem_of_digits h)]

/-- The four fields of a frame, each of the length the server expects. -/
theorem fields_append {p q r c : Bytes} (hp : p.length = 4) (hq : q.length = 2)
    (hr : r.length = 3) (hc : c.length = 4) (dp : ∀ x ∈ p, isDigit x = true)
    (dq : ∀ x ∈ q, isDigit x = true) (dr : ∀ x ∈ r, isDigit x = true)
    (dc : ∀ x ∈ c, isDigit x = true) :
    let data := asc "S" ++ p ++ q ++ r ++ c ++ asc "D"
    field data 1 4 = p ∧ field data 5 2 = q ∧ field data 7 3 = r ∧ field data 10 4 = c := by
  have hS : (asc "S").length = 1 := by decide
  intro data
  refine ⟨?_, ?_, ?_, ?_⟩
  · have := field_append (a := asc "S") (b := q ++ r ++ c ++ asc "D") dp
    rw [hS, hp] at this
    simpa [data, List.append_assoc] using this
  · have := field_append (a := asc "S" ++ p) (b := r ++ c ++ asc "D") dq
    rw [List.length_append, hS, hp, hq] at this
    simpa [data, List.append_assoc] using this
  · have := field_append (a := asc "S" ++ p ++ q) (b := c ++ asc "D") dr
    rw [List.length_append, List.length_append, hS, hp, hq, hr] at this
    simpa [data, List.append_assoc] using this
  · have := field_append (a := asc "S" ++ p ++ q ++ r) (b := asc "D") dc
    rw [List.length_append, List.length_append, List.length_append, hS, hp, hq, hr, hc] at this
    simpa [data, List.append_assoc] using this

/-! ### The sum -/

theorem sum_ofChar (abi : Abi) {s : Bytes} (h : ∀ c ∈ s, isDigit c = true) :
    (s.map abi.ofChar).sum = ((s.map UInt8.toNat).sum : Nat) := by
  induction s with
  | nil => rfl
  | cons c s ih =>
    have hc := isDigit_iff.mp (h c (by simp))
    rw [List.map_cons, List.sum_cons, ih fun x hx => h x (List.mem_cons_of_mem c hx),
      Abi.ofChar_ascii abi (by omega), List.map_cons, List.sum_cons]
    push_cast
    rfl

theorem sum_ofChar_replicate (abi : Abi) (n : Nat) :
    ((List.replicate n (0 : UInt8)).map abi.ofChar).sum = 0 := by
  have h0 : abi.ofChar 0 = 0 := by rw [Abi.ofChar_ascii abi (by decide)]; rfl
  rw [List.map_replicate, h0, List.sum_replicate]
  simp

/-- The server's sum over its padded buffer is the client's, taken through `char`. -/
theorem crc_8_padded (abi : Abi) {s : Bytes} (h : ∀ c ∈ s, isDigit c = true)
    (hlen : s.length ≤ 32) :
    crc_8 abi 0 (padded 32 s) 32 = abi.toChar (crc_sum s s.length : Nat) := by
  have htake : (padded 32 s).take 32 = padded 32 s := by
    rw [List.take_of_length_le (by rw [length_padded hlen])]
  rw [crc_8, htake, padded, List.map_append, List.sum_append, sum_ofChar abi h,
    sum_ofChar_replicate, add_zero, crc_sum, List.take_length]
  push_cast
  rfl

theorem isDigit_of_mem_crc_data {id length data : Nat} {c : UInt8}
    (h : c ∈ crc_data id length data) : isDigit c = true := by
  rcases List.mem_append.mp h with h | h
  · rcases List.mem_append.mp h with h | h
    · exact isDigit_of_mem_dec h
    · exact isDigit_of_mem_dec h
  · exact isDigit_of_mem_dec h

/-! ### Client and server -/

theorem original_crc_para_eq_zero (abi : Abi) (data : Bytes) :
    original_crc_para abi data = 0 ↔
      crc_8 abi 0 (padded 32 (dropZeros (field data 1 4) ++ dropZeros (field data 5 2)
        ++ dropZeros (field data 7 3))) 32 = atoi (dropZeros (field data 10 4)) := by
  rw [original_crc_para, crc_para_by]
  simp only [ite_eq_left_iff, one_ne_zero, imp_false, not_not]

section Frame

variable {i length data : Nat} {c : Bytes}

/-- **What the first server accepts**: the client's checksum, taken through a `char`. -/
theorem original_crc_para_frameOf (abi : Abi) (hid : 1 ≤ i ∧ i ≤ 9999)
    (hlength : 1 ≤ length ∧ length ≤ 99) (hdata : 1 ≤ data ∧ data ≤ 999)
    (hc : c.length = 4) (dc : ∀ x ∈ c, isDigit x = true) :
    original_crc_para abi (frameOf i length data c) = 0 ↔
      abi.toChar (crc_sum (crc_data i length data) (crc_data i length data).length : Nat)
        = (digitsVal c : Int) := by
  have lid : (dec i).length ≤ 4 := length_dec_le (by decide) (by omega)
  have llen : (dec length).length ≤ 2 := length_dec_le (by decide) (by omega)
  have ldata : (dec data).length ≤ 3 := length_dec_le (by decide) (by omega)
  obtain ⟨h1, h2, h3, h4⟩ := fields_append (length_zfill lid) (length_zfill llen)
    (length_zfill ldata) hc (isDigit_of_mem_zfill fun _ => isDigit_of_mem_dec)
    (isDigit_of_mem_zfill fun _ => isDigit_of_mem_dec)
    (isDigit_of_mem_zfill fun _ => isDigit_of_mem_dec) dc
  have hmsg : (crc_data i length data).length ≤ 32 := by
    simp only [crc_data, List.length_append]
    omega
  have hatoi : atoi (dropZeros c) = digitsVal c := by
    rw [dropZeros, atoi_digits fun x hx => dc x ((List.dropWhile_sublist _).subset hx),
      digitsVal_dropWhile_zero]
  rw [frameOf, original_crc_para_eq_zero, h1, h2, h3, h4, dropZeros_zfill, dropZeros_zfill,
    dropZeros_zfill, dropZeros_dec hid.1, dropZeros_dec hlength.1, dropZeros_dec hdata.1, hatoi,
    show dec i ++ dec length ++ dec data = crc_data i length data from rfl,
    crc_8_padded abi (fun _ => isDigit_of_mem_crc_data) hmsg]

/-- **Where client and server agree.**  The server accepts exactly the client's
checksum when plain `char` is unsigned or the checksum is below 128; with a
signed `char` and a checksum from 128 on it accepts no field at all, so the two
part on the one field that carries the checksum. -/
theorem crc_para_agrees_iff (abi : Abi) (hid : 1 ≤ i ∧ i ≤ 9999)
    (hlength : 1 ≤ length ∧ length ≤ 99) (hdata : 1 ≤ data ∧ data ≤ 999)
    (hc : c.length = 4) (dc : ∀ x ∈ c, isDigit x = true) :
    (original_crc_para abi (frameOf i length data c) = 0 ↔
        digitsVal c = crc_sum (crc_data i length data) (crc_data i length data).length) ↔
      (abi.charSigned = false ∨ codeSum i length data % 256 < 128 ∨
        digitsVal c ≠ codeSum i length data % 256) := by
  rw [original_crc_para_frameOf abi hid hlength hdata hc dc, crc_sum_crc_data]
  have hlt : codeSum i length data % 256 < 256 := Nat.mod_lt _ (by decide)
  generalize codeSum i length data % 256 = sum at hlt ⊢
  by_cases hlow : sum < 128
  · rw [Abi.toChar_low abi (by omega) (by omega)]
    omega
  · rw [Abi.toChar_high abi (by omega) (by omega)]
    by_cases hs : abi.charSigned = true
    · rw [if_pos hs]
      constructor
      · intro h
        refine Or.inr (Or.inr fun he => ?_)
        have := h.mpr he
        omega
      · rintro (h | h | h)
        · exact absurd hs (by rw [h]; decide)
        · exact absurd h hlow
        · constructor <;> intro he <;> omega
    · rw [if_neg hs]
      have hf : abi.charSigned = false := by simpa using hs
      exact ⟨fun _ => Or.inl hf, fun _ => ⟨fun he => by omega, fun he => by omega⟩⟩

end Frame

theorem isDigit_0013 : ∀ x ∈ asc "0013", isDigit x = true := List.all_eq_true.mp (by decide)

theorem isDigit_0147 : ∀ x ∈ asc "0147", isDigit x = true := List.all_eq_true.mp (by decide)

/-- A frame with a checksum below 128: here the two agree on any machine. -/
theorem crc_para_agrees_8082560008 :
    (original_crc_para ⟨true, true⟩ (frameOf 8 8 256 (asc "0013")) = 0 ↔
        digitsVal (asc "0013") = crc_sum (crc_data 8 8 256) (crc_data 8 8 256).length) ↔
      (true = false ∨ codeSum 8 8 256 % 256 < 128 ∨
        digitsVal (asc "0013") ≠ codeSum 8 8 256 % 256) :=
  crc_para_agrees_iff ⟨true, true⟩ (by decide) (by decide) (by decide) (by decide) isDigit_0013

/-- Id 1, length 1, data 1 sum to 147.  Where `char` is signed the server rejects
the frame the client sends. -/
theorem original_crc_para_rejects_147 :
    ¬ ∀ (abi : Abi) (i length data : Nat) (c : Bytes), 1 ≤ i ∧ i ≤ 9999 →
      1 ≤ length ∧ length ≤ 99 → 1 ≤ data ∧ data ≤ 999 → c.length = 4 →
      (∀ x ∈ c, isDigit x = true) →
      (original_crc_para abi (frameOf i length data c) = 0 ↔
        digitsVal c = crc_sum (crc_data i length data) (crc_data i length data).length) := by
  intro h
  have hsum : digitsVal (asc "0147") = crc_sum (crc_data 1 1 1) (crc_data 1 1 1).length := by
    simp [crc_sum, crc_data, dec]
    decide
  have hacc := (h ⟨true, true⟩ 1 1 1 (asc "0147") (by decide) (by decide) (by decide)
    (by decide) isDigit_0147).mpr hsum
  rw [original_crc_para_frameOf ⟨true, true⟩ (by decide) (by decide) (by decide) (by decide)
    isDigit_0147, ← hsum] at hacc
  exact absurd hacc (by decide)

end Boxing.Serial
