import Mathlib.Logic.Function.Basic
import Boxing.Device.Prog
import Boxing.C.Num

/-!
# The MAC addresses in the WiFi calibration data

The ART partition of a VG9 holds a calibration area for each of its two radios.  An
area is 6032 half-words whose XOR is 0xffff, and one of them, the second, is there
to make it so.  `set_wifi_mac` writes the two MAC addresses into the areas, and
then reads each area again and writes the half-word it needs.

The addresses come as text, and `sscanf` is told `%02x` where the destination is a
`char`: each of the six conversions stores four bytes, so the last one also clears
the three bytes behind the array.  What is there is the compiler's choice, and a
`Layout` says it: it may be nothing that is needed, or the beginning of the other
array, or something that is still in use.  `set_wifi_mac_iff` says that the function
does its work, for every partition and whatever the checksums were before, exactly
when those three bytes do no harm.
-/

namespace Boxing.Intools

open C Device

/-! ### The calibration areas -/

/-- `WIFI0_DATA_START`. -/
def wifi0_data_start : Nat := 0x1000

/-- `WIFI1_DATA_START`. -/
def wifi1_data_start : Nat := 0x5000

/-- `MAC_ADDR_OFFSET`. -/
def mac_addr_offset : Nat := 6

/-- `CHECKSUM_OFFSET`. -/
def checksum_offset : Nat := 2

/-- `QC98XX_EEPROM_SIZE_LARGEST`. -/
def eeprom_size : Nat := 12064

/-- A half-word, low byte first. -/
def half (lo hi : UInt8) : UInt16 := UInt16.ofNat (lo.toNat + hi.toNat * 2 ^ 8)

/-- Its two bytes. -/
def le16 (x : UInt16) : Bytes := [UInt8.ofNat (x.toNat % 2 ^ 8), UInt8.ofNat (x.toNat / 2 ^ 8)]

/-- The half-words of a buffer. -/
def halves : Bytes → List UInt16
  | lo :: hi :: m => half lo hi :: halves m
  | _ => []

/-- `sum ^= le16_to_cpu(*p_half++)`, over an area. -/
def xor_halves (eeprom : Bytes) : UInt16 :=
  (halves (eeprom.take eeprom_size)).foldl (· ^^^ ·) 0

/-- `qc98xx_verify_checksum`. -/
def qc98xx_verify_checksum (eeprom : Bytes) : Int :=
  if xor_halves eeprom ≠ 0xffff then -1 else 0

/-- `qc98xx_calc_checksum`; it clears the checksum in its buffer first. -/
def qc98xx_calc_checksum (eeprom : Bytes) : UInt16 :=
  xor_halves ((eeprom.set 2 0).set 3 0) ^^^ 0xffff

/-! ### `sscanf` with `%02x` -/

/-- `isxdigit`. -/
def isHex (c : UInt8) : Bool := isDigit c || (65 ≤ c && c ≤ 70) || (97 ≤ c && c ≤ 102)

/-- What a hexadecimal digit stands for. -/
def digitVal (c : UInt8) : Nat :=
  if isDigit c then c.toNat - 48 else if c ≤ 70 then c.toNat - 55 else c.toNat - 87

/-- The number a run of hexadecimal digits stands for. -/
def hexVal (s : Bytes) : Nat := s.foldl (fun n c => 16 * n + digitVal c) 0

/-- The digits of a number of at most `w` characters, behind its sign. -/
def scan_digits (w : Nat) (s : Bytes) : Option (Nat × Bytes) :=
  if s.take (min w 2) = asc "0x" ∨ s.take (min w 2) = asc "0X" then
    let d := ((s.drop 2).take (w - 2)).takeWhile isHex
    some (hexVal d, s.drop (2 + d.length))
  else
    let d := (s.take w).takeWhile isHex
    if d = [] then none else some (hexVal d, s.drop d.length)

/-- `%x` with a width: blanks, a sign and digits, and what is left of the text. -/
def scan_x (w : Nat) (s : Bytes) : Option (Nat × Bytes) :=
  match s.dropWhile isSpace with
  | [] => none
  | c :: t =>
    if c = 45 then (scan_digits (w - 1) t).map fun r => ((2 ^ 32 - r.1) % 2 ^ 32, r.2)
    else if c = 43 then scan_digits (w - 1) t
    else scan_digits w (c :: t)

/-- `%02x:%02x: ...` with `n` conversions to go: the numbers that are stored. -/
def scan_mac : Nat → Bytes → List Nat
  | 0, _ => []
  | n + 1, s =>
    match scan_x 2 s with
    | none => []
    | some (x, rest) =>
      x :: match rest with
        | 58 :: rest => scan_mac n rest
        | _ => []

/-! ### The stack frame -/

/-- The bytes of the stack. -/
abbrev Stack := Nat → UInt8

/-- Where the arrays are, and which other bytes are still needed behind the scans:
`imageFd`, `mac_5g_str`, what belongs to the caller. -/
structure Layout where
  mac_2g : Nat
  mac_5g : Nat
  inUse : Nat → Bool
  disjoint : mac_2g + 6 ≤ mac_5g ∨ mac_5g + 6 ≤ mac_2g
  own_2g : ∀ i < 6, inUse (mac_2g + i) = false
  own_5g : ∀ i < 6, inUse (mac_5g + i) = false

/-- Bytes stored one behind the other; `none` where one hits something in use. -/
def pokes (l : Layout) : Nat → Bytes → Stack → Option Stack
  | _, [], m => some m
  | a, b :: bs, m => if l.inUse a = true then none else pokes l (a + 1) bs (Function.update m a b)

/-- The conversions of one `sscanf`, each into four bytes from its `char` on. -/
def stores (l : Layout) : Nat → List Nat → Stack → Option Stack
  | _, [], m => some m
  | a, x :: xs, m => (pokes l a (intBytes x) m).bind (stores l (a + 1) xs)

/-- `char mac_2g[6] = {0}, mac_5g[6] = {0}` in a frame that may hold anything. -/
def Layout.init (l : Layout) (m : Stack) : Stack := fun a =>
  if (l.mac_2g ≤ a ∧ a < l.mac_2g + 6) ∨ (l.mac_5g ≤ a ∧ a < l.mac_5g + 6) then 0 else m a

/-- An array of six bytes. -/
def six (m : Stack) (a : Nat) : Bytes := (List.range 6).map fun i => m (a + i)

/-! ### The function -/

/-- The calls on the partition. -/
inductive ArtCall
  | opens
  | seeks (offset : Nat)
  | reads (n : Nat)
  | writes (d : Bytes)
  | closes

/-- What they answer; `none` is a `read` that fails. -/
abbrev ArtRet : ArtCall → Type
  | .opens => Int
  | .seeks _ => Int
  | .reads _ => Option Bytes
  | .writes _ => Int
  | .closes => Int

/-- The second half of the function, for the area at `start`: `true` when it got
through. -/
def update_checksum (start : Nat) : Prog ArtRet Bool := do
  let _ ← Prog.ask (ArtCall.seeks start)
  let data : Option Bytes ← Prog.ask (ArtCall.reads eeprom_size)
  match data with
  | none => pure false
  | some d => do
    let csum := qc98xx_calc_checksum (padded eeprom_size d)
    let _ ← Prog.ask (ArtCall.seeks (start + checksum_offset))
    let datalen : Int ← Prog.ask (ArtCall.writes (le16 csum))
    if datalen < 0 then pure false else pure true

/-- `set_wifi_mac` behind the scans. -/
def write_macs (mac_2g mac_5g : Bytes) : Prog ArtRet Int := do
  let _ ← Prog.ask (ArtCall.seeks (wifi0_data_start + mac_addr_offset))
  let _ ← Prog.ask (ArtCall.writes mac_2g)
  let _ ← Prog.ask (ArtCall.seeks (wifi1_data_start + mac_addr_offset))
  let _ ← Prog.ask (ArtCall.writes mac_5g)
  let ok0 ← update_checksum wifi0_data_start
  if ok0 = true then do
    let ok1 ← update_checksum wifi1_data_start
    let _ ← Prog.ask ArtCall.closes
    if ok1 = true then pure 0 else pure (-1)
  else do
    let _ ← Prog.ask ArtCall.closes
    pure (-1)

/-- `set_wifi_mac`; `none` is a `sscanf` that destroys something in use. -/
def set_wifi_mac (l : Layout) (m : Stack) (mac_2g_str mac_5g_str : Option Bytes) :
    Prog ArtRet (Option Int) :=
  match mac_2g_str, mac_5g_str with
  | some s2, some s5 => do
    let imageFd : Int ← Prog.ask ArtCall.opens
    if imageFd < 0 then pure (some (-1))
    else
      match (stores l l.mac_2g (scan_mac 6 s2) (l.init m)).bind
        (stores l l.mac_5g (scan_mac 6 s5)) with
      | none => pure none
      | some m => do
        let res ← write_macs (six m l.mac_2g) (six m l.mac_5g)
        pure (some res)
  | _, _ => pure (some (-1)) -- `invalid mac_2g or mac_5g`

/-! ### The partition -/

/-- The partition and the place in it. -/
structure Art where
  part : Bytes
  pos : Nat

/-- Every call succeeds, and reads and writes in full. -/
def full : Sem ArtRet Art where
  step w c := match c with
    | .opens => fun (r : Int) w' => 0 ≤ r ∧ w' = ⟨w.part, 0⟩
    | .seeks offset => fun (r : Int) w' => r = offset ∧ w' = ⟨w.part, offset⟩
    | .reads n => fun (r : Option Bytes) w' => w.pos + n ≤ w.part.length ∧
        r = some ((w.part.drop w.pos).take n) ∧ w' = ⟨w.part, w.pos + n⟩
    | .writes d => fun (r : Int) w' => r = d.length ∧
        ∃ part, store w.part w.pos d = some part ∧ w' = ⟨part, w.pos + d.length⟩
    | .closes => fun (r : Int) w' => r = 0 ∧ w' = w
  cut _ _ _ := False

/-- `p` with `d` at `off`. -/
def put (p : Bytes) (off : Nat) (d : Bytes) : Bytes := p.take off ++ d ++ p.drop (off + d.length)

theorem store_eq_put {p d : Bytes} {off : Nat} (h : off + d.length ≤ p.length) :
    store p off d = some (put p off d) := if_pos h

@[simp] theorem length_put {p d : Bytes} {off : Nat} (h : off + d.length ≤ p.length) :
    (put p off d).length = p.length := by
  simp only [put, List.length_append, List.length_take, List.length_drop]
  omega

theorem getElem?_put_of_lt {p d : Bytes} {off i : Nat} (h : off + d.length ≤ p.length)
    (hi : i < off) : (put p off d)[i]? = p[i]? := by
  rw [put, List.append_assoc, List.getElem?_append_left (by rw [List.length_take]; omega),
    List.getElem?_take_of_lt hi]

theorem getElem?_put_of_ge {p d : Bytes} {off i : Nat} (h : off + d.length ≤ p.length)
    (hi : off + d.length ≤ i) : (put p off d)[i]? = p[i]? := by
  have hlen : (p.take off ++ d).length = off + d.length := by
    rw [List.length_append, List.length_take]
    omega
  rw [put, List.getElem?_append_right (by omega), hlen, List.getElem?_drop]
  congr 1
  omega

/-- Behind `s` it is put into what is behind `s`. -/
theorem drop_put {p d : Bytes} (s k : Nat) (h : s ≤ p.length) :
    (put p (s + k) d).drop s = put (p.drop s) k d := by
  have hs : (p.take s).length = s := by rw [List.length_take]; omega
  rw [put, put, List.drop_drop, List.take_add, List.append_assoc, List.append_assoc,
    List.drop_append_of_le_length (by omega), List.drop_of_length_le (by omega), List.nil_append,
    List.append_assoc, Nat.add_assoc]

/-- A stretch that is not touched. -/
theorem slice_put {p d : Bytes} {off s n : Nat} (h : off + d.length ≤ p.length)
    (hout : s + n ≤ off ∨ off + d.length ≤ s) :
    ((put p off d).drop s).take n = (p.drop s).take n := by
  apply List.ext_getElem?
  intro i
  rw [List.getElem?_take, List.getElem?_take]
  split
  · rw [List.getElem?_drop, List.getElem?_drop]
    rcases hout with hout | hout
    · exact getElem?_put_of_lt h (by omega)
    · exact getElem?_put_of_ge h (by omega)
  · rfl

/-- The stretch itself. -/
theorem slice_put_self {p d : Bytes} {off : Nat} (h : off ≤ p.length) :
    ((put p off d).drop off).take d.length = d := by
  have hlen : (p.take off).length = off := by rw [List.length_take]; omega
  rw [put, List.append_assoc, List.drop_append_of_le_length (by omega),
    List.drop_of_length_le (by omega), List.nil_append, List.take_left]

/-! ### The checksum -/

theorem toNat_ofNat_half {lo hi : UInt8} : (half lo hi).toNat = lo.toNat + hi.toNat * 2 ^ 8 := by
  have hlo := lo.toNat_lt
  have hhi := hi.toNat_lt
  rw [half, UInt16.toNat_ofNat']
  exact Nat.mod_eq_of_lt (by omega)

/-- A half-word survives being stored. -/
theorem half_le16 (x : UInt16) :
    half (UInt8.ofNat (x.toNat % 2 ^ 8)) (UInt8.ofNat (x.toNat / 2 ^ 8)) = x := by
  have hx := x.toNat_lt
  apply UInt16.toNat_inj.mp
  rw [toNat_ofNat_half, UInt8.toNat_ofNat', UInt8.toNat_ofNat']
  omega

theorem foldl_xor (l : List UInt16) (x : UInt16) :
    l.foldl (· ^^^ ·) x = x ^^^ l.foldl (· ^^^ ·) 0 := by
  induction l generalizing x with
  | nil => exact UInt16.xor_zero.symm
  | cons h l ih =>
    rw [List.foldl_cons, List.foldl_cons, ih (x ^^^ h), ih (0 ^^^ h), UInt16.zero_xor,
      UInt16.xor_assoc]

/-- The XOR of an area, its first two half-words apart. -/
theorem xor_halves_cons (a b c d : UInt8) (q : Bytes) :
    xor_halves (a :: b :: c :: d :: q)
      = half a b ^^^ (half c d ^^^ (halves (q.take 12060)).foldl (· ^^^ ·) 0) := by
  have htake : (a :: b :: c :: d :: q).take eeprom_size = a :: b :: c :: d :: q.take 12060 := rfl
  rw [xor_halves, htake, halves, halves, List.foldl_cons, List.foldl_cons, foldl_xor,
    UInt16.zero_xor, UInt16.xor_assoc]

/-- **The checksum balances**: an area with its own checksum in it passes. -/
theorem verify_put {q : Bytes} (h : 4 ≤ q.length) :
    qc98xx_verify_checksum (put q 2 (le16 (qc98xx_calc_checksum q))) = 0 := by
  match q, h with
  | a :: b :: c :: d :: q, _ =>
    have hput : ∀ x : UInt16, put (a :: b :: c :: d :: q) 2 (le16 x)
        = a :: b :: UInt8.ofNat (x.toNat % 2 ^ 8) :: UInt8.ofNat (x.toNat / 2 ^ 8) :: q :=
      fun _ => rfl
    have hset : ((a :: b :: c :: d :: q).set 2 0).set 3 0 = a :: b :: 0 :: 0 :: q := rfl
    have hzero : half 0 0 = 0 := by decide
    rw [qc98xx_verify_checksum, hput, xor_halves_cons, half_le16, qc98xx_calc_checksum, hset,
      xor_halves_cons, hzero, UInt16.zero_xor]
    generalize (halves (q.take 12060)).foldl (· ^^^ ·) 0 = r
    generalize half a b = x
    have hx : x ^^^ (x ^^^ r ^^^ 0xffff ^^^ r) = 0xffff := by
      rw [UInt16.xor_assoc x r, UInt16.xor_assoc x, UInt16.xor_comm r, UInt16.xor_assoc,
        UInt16.xor_self, UInt16.xor_zero, ← UInt16.xor_assoc, UInt16.xor_self, UInt16.zero_xor]
    exact if_neg fun hne => hne hx

/-! ### The text of an address -/

/-- Texts with a colon between them. -/
def colons : List Bytes → Bytes
  | [] => []
  | [t] => t
  | t :: ts => t ++ 58 :: colons ts

/-- A MAC address as text: six times one or two hexadecimal digits. -/
structure Mac where
  bytes : List Bytes
  length_bytes : bytes.length = 6
  length_byte : ∀ t ∈ bytes, 1 ≤ t.length ∧ t.length ≤ 2
  isHex_byte : ∀ t ∈ bytes, ∀ c ∈ t, isHex c = true

/-- As it is typed. -/
def Mac.text (mac : Mac) : Bytes := colons mac.bytes

/-- The six bytes it stands for. -/
def Mac.value (mac : Mac) : Bytes := mac.bytes.map fun t => UInt8.ofNat (hexVal t)

theorem isHex_iff {c : UInt8} : isHex c = true ↔
    (48 ≤ c.toNat ∧ c.toNat ≤ 57) ∨ (65 ≤ c.toNat ∧ c.toNat ≤ 70) ∨
      (97 ≤ c.toNat ∧ c.toNat ≤ 102) := by
  simp only [isHex, isDigit, Bool.or_eq_true, Bool.and_eq_true, decide_eq_true_eq,
    UInt8.le_iff_toNat_le]
  have h48 : (48 : UInt8).toNat = 48 := rfl
  have h57 : (57 : UInt8).toNat = 57 := rfl
  have h65 : (65 : UInt8).toNat = 65 := rfl
  have h70 : (70 : UInt8).toNat = 70 := rfl
  have h97 : (97 : UInt8).toNat = 97 := rfl
  have h102 : (102 : UInt8).toNat = 102 := rfl
  rw [h48, h57, h65, h70, h97, h102, or_assoc]

theorem digitVal_lt {c : UInt8} (h : isHex c = true) : digitVal c < 16 := by
  have hc := isHex_iff.mp h
  have h70 : (70 : UInt8).toNat = 70 := rfl
  rw [digitVal]
  split
  · rename_i hd
    rw [isDigit_iff] at hd
    omega
  · rename_i hd
    rw [isDigit_iff] at hd
    split
    · rename_i hle
      rw [UInt8.le_iff_toNat_le] at hle
      omega
    · omega

/-- Two digits make a byte. -/
theorem hexVal_lt {t : Bytes} (hlen : t.length ≤ 2) (h : ∀ c ∈ t, isHex c = true) :
    hexVal t < 2 ^ 8 := by
  match t, hlen with
  | [], _ => decide
  | [c], _ =>
    have := digitVal_lt (h c (by simp))
    simp only [hexVal, List.foldl_cons, List.foldl_nil]
    omega
  | [c, d], _ =>
    have := digitVal_lt (h c (by simp))
    have := digitVal_lt (h d (by simp))
    simp only [hexVal, List.foldl_cons, List.foldl_nil]
    omega

/-- What may follow a byte of an address: nothing, or a colon. -/
def Ends (rest : Bytes) : Prop := rest = [] ∨ ∃ r, rest = 58 :: r

theorem takeWhile_hex {t rest : Bytes} (ht : ∀ c ∈ t, isHex c = true) (hlen : t.length ≤ 2)
    (hrest : Ends rest) : ((t ++ rest).take 2).takeWhile isHex = t := by
  rw [List.take_append, List.take_of_length_le hlen, List.takeWhile_append_of_pos ht]
  rcases hrest with rfl | ⟨r, rfl⟩
  · rw [List.take_nil, List.takeWhile_nil, List.append_nil]
  · cases 2 - t.length with
    | zero => rw [List.take_zero, List.takeWhile_nil, List.append_nil]
    | succ k =>
      rw [List.take_succ_cons, List.takeWhile_cons_of_neg (by decide), List.append_nil]

/-- The second character of a byte is no `x`. -/
theorem no_prefix {t rest : Bytes} (ht : ∀ c ∈ t, isHex c = true) (hlen : 1 ≤ t.length)
    (hrest : Ends rest) {x : UInt8} (hx : isHex x = false) (hx' : x ≠ 58) :
    (t ++ rest).take 2 ≠ [48, x] := by
  intro h
  have hmem : (t ++ rest)[1]? = some x := by
    have := congrArg (·[1]?) h
    simpa [List.getElem?_take] using this
  rcases Nat.lt_or_ge 1 t.length with hlt | hge
  · rw [List.getElem?_append_left hlt] at hmem
    rw [ht x (List.mem_of_getElem? hmem)] at hx
    cases hx
  · rw [List.getElem?_append_right hge] at hmem
    rcases hrest with rfl | ⟨r, rfl⟩
    · cases hmem
    · rw [show 1 - t.length = 0 by omega] at hmem
      exact hx' (Option.some.inj hmem).symm

/-- One byte of an address is read. -/
theorem scan_x_byte {t : Bytes} (rest : Bytes) (ht : ∀ c ∈ t, isHex c = true)
    (hlen : 1 ≤ t.length ∧ t.length ≤ 2) (hrest : Ends rest) :
    scan_x 2 (t ++ rest) = some (hexVal t, rest) := by
  have hdigits : scan_digits 2 (t ++ rest) = some (hexVal t, rest) := by
    have hx : ¬ ((t ++ rest).take (min 2 2) = asc "0x" ∨ (t ++ rest).take (min 2 2) = asc "0X") := by
      rintro (h | h)
      · exact no_prefix ht hlen.1 hrest (x := 120) (by decide) (by decide) h
      · exact no_prefix ht hlen.1 hrest (x := 88) (by decide) (by decide) h
    rw [scan_digits, if_neg hx]
    simp only [takeWhile_hex ht hlen.2 hrest]
    rw [if_neg (List.ne_nil_of_length_pos hlen.1), List.drop_left]
  obtain ⟨c, t', rfl⟩ := List.exists_cons_of_length_pos hlen.1
  have hc := isHex_iff.mp (ht c (by simp))
  have hspace : isSpace c = false := by
    rw [isSpace]
    simp only [Bool.or_eq_false_iff, Bool.and_eq_false_iff, decide_eq_false_iff_not,
      UInt8.le_iff_toNat_le, ← UInt8.toNat_inj]
    have h32 : (32 : UInt8).toNat = 32 := rfl
    have h13 : (13 : UInt8).toNat = 13 := rfl
    omega
  have h45 : c ≠ 45 := by
    rintro rfl
    exact absurd (ht 45 (by simp)) (by decide)
  have h43 : c ≠ 43 := by
    rintro rfl
    exact absurd (ht 43 (by simp)) (by decide)
  rw [List.cons_append] at hdigits ⊢
  rw [scan_x, List.dropWhile_cons_of_neg (by simp [hspace])]
  simp only [if_neg h45, if_neg h43, hdigits]

/-- The whole address is read. -/
theorem scan_mac_colons : ∀ (ts : List Bytes), (∀ t ∈ ts, 1 ≤ t.length ∧ t.length ≤ 2) →
    (∀ t ∈ ts, ∀ c ∈ t, isHex c = true) → ts ≠ [] →
    scan_mac ts.length (colons ts) = ts.map hexVal := by
  intro ts
  induction ts with
  | nil => exact fun _ _ h => absurd rfl h
  | cons t ts ih =>
    intro hlen hhex _
    have ht := hhex t List.mem_cons_self
    have hl := hlen t List.mem_cons_self
    cases ts with
    | nil =>
      have hscan := scan_x_byte [] ht hl (Or.inl rfl)
      rw [List.append_nil] at hscan
      rw [List.length_singleton, scan_mac, colons, hscan]
      rfl
    | cons u us =>
      have hscan := scan_x_byte (58 :: colons (u :: us)) ht hl (Or.inr ⟨_, rfl⟩)
      have hcolons : colons (t :: u :: us) = t ++ 58 :: colons (u :: us) := rfl
      rw [List.length_cons, scan_mac, hcolons, hscan, List.map_cons]
      simp only
      rw [ih (fun x hx => hlen x (List.mem_cons_of_mem t hx))
        (fun x hx => hhex x (List.mem_cons_of_mem t hx)) (List.cons_ne_nil u us)]

theorem Mac.scan (mac : Mac) : scan_mac 6 mac.text = mac.bytes.map hexVal := by
  have hne : mac.bytes ≠ [] := by
    intro h
    have := mac.length_bytes
    rw [h] at this
    cases this
  rw [← mac.length_bytes]
  exact scan_mac_colons mac.bytes mac.length_byte mac.isHex_byte hne

/-! ### What the conversions leave on the stack -/

/-- `m` with the bytes from `a` on. -/
def overlay (m : Stack) (a : Nat) (bs : Bytes) : Stack := fun x =>
  if a ≤ x ∧ x < a + bs.length then bs.getD (x - a) 0 else m x

theorem overlay_cons (m : Stack) (a : Nat) (b : UInt8) (bs : Bytes) :
    overlay (Function.update m a b) (a + 1) bs = overlay m a (b :: bs) := by
  funext x
  simp only [overlay, List.length_cons]
  by_cases hx : x = a
  · subst hx
    rw [if_neg (by omega), Function.update_self, if_pos (by omega), Nat.sub_self]
    rfl
  · rw [Function.update_of_ne hx]
    by_cases hin : a + 1 ≤ x ∧ x < a + 1 + bs.length
    · rw [if_pos hin, if_pos (by omega), show x - a = x - (a + 1) + 1 by omega,
        List.getD_cons_succ]
    · rw [if_neg hin, if_neg (by omega)]

theorem pokes_eq (l : Layout) : ∀ (bs : Bytes) (a : Nat) (m : Stack),
    pokes l a bs m
      = if ∀ k < bs.length, l.inUse (a + k) = false then some (overlay m a bs) else none := by
  intro bs
  induction bs with
  | nil =>
    intro a m
    have hover : overlay m a [] = m := by
      funext x
      rw [overlay, List.length_nil, if_neg (by omega)]
    have hfree : ∀ k < ([] : Bytes).length, l.inUse (a + k) = false :=
      fun k hk => absurd hk (Nat.not_lt_zero k)
    rw [pokes, if_pos hfree, hover]
  | cons b bs ih =>
    intro a m
    have hall : (∀ k < (b :: bs).length, l.inUse (a + k) = false) ↔
        l.inUse a = false ∧ ∀ k < bs.length, l.inUse (a + 1 + k) = false := by
      constructor
      · intro h
        refine ⟨h 0 (Nat.succ_pos _), fun k hk => ?_⟩
        rw [Nat.add_assoc, Nat.add_comm 1 k]
        exact h (k + 1) (Nat.succ_lt_succ hk)
      · rintro ⟨h0, h⟩ k hk
        cases k with
        | zero => exact h0
        | succ k =>
          rw [← Nat.add_assoc, Nat.add_right_comm]
          exact h k (Nat.lt_of_succ_lt_succ hk)
    rw [pokes, ih, overlay_cons]
    simp only [hall]
    cases l.inUse a with
    | false => simp
    | true => simp

theorem overlay_overlay {m : Stack} {a : Nat} {b : UInt8} {bs : Bytes} (h : 3 ≤ bs.length) :
    overlay (overlay m a [b, 0, 0, 0]) (a + 1) bs = overlay m a (b :: bs) := by
  funext x
  simp only [overlay, List.length_cons, List.length_nil]
  by_cases hin : a + 1 ≤ x ∧ x < a + 1 + bs.length
  · rw [if_pos hin, if_pos (by omega), show x - a = x - (a + 1) + 1 by omega, List.getD_cons_succ]
  · rw [if_neg hin]
    by_cases hx : x = a
    · subst hx
      rw [if_pos (by omega), if_pos (by omega), Nat.sub_self]
      rfl
    · rw [if_neg (by omega), if_neg (by omega)]

theorem intBytes_byte {x : Nat} (h : x < 2 ^ 8) : intBytes x = [UInt8.ofNat x, 0, 0, 0] := by
  rw [intBytes, Nat.div_eq_of_lt h, Nat.div_eq_of_lt (by omega), Nat.div_eq_of_lt (by omega)]
  rfl

/-- **The overflow of `%02x`**: the bytes, and three zeros behind them. -/
theorem stores_eq (l : Layout) : ∀ (xs : List Nat) (a : Nat) (m : Stack), (∀ x ∈ xs, x < 2 ^ 8) →
    xs ≠ [] → stores l a xs m
      = if ∀ k < xs.length + 3, l.inUse (a + k) = false then
          some (overlay m a (xs.map UInt8.ofNat ++ [0, 0, 0])) else none := by
  intro xs
  induction xs with
  | nil => exact fun _ _ _ h => absurd rfl h
  | cons x xs ih =>
    intro a m hlt _
    have hx := intBytes_byte (hlt x List.mem_cons_self)
    have hbytes : ∀ k < (intBytes x).length, k < xs.length + 1 + 3 := by
      intro k hk
      rw [hx] at hk
      exact Nat.lt_of_lt_of_le hk (by simp)
    rw [stores, pokes_eq, List.length_cons]
    by_cases hfree : ∀ k < (intBytes x).length, l.inUse (a + k) = false
    · rw [if_pos hfree, Option.bind_some, hx]
      cases xs with
      | nil =>
        rw [hx] at hfree
        rw [if_pos (by exact hfree)]
        rfl
      | cons y ys =>
        have hall : (∀ k < (y :: ys).length + 3, l.inUse (a + 1 + k) = false) ↔
            ∀ k < (y :: ys).length + 1 + 3, l.inUse (a + k) = false := by
          constructor
          · intro h k hk
            by_cases hk0 : k = 0
            · exact hfree k (by rw [hx, hk0]; exact Nat.succ_pos 3)
            · have := h (k - 1) (by omega)
              rwa [show a + 1 + (k - 1) = a + k by omega] at this
          · intro h k hk
            rw [Nat.add_assoc]
            exact h (1 + k) (by omega)
        rw [ih (a + 1) _ (fun z hz => hlt z (List.mem_cons_of_mem x hz)) (List.cons_ne_nil y ys),
          overlay_overlay (by simp)]
        simp only [hall]
        rfl
    · rw [if_neg hfree, Option.bind_none, if_neg]
      exact fun h => hfree fun k hk => h k (hbytes k hk)

/-- Both `sscanf`s. -/
theorem stores_both (l : Layout) (m : Stack) (mac_2g mac_5g : Mac) :
    (stores l l.mac_2g (scan_mac 6 mac_2g.text) (l.init m)).bind
        (stores l l.mac_5g (scan_mac 6 mac_5g.text))
      = if (∀ k < 9, l.inUse (l.mac_2g + k) = false) ∧ ∀ k < 9, l.inUse (l.mac_5g + k) = false then
          some (overlay (overlay (l.init m) l.mac_2g (mac_2g.value ++ [0, 0, 0])) l.mac_5g
            (mac_5g.value ++ [0, 0, 0]))
        else none := by
  have hstores : ∀ (mac : Mac) (a : Nat) (m : Stack), stores l a (scan_mac 6 mac.text) m
      = if ∀ k < 9, l.inUse (a + k) = false then
          some (overlay m a (mac.value ++ [0, 0, 0])) else none := by
    intro mac a m
    have hlen : (mac.bytes.map hexVal).length = 6 := by rw [List.length_map, mac.length_bytes]
    have hlt : ∀ x ∈ mac.bytes.map hexVal, x < 2 ^ 8 := by
      intro x hx
      obtain ⟨t, ht, rfl⟩ := List.mem_map.mp hx
      exact hexVal_lt (mac.length_byte t ht).2 (mac.isHex_byte t ht)
    rw [mac.scan, stores_eq l _ a m hlt (List.ne_nil_of_length_pos (by omega)), hlen, List.map_map]
    rfl
  rw [hstores]
  by_cases h2 : ∀ k < 9, l.inUse (l.mac_2g + k) = false
  · rw [if_pos h2, Option.bind_some, hstores]
    simp only [and_iff_right h2]
  · rw [if_neg h2, Option.bind_none, if_neg fun h => h2 h.1]

theorem Mac.length_value (mac : Mac) : mac.value.length = 6 := by
  rw [Mac.value, List.length_map, mac.length_bytes]

/-- The array that is scanned last holds its address. -/
theorem six_last (m : Stack) (a : Nat) (mac : Mac) :
    six (overlay m a (mac.value ++ [0, 0, 0])) a = mac.value := by
  have hlen := mac.length_value
  apply List.ext_getElem (by rw [six, List.length_map, List.length_range, hlen])
  intro i h₁ h₂
  simp only [six, List.getElem_map, List.getElem_range, overlay, List.length_append, hlen,
    List.length_cons, List.length_nil]
  rw [if_pos (by omega), Nat.add_sub_cancel_left, List.getD_append _ _ _ _ h₂,
    List.getD_eq_getElem _ _ h₂]

/-- The one before holds its address when the last overflow spares it. -/
theorem six_first_iff (l : Layout) (m : Stack) (mac_2g mac_5g : Mac) :
    six (overlay (overlay m l.mac_2g (mac_2g.value ++ [0, 0, 0])) l.mac_5g
        (mac_5g.value ++ [0, 0, 0])) l.mac_2g = mac_2g.value ↔
      ∀ i < 6, l.mac_5g + 6 ≤ l.mac_2g + i → l.mac_2g + i < l.mac_5g + 9 →
        mac_2g.value.getD i 0 = 0 := by
  have hlen := mac_2g.length_value
  have hlen' := mac_5g.length_value
  have hdisj := l.disjoint
  have hbyte : ∀ i < 6, overlay (overlay m l.mac_2g (mac_2g.value ++ [0, 0, 0])) l.mac_5g
      (mac_5g.value ++ [0, 0, 0]) (l.mac_2g + i)
      = if l.mac_5g + 6 ≤ l.mac_2g + i ∧ l.mac_2g + i < l.mac_5g + 9 then 0
        else mac_2g.value.getD i 0 := by
    intro i hi
    simp only [overlay, List.length_append, hlen, hlen', List.length_cons, List.length_nil]
    by_cases hover : l.mac_5g + 6 ≤ l.mac_2g + i ∧ l.mac_2g + i < l.mac_5g + 9
    · rw [if_pos (by omega), if_pos hover, List.getD_append_right _ _ _ _ (by omega), hlen']
      have hk : l.mac_2g + i - l.mac_5g - 6 < 3 := by omega
      generalize l.mac_2g + i - l.mac_5g - 6 = k at hk
      match k, hk with
      | 0, _ => rfl
      | 1, _ => rfl
      | 2, _ => rfl
    · rw [if_neg (by omega), if_pos (by omega), if_neg hover, Nat.add_sub_cancel_left,
        List.getD_append _ _ _ _ (by omega)]
  constructor
  · intro h i hi h₁ h₂
    have hget := congrArg (fun bs => bs.getD i 0) h
    simp only [six] at hget
    rw [List.getD_eq_getElem _ _ (by rw [List.length_map, List.length_range]; exact hi),
      List.getElem_map, List.getElem_range, hbyte i hi, if_pos ⟨h₁, h₂⟩] at hget
    exact hget.symm
  · intro h
    apply List.ext_getElem (by rw [six, List.length_map, List.length_range, hlen])
    intro i h₁ h₂
    have hi : i < 6 := by omega
    rw [← List.getD_eq_getElem _ 0 h₂]
    simp only [six, List.getElem_map, List.getElem_range]
    rw [hbyte i hi]
    split
    · rename_i hover
      exact (h i hi hover.1 hover.2).symm
    · rfl

/-! ### The calls -/

section Calls

variable {α : Type} {b : α} {w w' : Art}

theorem run_opens {k : Int → Prog ArtRet α} :
    Run full (.call .opens k) w (some b) w' ↔
      ∃ fd : Int, 0 ≤ fd ∧ Run full (k fd) ⟨w.part, 0⟩ (some b) w' := by
  rw [Run.some_call]
  constructor
  · rintro ⟨fd, w₁, ⟨hfd, rfl⟩, hr⟩
    exact ⟨fd, hfd, hr⟩
  · rintro ⟨fd, hfd, hr⟩
    exact ⟨fd, _, ⟨hfd, rfl⟩, hr⟩

theorem run_seeks {offset : Nat} {k : Int → Prog ArtRet α} :
    Run full (.call (.seeks offset) k) w (some b) w' ↔
      Run full (k offset) ⟨w.part, offset⟩ (some b) w' := by
  rw [Run.some_call]
  constructor
  · rintro ⟨r, w₁, ⟨hr, rfl⟩, hrun⟩
    rwa [show r = (offset : Int) from hr] at hrun
  · exact fun hrun => ⟨_, _, ⟨rfl, rfl⟩, hrun⟩

theorem run_reads {n : Nat} {k : Option Bytes → Prog ArtRet α} (h : w.pos + n ≤ w.part.length) :
    Run full (.call (.reads n) k) w (some b) w' ↔
      Run full (k (some ((w.part.drop w.pos).take n))) ⟨w.part, w.pos + n⟩ (some b) w' := by
  rw [Run.some_call]
  constructor
  · rintro ⟨r, w₁, ⟨-, hr, rfl⟩, hrun⟩
    rwa [show r = some ((w.part.drop w.pos).take n) from hr] at hrun
  · exact fun hrun => ⟨_, _, ⟨h, rfl, rfl⟩, hrun⟩

theorem run_writes {d : Bytes} {k : Int → Prog ArtRet α} (h : w.pos + d.length ≤ w.part.length) :
    Run full (.call (.writes d) k) w (some b) w' ↔
      Run full (k d.length) ⟨put w.part w.pos d, w.pos + d.length⟩ (some b) w' := by
  rw [Run.some_call]
  constructor
  · rintro ⟨r, w₁, ⟨hr, part, hpart, rfl⟩, hrun⟩
    rw [store_eq_put h] at hpart
    rwa [show r = (d.length : Int) from hr, ← Option.some.inj hpart] at hrun
  · exact fun hrun => ⟨_, _, ⟨rfl, _, store_eq_put h, rfl⟩, hrun⟩

theorem run_closes {k : Int → Prog ArtRet α} :
    Run full (.call .closes k) w (some b) w' ↔ Run full (k 0) w (some b) w' := by
  rw [Run.some_call]
  constructor
  · rintro ⟨r, w₁, ⟨hr, rfl⟩, hrun⟩
    rwa [show r = (0 : Int) from hr] at hrun
  · exact fun hrun => ⟨_, _, ⟨rfl, rfl⟩, hrun⟩

end Calls

/-! ### What the function does -/

@[simp] theorem length_le16 (x : UInt16) : (le16 x).length = 2 := rfl

/-- The partition with a new checksum in the area at `start`. -/
def balanced (p : Bytes) (start : Nat) : Bytes :=
  put p (start + checksum_offset) (le16 (qc98xx_calc_checksum (p.drop start)))

theorem calc_take (q : Bytes) : qc98xx_calc_checksum (q.take eeprom_size) = qc98xx_calc_checksum q := by
  rw [qc98xx_calc_checksum, qc98xx_calc_checksum, xor_halves, xor_halves, List.take_set,
    List.take_set, List.take_set, List.take_set, List.take_take, Nat.min_self]

theorem length_balanced {p : Bytes} {start : Nat} (h : start + eeprom_size ≤ p.length) :
    (balanced p start).length = p.length := by
  refine length_put ?_
  rw [length_le16]
  have : checksum_offset + 2 ≤ eeprom_size := by decide
  omega

/-- The second half, for one area. -/
theorem run_update_checksum {p : Bytes} {pos start : Nat} (h : start + eeprom_size ≤ p.length)
    {ok : Bool} {w : Art} :
    Run full (update_checksum start) ⟨p, pos⟩ (some ok) w ↔
      ok = true ∧ w = ⟨balanced p start, start + checksum_offset + 2⟩ := by
  have hoff : checksum_offset + 2 ≤ eeprom_size := by decide
  have hpad : padded eeprom_size ((p.drop start).take eeprom_size)
      = (p.drop start).take eeprom_size := by
    rw [padded, List.length_take, List.length_drop,
      show eeprom_size - min eeprom_size (p.length - start) = 0 by omega, List.replicate_zero,
      List.append_nil]
  simp only [update_checksum, Prog.ask_bind]
  rw [run_seeks, run_reads h]
  simp only
  rw [run_seeks, run_writes (by rw [length_le16]; show start + checksum_offset + 2 ≤ p.length; omega),
    if_neg (by simp), hpad, calc_take, Prog.pure_eq, Run.some_pure]
  rfl

/-- Both addresses have their place in the partition. -/
theorem room_puts {part a b : Bytes} (hpart : wifi1_data_start + eeprom_size ≤ part.length)
    (ha : a.length = 6) (hb : b.length = 6) :
    wifi0_data_start + mac_addr_offset + a.length ≤ part.length ∧
      (put part (wifi0_data_start + mac_addr_offset) a).length = part.length ∧
      wifi1_data_start + mac_addr_offset + b.length
        ≤ (put part (wifi0_data_start + mac_addr_offset) a).length ∧
      (put (put part (wifi0_data_start + mac_addr_offset) a)
        (wifi1_data_start + mac_addr_offset) b).length = part.length := by
  have h01 : wifi0_data_start + eeprom_size ≤ wifi1_data_start := by decide
  have hoff : mac_addr_offset + 6 ≤ eeprom_size := by decide
  have hput0 : wifi0_data_start + mac_addr_offset + a.length ≤ part.length := by omega
  have hlen0 : (put part (wifi0_data_start + mac_addr_offset) a).length = part.length :=
    length_put hput0
  have hput1 : wifi1_data_start + mac_addr_offset + b.length
      ≤ (put part (wifi0_data_start + mac_addr_offset) a).length := by omega
  exact ⟨hput0, hlen0, hput1, (length_put hput1).trans hlen0⟩

/-- The partition behind the function, with `a` and `b` for the two addresses. -/
def outcome (part a b : Bytes) : Bytes :=
  balanced (balanced (put (put part (wifi0_data_start + mac_addr_offset) a)
    (wifi1_data_start + mac_addr_offset) b) wifi0_data_start) wifi1_data_start

theorem run_write_macs {part a b : Bytes} {pos : Nat} {w : Art} {r : Int}
    (hpart : wifi1_data_start + eeprom_size ≤ part.length) (ha : a.length = 6)
    (hb : b.length = 6) :
    Run full (write_macs a b) ⟨part, pos⟩ (some r) w ↔
      r = 0 ∧ w = ⟨outcome part a b, wifi1_data_start + checksum_offset + 2⟩ := by
  have h01 : wifi0_data_start + eeprom_size ≤ wifi1_data_start := by decide
  obtain ⟨hput0, hlen0, hput1, hlen1⟩ := room_puts hpart ha hb
  have hlen2 : (balanced (put (put part (wifi0_data_start + mac_addr_offset) a)
      (wifi1_data_start + mac_addr_offset) b) wifi0_data_start).length = part.length := by
    rw [length_balanced (by omega), hlen1]
  simp only [write_macs, Prog.ask_bind]
  rw [run_seeks, run_writes hput0, run_seeks, run_writes hput1, Run.some_bind]
  simp only [run_update_checksum (show wifi0_data_start + eeprom_size ≤
    (put (put part (wifi0_data_start + mac_addr_offset) a)
      (wifi1_data_start + mac_addr_offset) b).length by omega)]
  constructor
  · rintro ⟨ok0, w₁, ⟨rfl, rfl⟩, hr⟩
    rw [if_pos rfl, Run.some_bind] at hr
    obtain ⟨ok1, w₂, hupd, hr⟩ := hr
    obtain ⟨rfl, rfl⟩ := (run_update_checksum (by omega)).mp hupd
    rw [run_closes, if_pos rfl, Prog.pure_eq, Run.some_pure] at hr
    exact hr
  · rintro ⟨rfl, rfl⟩
    refine ⟨true, _, ⟨rfl, rfl⟩, ?_⟩
    rw [if_pos rfl, Run.some_bind]
    refine ⟨true, _, (run_update_checksum (by omega)).mpr ⟨rfl, rfl⟩, ?_⟩
    rw [run_closes, if_pos rfl, Prog.pure_eq, Run.some_pure]
    exact ⟨rfl, rfl⟩

theorem length_six (m : Stack) (a : Nat) : (six m a).length = 6 := by
  rw [six, List.length_map, List.length_range]

/-- The stack behind both scans. -/
def scanned (l : Layout) (m : Stack) (mac_2g mac_5g : Mac) : Stack :=
  overlay (overlay (l.init m) l.mac_2g (mac_2g.value ++ [0, 0, 0])) l.mac_5g
    (mac_5g.value ++ [0, 0, 0])

/-- A run in which every call succeeds. -/
theorem run_set_wifi_mac (l : Layout) (m : Stack) (mac_2g mac_5g : Mac) {part : Bytes} {w : Art}
    (hpart : wifi1_data_start + eeprom_size ≤ part.length) :
    Run full (set_wifi_mac l m (some mac_2g.text) (some mac_5g.text)) ⟨part, 0⟩ (some (some 0)) w ↔
      ((∀ k < 9, l.inUse (l.mac_2g + k) = false) ∧ ∀ k < 9, l.inUse (l.mac_5g + k) = false) ∧
        w = ⟨outcome part (six (scanned l m mac_2g mac_5g) l.mac_2g) mac_5g.value,
          wifi1_data_start + checksum_offset + 2⟩ := by
  simp only [set_wifi_mac, Prog.ask_bind, stores_both]
  rw [run_opens]
  have hfd : ∀ {fd : Int}, 0 ≤ fd → ¬ fd < 0 := fun h => by omega
  by_cases hfree : (∀ k < 9, l.inUse (l.mac_2g + k) = false) ∧
      ∀ k < 9, l.inUse (l.mac_5g + k) = false
  · have hwrite : ∀ {w : Art}, Run full (do
          let res ← write_macs (six (scanned l m mac_2g mac_5g) l.mac_2g)
            (six (scanned l m mac_2g mac_5g) l.mac_5g)
          pure (some res)) ⟨part, 0⟩ (some (some 0)) w ↔
        w = ⟨outcome part (six (scanned l m mac_2g mac_5g) l.mac_2g) mac_5g.value,
          wifi1_data_start + checksum_offset + 2⟩ := by
      intro w
      rw [Run.some_bind, ← six_last (overlay (l.init m) l.mac_2g (mac_2g.value ++ [0, 0, 0]))
        l.mac_5g mac_5g]
      simp only [run_write_macs hpart (length_six _ _) (length_six _ _), Prog.pure_eq,
        Run.some_pure]
      constructor
      · rintro ⟨r, w₁, ⟨-, rfl⟩, -, rfl⟩
        rfl
      · rintro rfl
        exact ⟨0, _, ⟨rfl, rfl⟩, rfl, rfl⟩
    rw [and_iff_right hfree, ← hwrite]
    simp only [if_pos hfree]
    constructor
    · rintro ⟨fd, hge, hr⟩
      rwa [if_neg (hfd hge)] at hr
    · exact fun hr => ⟨0, Int.le_refl 0, by rwa [if_neg (hfd (Int.le_refl 0))]⟩
  · simp only [if_neg hfree]
    constructor
    · rintro ⟨fd, hge, hr⟩
      rw [if_neg (hfd hge), Prog.pure_eq, Run.some_pure] at hr
      cases hr.1
    · exact fun h => absurd h.1 hfree

/-! ### The areas behind it -/

/-- The bytes that the function is there to change. -/
def Touched (i : Nat) : Prop :=
  ∃ start, (start = wifi0_data_start ∨ start = wifi1_data_start) ∧
    ((start + mac_addr_offset ≤ i ∧ i < start + mac_addr_offset + 6) ∨
      (start + checksum_offset ≤ i ∧ i < start + checksum_offset + 2))

/-- Both areas pass, hold the two addresses, and nothing else has changed. -/
structure Calibrated (part part' a b : Bytes) : Prop where
  verify_2g : qc98xx_verify_checksum (part'.drop wifi0_data_start) = 0
  verify_5g : qc98xx_verify_checksum (part'.drop wifi1_data_start) = 0
  mac_2g : (part'.drop (wifi0_data_start + mac_addr_offset)).take 6 = a
  mac_5g : (part'.drop (wifi1_data_start + mac_addr_offset)).take 6 = b
  length_eq : part'.length = part.length
  others : ∀ i, ¬ Touched i → part'[i]? = part[i]?

theorem verify_congr {q q' : Bytes} (h : q.take eeprom_size = q'.take eeprom_size) :
    qc98xx_verify_checksum q = qc98xx_verify_checksum q' := by
  rw [qc98xx_verify_checksum, qc98xx_verify_checksum, xor_halves, xor_halves, h]

/-- An area passes when its checksum has been written. -/
theorem verify_balanced {p : Bytes} {start : Nat} (h : start + eeprom_size ≤ p.length) :
    qc98xx_verify_checksum ((balanced p start).drop start) = 0 := by
  have hsize : 4 ≤ eeprom_size := by decide
  rw [balanced, drop_put start checksum_offset (by omega)]
  exact verify_put (by rw [List.length_drop]; omega)

/-- What `balanced` leaves alone. -/
theorem slice_balanced {p : Bytes} {start s n : Nat} (h : start + eeprom_size ≤ p.length)
    (hout : s + n ≤ start + checksum_offset ∨ start + checksum_offset + 2 ≤ s) :
    ((balanced p start).drop s).take n = (p.drop s).take n := by
  have hsize : checksum_offset + 2 ≤ eeprom_size := by decide
  exact slice_put (by rw [length_le16]; omega) (by rw [length_le16]; exact hout)

/-- **Both areas are in order**, with the bytes that were written for the addresses. -/
theorem calibrated_outcome {part a b : Bytes} (hpart : wifi1_data_start + eeprom_size ≤ part.length)
    (ha : a.length = 6) (hb : b.length = 6) : Calibrated part (outcome part a b) a b := by
  have h01 : wifi0_data_start + eeprom_size ≤ wifi1_data_start := by decide
  have hoff : mac_addr_offset + 6 ≤ eeprom_size := by decide
  have hsum : checksum_offset + 2 ≤ mac_addr_offset := by decide
  obtain ⟨hput0, hlen0, hput1, hlen1⟩ := room_puts hpart ha hb
  rw [outcome]
  generalize hp1 : put part (wifi0_data_start + mac_addr_offset) a = p1 at hlen0 hput1 hlen1 ⊢
  generalize hp2 : put p1 (wifi1_data_start + mac_addr_offset) b = p2 at hlen1 ⊢
  have hlen3 := length_balanced (show wifi0_data_start + eeprom_size ≤ p2.length by omega)
  have hlen4 := length_balanced
    (show wifi1_data_start + eeprom_size ≤ (balanced p2 wifi0_data_start).length by omega)
  refine ⟨?_, verify_balanced (by omega), ?_, ?_, by omega, fun i hi => ?_⟩
  · rw [verify_congr (slice_balanced (by omega) (Or.inl (by omega)))]
    exact verify_balanced (by omega)
  · rw [slice_balanced (by omega) (Or.inl (by omega)),
      slice_balanced (by omega) (Or.inr (by omega)), ← hp2,
      slice_put hput1 (Or.inl (by omega)), ← hp1, ← ha, slice_put_self (by omega)]
  · rw [slice_balanced (by omega) (Or.inr (by omega)),
      slice_balanced (by omega) (Or.inr (by omega)), ← hp2, ← hb, slice_put_self (by omega)]
  · have hget : ∀ {p d : Bytes} {off : Nat}, off + d.length ≤ p.length →
        (i < off ∨ off + d.length ≤ i) → (put p off d)[i]? = p[i]? := by
      intro p d off h hout
      rcases hout with hout | hout
      · exact getElem?_put_of_lt h hout
      · exact getElem?_put_of_ge h hout
    have hout : ∀ start, (start = wifi0_data_start ∨ start = wifi1_data_start) →
        (i < start + mac_addr_offset ∨ start + mac_addr_offset + 6 ≤ i) ∧
          (i < start + checksum_offset ∨ start + checksum_offset + 2 ≤ i) := by
      intro start hstart
      constructor
      · by_contra hno
        exact hi ⟨start, hstart, Or.inl (by omega)⟩
      · by_contra hno
        exact hi ⟨start, hstart, Or.inr (by omega)⟩
    obtain ⟨hm0, hc0⟩ := hout wifi0_data_start (Or.inl rfl)
    obtain ⟨hm1, hc1⟩ := hout wifi1_data_start (Or.inr rfl)
    rw [balanced, hget (by rw [length_le16]; omega) (by rw [length_le16]; exact hc1), balanced,
      hget (by rw [length_le16]; omega) (by rw [length_le16]; exact hc0), ← hp2,
      hget hput1 (by rw [hb]; exact hm1), ← hp1, hget hput0 (by rw [ha]; exact hm0)]

/-- **The three bytes behind each array do no harm**: nothing in use is there, and where
the 2.4 GHz address is behind the other array, its bytes are zeros anyway. -/
structure Layout.Spares (l : Layout) (mac_2g : Mac) : Prop where
  behind_2g : ∀ k < 9, l.inUse (l.mac_2g + k) = false
  behind_5g : ∀ k < 9, l.inUse (l.mac_5g + k) = false
  overlap : ∀ i < 6, l.mac_5g + 6 ≤ l.mac_2g + i → l.mac_2g + i < l.mac_5g + 9 →
    mac_2g.value.getD i 0 = 0

/-- The two addresses are where they belong only if the second overflow spares the
first array. -/
theorem spares_of_calibrated {l : Layout} {m : Stack} {mac_2g mac_5g : Mac} {part : Bytes} {w : Art}
    (hpart : wifi1_data_start + eeprom_size ≤ part.length)
    (hrun : Run full (set_wifi_mac l m (some mac_2g.text) (some mac_5g.text)) ⟨part, 0⟩
      (some (some 0)) w) (hcal : Calibrated part w.part mac_2g.value mac_5g.value) :
    l.Spares mac_2g := by
  obtain ⟨⟨h2, h5⟩, rfl⟩ := (run_set_wifi_mac l m mac_2g mac_5g hpart).mp hrun
  have hout := calibrated_outcome hpart (length_six (scanned l m mac_2g mac_5g) l.mac_2g)
    mac_5g.length_value
  exact ⟨h2, h5, (six_first_iff l (l.init m) mac_2g mac_5g).mp (hout.mac_2g.symm.trans hcal.mac_2g)⟩

/-- **The WiFi addresses.**  For every partition and any two addresses, with every call
succeeding in full: the function ends with both areas in order exactly when the
overflow of its `sscanf`s does no harm. -/
theorem set_wifi_mac_iff (l : Layout) (m : Stack) (mac_2g mac_5g : Mac) {part : Bytes}
    (hpart : wifi1_data_start + eeprom_size ≤ part.length) :
    (∃ w, Run full (set_wifi_mac l m (some mac_2g.text) (some mac_5g.text)) ⟨part, 0⟩
        (some (some 0)) w ∧ Calibrated part w.part mac_2g.value mac_5g.value) ↔
      l.Spares mac_2g := by
  constructor
  · rintro ⟨w, hrun, hcal⟩
    exact spares_of_calibrated hpart hrun hcal
  · intro hspares
    have hsix := (six_first_iff l (l.init m) mac_2g mac_5g).mpr hspares.overlap
    refine ⟨_, (run_set_wifi_mac l m mac_2g mac_5g hpart).mpr
      ⟨⟨hspares.behind_2g, hspares.behind_5g⟩, rfl⟩, ?_⟩
    rw [scanned, hsix]
    exact calibrated_outcome hpart mac_2g.length_value mac_5g.length_value

/-- Each array has room behind it. -/
def apart : Layout where
  mac_2g := 0
  mac_5g := 16
  inUse a := 25 ≤ a
  disjoint := by decide
  own_2g := by decide
  own_5g := by decide

/-- `mac_5g` directly below `mac_2g`. -/
def stacked : Layout :=
  ⟨6, 0, fun _ => false, by decide, fun _ _ => rfl, fun _ _ => rfl⟩

/-- The address `00:18:05:A0:00:03`. -/
def wlanaddr : Mac :=
  ⟨[asc "00", asc "18", asc "05", asc "A0", asc "00", asc "03"], rfl,
    List.forall_iff_forall_mem.mp (by decide), fun t ht =>
      List.all_eq_true.mp (List.all_eq_true.mp
        (show [asc "00", asc "18", asc "05", asc "A0", asc "00", asc "03"].all
          (fun t => t.all isHex) = true by decide) t ht)⟩

/-- A blank partition gets the addresses where the arrays are apart. -/
theorem set_wifi_mac_apart :
    ∃ w, Run full (set_wifi_mac apart (fun _ => 0) (some wlanaddr.text) (some wlanaddr.text))
        ⟨List.replicate (wifi1_data_start + eeprom_size) 0, 0⟩ (some (some 0)) w ∧
      Calibrated (List.replicate (wifi1_data_start + eeprom_size) 0) w.part wlanaddr.value
        wlanaddr.value :=
  (set_wifi_mac_iff apart _ wlanaddr wlanaddr (le_of_eq List.length_replicate.symm)).mpr
    ⟨by decide, by decide, by decide⟩

/-- Where they are not, the second `sscanf` clears the first three bytes of the other address. -/
theorem set_wifi_mac_clears :
    ¬ ∀ (l : Layout) (m : Stack) (mac_2g mac_5g : Mac) (part : Bytes),
      wifi1_data_start + eeprom_size ≤ part.length →
      ∃ w, Run full (set_wifi_mac l m (some mac_2g.text) (some mac_5g.text)) ⟨part, 0⟩
        (some (some 0)) w ∧ Calibrated part w.part mac_2g.value mac_5g.value := by
  intro h
  have hpart := le_of_eq (List.length_replicate (n := wifi1_data_start + eeprom_size)
    (a := (0 : UInt8))).symm
  obtain ⟨w, hrun, hcal⟩ := h stacked (fun _ => 0) wlanaddr wlanaddr _ hpart
  have hzero := (spares_of_calibrated hpart hrun hcal).overlap 1 (by decide) (by decide) (by decide)
  exact absurd hzero (by decide)

end Boxing.Intools
