import Mathlib.Data.List.GetD
import Mathlib.Logic.Function.Iterate

/-!
# The shift register of a reflected CRC

A CRC of width `w` is computed in a register of `w` bits.  For each bit of the message,
the lowest bit of each byte first, the bit is added to the lowest bit of the register,
the register is shifted down, and when a one falls out the polynomial `p` is added:
`bitStep`.  `crc` is that over a message, with the register inverted before and after.

Three facts carry everything else.  A shift is linear (`shift_xor`).  It only moves the
bits down as long as the lowest one is zero (`iterate_shift_of_low`), so that `k` shifts
of any register are those of its lowest `k` bits and the rest moved down
(`iterate_shift_split`): this is what a table of `2 ^ k` entries rests on.  And when `p`
has its upper bit, the bit that fell out can be read off the result, so a shift is
injective (`shift_injective`): two registers that differ differ for ever, and a message
of at most `w` bits drives the register injectively (`feed_injective`).
-/

namespace Boxing.Crc

variable {w : Nat}

/-! ### The register -/

/-- One shift. -/
def shift (p c : BitVec w) : BitVec w := if c.getLsbD 0 then p ^^^ (c >>> 1) else c >>> 1

/-- One bit of the message. -/
def bitStep (p c : BitVec w) (b : Bool) : BitVec w := shift p (c ^^^ (BitVec.ofBool b).setWidth w)

/-- The bits of a message. -/
def feed (p c : BitVec w) (bits : List Bool) : BitVec w := bits.foldl (bitStep p) c

/-- The bits of a byte, the lowest first. -/
def byteBits (b : UInt8) : List Bool := (List.range 8).map fun i => b.toBitVec.getLsbD i

/-- The bits of a list of bytes. -/
def bytesBits (buf : List UInt8) : List Bool := buf.flatMap byteBits

/-- The CRC of `buf`, carried on from `start`. -/
def crc (p start : BitVec w) (buf : List UInt8) : BitVec w := ~~~ feed p (~~~ start) (bytesBits buf)

/-- A word with these bits, the lowest first. -/
def ofBits : List Bool → BitVec w
  | [] => 0
  | b :: bits => (ofBits bits <<< 1) ^^^ (BitVec.ofBool b).setWidth w

variable {p : BitVec w}

@[simp] theorem feed_nil (c : BitVec w) : feed p c [] = c := rfl

@[simp] theorem feed_cons (c : BitVec w) (b : Bool) (bits : List Bool) :
    feed p c (b :: bits) = feed p (bitStep p c b) bits := rfl

theorem feed_append (c : BitVec w) (xs ys : List Bool) :
    feed p c (xs ++ ys) = feed p (feed p c xs) ys := List.foldl_append

@[simp] theorem bytesBits_cons (b : UInt8) (buf : List UInt8) :
    bytesBits (b :: buf) = byteBits b ++ bytesBits buf := rfl

theorem bytesBits_append (a b : List UInt8) :
    bytesBits (a ++ b) = bytesBits a ++ bytesBits b := List.flatMap_append

@[simp] theorem length_byteBits (b : UInt8) : (byteBits b).length = 8 := by
  rw [byteBits, List.length_map, List.length_range]

theorem length_bytesBits (buf : List UInt8) : (bytesBits buf).length = 8 * buf.length := by
  induction buf with
  | nil => rfl
  | cons b buf ih =>
    rw [bytesBits_cons, List.length_append, length_byteBits, ih, List.length_cons]
    omega

/-- A message in two pieces: the CRC of the first is where the second starts. -/
theorem crc_append (start : BitVec w) (a b : List UInt8) :
    crc p (crc p start a) b = crc p start (a ++ b) := by
  rw [crc, crc, crc, BitVec.not_not, bytesBits_append, feed_append]

/-! ### A shift is linear -/

theorem shift_xor (c d : BitVec w) : shift p (c ^^^ d) = shift p c ^^^ shift p d := by
  have hcancel : ∀ x y : BitVec w, p ^^^ x ^^^ (p ^^^ y) = x ^^^ y := by
    intro x y
    rw [BitVec.xor_comm p x, BitVec.xor_assoc, ← BitVec.xor_assoc p p y, BitVec.xor_self,
      BitVec.zero_xor]
  unfold shift
  rw [BitVec.getLsbD_xor, BitVec.ushiftRight_xor_distrib]
  cases c.getLsbD 0 with
  | false =>
    cases d.getLsbD 0 with
    | false => rfl
    | true =>
      rw [Bool.false_xor, if_pos rfl, if_neg (by decide), if_pos rfl, ← BitVec.xor_assoc,
        BitVec.xor_comm p (c >>> 1), BitVec.xor_assoc]
  | true =>
    cases d.getLsbD 0 with
    | false => rw [Bool.xor_false, if_pos rfl, if_pos rfl, if_neg (by decide), BitVec.xor_assoc]
    | true => rw [Bool.true_xor, if_neg (by decide), if_pos rfl, if_pos rfl, hcancel]

theorem iterate_shift_xor (n : Nat) (c d : BitVec w) :
    (shift p)^[n] (c ^^^ d) = (shift p)^[n] c ^^^ (shift p)^[n] d := by
  induction n generalizing c d with
  | zero => rfl
  | succ n ih =>
    rw [Function.iterate_succ_apply, Function.iterate_succ_apply, Function.iterate_succ_apply,
      shift_xor, ih]

/-! ### The lowest bits decide -/

/-- As long as the lowest bit is zero a shift only moves the bits. -/
theorem iterate_shift_of_low {n : Nat} {c : BitVec w} (h : ∀ i, i < n → c.getLsbD i = false) :
    (shift p)^[n] c = c >>> n := by
  induction n with
  | zero => simp
  | succ n ih =>
    have hlow : (c >>> n).getLsbD 0 = false := by
      rw [BitVec.getLsbD_ushiftRight]
      exact h n (Nat.lt_succ_self n)
    rw [Function.iterate_succ_apply', ih fun i hi => h i (Nat.lt_succ_of_lt hi), shift, hlow,
      if_neg (by decide), BitVec.shiftRight_add]

/-- The lowest `k` bits, and the others. -/
theorem low_xor_high (c : BitVec w) (k : Nat) :
    (c.setWidth k).setWidth w ^^^ ((c >>> k) <<< k) = c := by
  apply BitVec.eq_of_getLsbD_eq
  intro i hi
  rw [BitVec.getLsbD_xor, BitVec.getLsbD_setWidth, BitVec.getLsbD_setWidth,
    BitVec.getLsbD_shiftLeft, BitVec.getLsbD_ushiftRight]
  by_cases hk : i < k
  · simp [hi, hk]
  · have hki : k + (i - k) = i := by omega
    simp [hi, hk, hki]

/-- **What a table of CRCs rests on**: `k` shifts are those of the lowest `k` bits, and the
others moved down. -/
theorem iterate_shift_split (c : BitVec w) (k : Nat) :
    (shift p)^[k] c = (shift p)^[k] ((c.setWidth k).setWidth w) ^^^ (c >>> k) := by
  have hhigh : (shift p)^[k] ((c >>> k) <<< k) = c >>> k := by
    rw [iterate_shift_of_low]
    · apply BitVec.eq_of_getLsbD_eq
      intro i hi
      rw [BitVec.getLsbD_ushiftRight, BitVec.getLsbD_shiftLeft, BitVec.getLsbD_ushiftRight,
        BitVec.getLsbD_ushiftRight]
      by_cases hw : k + i < w
      · simp [hw]
      · simp [hw, BitVec.getLsbD_of_ge c (k + i) (by omega)]
    · intro i hi
      rw [BitVec.getLsbD_shiftLeft]
      simp [hi]
  calc (shift p)^[k] c
      = (shift p)^[k] ((c.setWidth k).setWidth w ^^^ ((c >>> k) <<< k)) := by rw [low_xor_high]
    _ = (shift p)^[k] ((c.setWidth k).setWidth w) ^^^ (c >>> k) := by
        rw [iterate_shift_xor, hhigh]

/-! ### A shift is injective -/

section Injective

variable (hp : p.getLsbD (w - 1) = true)

include hp

theorem width_pos : 0 < w := by
  by_contra h
  rw [BitVec.getLsbD_of_ge p (w - 1) (by omega)] at hp
  cases hp

/-- The bit that fell out is the upper bit of the result. -/
theorem upper_shift (c : BitVec w) : (shift p c).getLsbD (w - 1) = c.getLsbD 0 := by
  have hw := width_pos hp
  have htop : (c >>> 1).getLsbD (w - 1) = false := by
    rw [BitVec.getLsbD_ushiftRight]
    exact BitVec.getLsbD_of_ge c _ (by omega)
  unfold shift
  cases c.getLsbD 0 with
  | false => rw [if_neg (by decide), htop]
  | true => rw [if_pos rfl, BitVec.getLsbD_xor, hp, htop, Bool.xor_false]

theorem shift_injective : Function.Injective (shift p) := by
  intro c d h
  have hlow : c.getLsbD 0 = d.getLsbD 0 := by
    rw [← upper_shift hp, ← upper_shift hp, h]
  have hrest : c >>> 1 = d >>> 1 := by
    unfold shift at h
    rw [hlow] at h
    cases hd : d.getLsbD 0 with
    | false => rwa [hd, if_neg (by decide), if_neg (by decide)] at h
    | true =>
      rw [hd, if_pos rfl, if_pos rfl] at h
      exact BitVec.xor_right_inj p |>.mp h
  apply BitVec.eq_of_getLsbD_eq
  intro i hi
  cases i with
  | zero => exact hlow
  | succ i =>
    have hbit := congrArg (fun x => x.getLsbD i) hrest
    simp only [BitVec.getLsbD_ushiftRight] at hbit
    rwa [Nat.add_comm i 1]

/-- Two registers that differ differ after any message. -/
theorem feed_left_injective (bits : List Bool) : Function.Injective fun c => feed p c bits := by
  induction bits with
  | nil => exact fun c d h => h
  | cons b bits ih =>
    intro c d h
    have hstep := shift_injective hp (ih h)
    exact BitVec.xor_left_inj _ |>.mp hstep

end Injective

/-! ### A short message -/

theorem getLsbD_ofBits {bits : List Bool} {i : Nat} (hi : i < w) :
    (ofBits bits : BitVec w).getLsbD i = bits.getD i false := by
  induction bits generalizing i with
  | nil => simp [ofBits]
  | cons b bits ih =>
    rw [ofBits, BitVec.getLsbD_xor, BitVec.getLsbD_shiftLeft, BitVec.getLsbD_setWidth]
    cases i with
    | zero => simp [hi]
    | succ i =>
      have hi' : i < w := by omega
      have hbit : (BitVec.ofBool b).getLsbD (i + 1) = false := BitVec.getLsbD_of_ge _ _ (by omega)
      rw [hbit, List.getD_cons_succ, ← ih hi']
      simp [hi]

/-- Moving a word up and shifting it down again, when there is room. -/
theorem shift_shiftLeft {c : BitVec w} (h : ∀ i, w ≤ i + 1 → c.getLsbD i = false) :
    shift p (c <<< 1) = c := by
  have hlow : (c <<< 1).getLsbD 0 = false := by
    rw [BitVec.getLsbD_shiftLeft]
    simp
  rw [shift, hlow, if_neg (by decide)]
  apply BitVec.eq_of_getLsbD_eq
  intro i hi
  rw [BitVec.getLsbD_ushiftRight, BitVec.getLsbD_shiftLeft]
  by_cases hw : 1 + i < w
  · simp [hw]
  · rw [h i (by omega)]
    simp [hw]

/-- **A message no longer than the register** is added to it and shifted through. -/
theorem feed_eq {bits : List Bool} (h : bits.length ≤ w) (c : BitVec w) :
    feed p c bits = (shift p)^[bits.length] (c ^^^ ofBits bits) := by
  induction bits generalizing c with
  | nil => simp [ofBits]
  | cons b bits ih =>
    rw [List.length_cons] at h
    have hroom : ∀ i, w ≤ i + 1 → (ofBits bits : BitVec w).getLsbD i = false := by
      intro i hle
      by_cases hi : i < w
      · rw [getLsbD_ofBits hi, List.getD_eq_default _ _ (by omega)]
      · exact BitVec.getLsbD_of_ge _ _ (by omega)
    have hshift : shift p (c ^^^ ofBits (b :: bits)) = bitStep p c b ^^^ ofBits bits := by
      rw [bitStep, ofBits, BitVec.xor_comm (ofBits bits <<< 1), ← BitVec.xor_assoc, shift_xor,
        shift_shiftLeft hroom]
    rw [feed_cons, ih (by omega), List.length_cons, Function.iterate_succ_apply, hshift]

theorem ofBits_byteBits (b : UInt8) : (ofBits (byteBits b) : BitVec w) = b.toBitVec.setWidth w := by
  apply BitVec.eq_of_getLsbD_eq
  intro i hi
  rw [getLsbD_ofBits hi, BitVec.getLsbD_setWidth, byteBits, List.getD_eq_getElem?_getD,
    List.getElem?_map]
  by_cases h8 : i < 8
  · rw [List.getElem?_range h8]
    simp [hi]
  · rw [List.getElem?_eq_none (by rw [List.length_range]; omega),
      BitVec.getLsbD_of_ge b.toBitVec i (by omega)]
    simp

/-- **One byte through a table**: eight shifts of the low byte of register and message. -/
theorem feed_byteBits (h : 8 ≤ w) (c : BitVec w) (b : UInt8) :
    feed p c (byteBits b)
      = (shift p)^[8] (((c ^^^ b.toBitVec.setWidth w).setWidth 8).setWidth w) ^^^ (c >>> 8) := by
  have hhigh : b.toBitVec.setWidth w >>> 8 = 0#w := by
    apply BitVec.eq_of_getLsbD_eq
    intro i hi
    rw [BitVec.getLsbD_ushiftRight, BitVec.getLsbD_setWidth,
      BitVec.getLsbD_of_ge b.toBitVec (8 + i) (by omega)]
    simp
  rw [feed_eq (by rw [length_byteBits]; exact h), length_byteBits, ofBits_byteBits,
    iterate_shift_split, BitVec.ushiftRight_xor_distrib, hhigh, BitVec.xor_zero]

theorem byteBits_injective : Function.Injective byteBits := by
  intro a b h
  apply UInt8.toBitVec_inj.mp
  apply BitVec.eq_of_getLsbD_eq
  intro i hi
  have hbit := congrArg (fun l : List Bool => l[i]?) h
  simp only [byteBits, List.getElem?_map, List.getElem?_range hi, Option.map_some] at hbit
  exact Option.some.inj hbit

theorem bytesBits_injective : Function.Injective bytesBits := by
  intro a
  induction a with
  | nil =>
    intro b h
    have hlen := congrArg List.length h
    rw [length_bytesBits, length_bytesBits, List.length_nil] at hlen
    exact (List.length_eq_zero_iff.mp (by omega)).symm
  | cons x a ih =>
    intro b h
    cases b with
    | nil =>
      have hlen := congrArg List.length h
      rw [length_bytesBits, length_bytesBits, List.length_cons, List.length_nil] at hlen
      omega
    | cons y b =>
      rw [bytesBits_cons, bytesBits_cons] at h
      obtain ⟨hbyte, hrest⟩ := List.append_inj h (by rw [length_byteBits, length_byteBits])
      rw [byteBits_injective hbyte, ih hrest]

/-! ### Bursts -/

section Burst

variable (hp : p.getLsbD (w - 1) = true)

include hp

/-- **A short message drives the register injectively.** -/
theorem feed_injective {xs ys : List Bool} {c : BitVec w} (hlen : xs.length = ys.length)
    (hw : xs.length ≤ w) (h : feed p c xs = feed p c ys) : xs = ys := by
  rw [feed_eq hw, feed_eq (hlen ▸ hw), ← hlen] at h
  have hwords : (ofBits xs : BitVec w) = ofBits ys :=
    BitVec.xor_right_inj c |>.mp ((shift_injective hp).iterate _ h)
  apply List.ext_getElem hlen
  intro i hx hy
  have hbit := congrArg (fun v => v.getLsbD i) hwords
  simp only [getLsbD_ofBits (Nat.lt_of_lt_of_le hx hw)] at hbit
  rwa [List.getD_eq_getElem _ _ hx, List.getD_eq_getElem _ _ hy] at hbit

/-- **A burst no longer than the register is detected**: two messages that differ in one
stretch of at most `w` bits have different CRCs. -/
theorem crc_burst (start : BitVec w) (a b : List UInt8) {x y : List UInt8}
    (hlen : x.length = y.length) (hw : 8 * x.length ≤ w) (hne : x ≠ y) :
    crc p start (a ++ x ++ b) ≠ crc p start (a ++ y ++ b) := by
  intro h
  rw [crc, crc, BitVec.not_inj, bytesBits_append, bytesBits_append, bytesBits_append,
    bytesBits_append, feed_append, feed_append, feed_append, feed_append] at h
  have hshort := feed_left_injective hp _ h
  refine hne (bytesBits_injective (feed_injective hp ?_ ?_ hshort))
  · rw [length_bytesBits, length_bytesBits, hlen]
  · rwa [length_bytesBits]

/-- The same with the places of the bytes that differ. -/
theorem crc_window (start : BitVec w) {d d' : List UInt8} {k n : Nat} (hlen : d'.length = d.length)
    (hne : d' ≠ d) (hw : 8 * n ≤ w) (h : ∀ i, d'[i]? ≠ d[i]? → k ≤ i ∧ i < k + n) :
    crc p start d' ≠ crc p start d := by
  have hsplit : ∀ l : List UInt8, l.take k ++ (l.drop k).take n ++ (l.drop k).drop n = l := by
    intro l
    rw [List.append_assoc, List.take_append_drop, List.take_append_drop]
  have hbefore : d'.take k = d.take k := by
    apply List.ext_getElem?
    intro i
    by_cases hi : i < k
    · rw [List.getElem?_take_of_lt hi, List.getElem?_take_of_lt hi]
      by_contra hdiff
      exact absurd (h i hdiff).1 (by omega)
    · rw [List.getElem?_take_eq_none (by omega), List.getElem?_take_eq_none (by omega)]
  have hbehind : (d'.drop k).drop n = (d.drop k).drop n := by
    apply List.ext_getElem?
    intro i
    rw [List.drop_drop, List.drop_drop, List.getElem?_drop, List.getElem?_drop]
    by_contra hdiff
    exact absurd (h _ hdiff).2 (by omega)
  have hinside : (d'.drop k).take n ≠ (d.drop k).take n := by
    intro heq
    apply hne
    rw [← hsplit d', ← hsplit d, hbefore, heq, hbehind]
  have hwindow : ((d'.drop k).take n).length = ((d.drop k).take n).length := by
    rw [List.length_take, List.length_take, List.length_drop, List.length_drop, hlen]
  have hshort : 8 * ((d'.drop k).take n).length ≤ w := by
    rw [List.length_take]
    omega
  have hburst := crc_burst hp start (d.take k) ((d.drop k).drop n) hwindow hshort hinside
  rwa [hsplit, ← hbefore, ← hbehind, hsplit] at hburst

end Burst

end Boxing.Crc
