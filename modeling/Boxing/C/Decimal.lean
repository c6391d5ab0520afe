import Mathlib.Data.Nat.Digits.Lemmas
import Boxing.C.Num

/-!
# Texts into buffers

`sprintf` and its relatives put a text into a buffer of some size.

`decText n` is what they make of `%d`: the digits of the number, the first one first, behind a
minus sign if it is negative.  It can be read back, and an `int` takes no more than eleven
characters.
-/

namespace Boxing.C

/-- `sprintf` into a buffer: `none` if it does not fit. -/
def sprintf (size : Nat) (s : Bytes) : Option Bytes := if s.length < size then some s else none

/-- `snprintf`. -/
def snprintf (size : Nat) (s : Bytes) : Bytes := s.take (size - 1)

/-- `strlcpy(dst, s, size)`. -/
def strlcpy (s : Bytes) (size : Nat) : Bytes := (str s).take (size - 1)

/-- The digits of a number. -/
def decDigits (n : Nat) : Bytes :=
  if n = 0 then [48] else ((Nat.digits 10 n).map fun d => UInt8.ofNat (48 + d)).reverse

/-- `%d`. -/
def decText (n : Int) : Bytes := if n < 0 then 45 :: decDigits n.natAbs else decDigits n.natAbs

/-- A digit and its character. -/
theorem toNat_decDigit {d : Nat} (h : d < 10) : (UInt8.ofNat (48 + d)).toNat = 48 + d := by
  rw [UInt8.toNat_ofNat']
  omega

theorem isDigit_of_mem_decDigits {n : Nat} {c : UInt8} (h : c ∈ decDigits n) :
    isDigit c = true := by
  rw [isDigit_iff]
  unfold decDigits at h
  split at h
  · obtain rfl := List.mem_singleton.mp h
    decide
  · rw [List.mem_reverse, List.mem_map] at h
    obtain ⟨d, hd, rfl⟩ := h
    have hlt := Nat.digits_lt_base (by decide : 1 < 10) hd
    rw [toNat_decDigit hlt]
    omega

/-- The digits can be read back from their characters. -/
theorem map_decDigits (n : Nat) :
    (decDigits n).map (fun c => c.toNat - 48) = if n = 0 then [0] else (Nat.digits 10 n).reverse := by
  unfold decDigits
  split
  · rfl
  · rw [List.map_reverse, List.map_map]
    refine congrArg List.reverse ((List.map_congr_left fun d hd => ?_).trans (List.map_id _))
    have := toNat_decDigit (Nat.digits_lt_base (by decide : 1 < 10) hd)
    show (UInt8.ofNat (48 + d)).toNat - 48 = d
    omega

theorem ofDigits_decDigits (n : Nat) :
    Nat.ofDigits 10 ((decDigits n).map fun c => c.toNat - 48).reverse = n := by
  rw [map_decDigits]
  split
  · rename_i h
    rw [h]
    rfl
  · rw [List.reverse_reverse, Nat.ofDigits_digits]

theorem decDigits_injective : Function.Injective decDigits := by
  intro m n h
  rw [← ofDigits_decDigits m, h, ofDigits_decDigits]

/-- A minus sign is no digit. -/
theorem minus_not_mem (n : Nat) : 45 ∉ decDigits n := fun h =>
  absurd (isDigit_of_mem_decDigits h) (by decide)

theorem decText_injective : Function.Injective decText := by
  intro m n h
  unfold decText at h
  split at h
  · split at h
    · have := decDigits_injective (List.cons.inj h).2
      omega
    · exact absurd (h ▸ List.mem_cons_self) (minus_not_mem _)
  · split at h
    · exact absurd (h ▸ List.mem_cons_self) (minus_not_mem _)
    · have := decDigits_injective h
      omega

theorem length_decDigits_le {n w : Nat} (hw : 0 < w) (h : n < 10 ^ w) : (decDigits n).length ≤ w := by
  unfold decDigits
  split
  · exact hw
  · rw [List.length_reverse, List.length_map]
    exact (Nat.digits_length_le_iff (by decide) n).mpr h

/-- An `int` is short. -/
theorem length_decText_int32 (x : Int) : (decText (int32 x)).length ≤ 11 := by
  have hlt := int32_lt x
  have hge : -2 ^ 31 ≤ int32 x := by
    have := Int.le_bmod (x := x) (m := 2 ^ 32) (by decide)
    rw [int32]
    omega
  have hlen : (decDigits (int32 x).natAbs).length ≤ 10 := length_decDigits_le (by decide) (by omega)
  unfold decText
  split
  · rw [List.length_cons]
    omega
  · omega

/-- No number has a newline or a carriage return in it. -/
theorem not_mem_decText {c : UInt8} (h : isDigit c = false) (h45 : c ≠ 45) (n : Int) :
    c ∉ decText n := by
  have hdig : ∀ k, c ∉ decDigits k := fun k hk =>
    Bool.noConfusion (h.symm.trans (isDigit_of_mem_decDigits hk))
  unfold decText
  split
  · simp [h45, hdig]
  · exact hdig _

end Boxing.C
