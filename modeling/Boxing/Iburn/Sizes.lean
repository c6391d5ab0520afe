import Boxing.Iburn.Upgrade
import Boxing.Ig9.Upgrade

/-!
# The size checks

Both burners compare the size of the file, an `int`, with a sum that is computed in unsigned
arithmetic, and the sum wraps.  A size field near `2 ^ 32` makes it small, and then a short
file passes.  So the check is what it is meant to be exactly as long as the sum does not
wrap, or is too large even when it has: `NoWrap` and its like are the sums as the code
computes them.

`iburn.c` goes on with the length as an `int`.  When the sum is right it is below `2 ^ 31`,
and then so is the length.
-/

namespace Boxing.Iburn

open C

section Sizes

variable {cfg : Config} {st_size : Nat} {h : Bytes}

/-- `OS_IMG_START + ntohl(ih_size) + sizeof(image_header)`, as the code computes it. -/
def wrapped_sum (cfg : Config) (size : Nat) : Nat :=
  ((cfg.OS_IMG_START + size) % 2 ^ 32 + imageHeaderSize) % 2 ^ cfg.abi.longBits

/-- A file that passes has the whole image, and the lengths computed from it are positive. -/
def SizeExact (cfg : Config) (st_size : Nat) (h : Bytes) : Prop :=
  too_short cfg (int32 st_size) (ih_size h) = false →
    cfg.OS_IMG_START + imageHeaderSize + ih_size h ≤ st_size ∧
      0 < image_datalen h ∧ 0 < nblock (image_datalen h)

/-- None of the two sums wraps. -/
def NoWrap (cfg : Config) (size : Nat) : Prop :=
  cfg.OS_IMG_START + size < 2 ^ 32 ∧
    cfg.OS_IMG_START + size + imageHeaderSize < 2 ^ cfg.abi.longBits

theorem longBits_cases (abi : Abi) : abi.longBits = 32 ∨ abi.longBits = 64 := by
  rw [Abi.longBits]
  split
  · exact Or.inr rfl
  · exact Or.inl rfl

/-- The check compares with the wrapped sum. -/
theorem too_short_iff (hsize : st_size < 2 ^ 31) (size : Nat) :
    too_short cfg (int32 st_size) size = false ↔ wrapped_sum cfg size ≤ st_size := by
  have hint : int32 st_size = st_size := int32_of_lt (by omega) (by omega)
  have hlong : (st_size : Int) % 2 ^ cfg.abi.longBits = st_size := by
    refine Int.emod_eq_of_lt (Int.natCast_nonneg _) ?_
    rcases longBits_cases cfg.abi with h | h
    · rw [h]
      omega
    · rw [h]
      omega
  rw [too_short, hint, hlong, decide_eq_false_iff_not, Int.not_lt, ← wrapped_sum]
  exact Int.ofNat_le

/-- A sum that does not wrap is the sum. -/
theorem wrapped_sum_eq {size : Nat} (hw : NoWrap cfg size) :
    wrapped_sum cfg size = cfg.OS_IMG_START + size + imageHeaderSize := by
  rw [wrapped_sum, Nat.mod_eq_of_lt hw.1, Nat.mod_eq_of_lt hw.2]

/-- One that wraps is past every file. -/
theorem lt_of_wrap {size : Nat} (hsize : st_size < 2 ^ 31) (hw : ¬ NoWrap cfg size) :
    st_size < cfg.OS_IMG_START + imageHeaderSize + size := by
  rw [NoWrap, not_and_or] at hw
  rcases hw with hw | hw
  · omega
  · rcases longBits_cases cfg.abi with h | h
    · rw [h] at hw
      omega
    · rw [h] at hw
      omega

/-- The lengths of an image that is in the file. -/
theorem datalen_pos (hsize : st_size < 2 ^ 31)
    (hin : cfg.OS_IMG_START + imageHeaderSize + ih_size h ≤ st_size) :
    0 < image_datalen h ∧ 0 < nblock (image_datalen h) := by
  have hheader : (imageHeaderSize : Int) = 64 := rfl
  have hdatalen : image_datalen h = imageHeaderSize + ih_size h :=
    int32_of_lt (by omega) (by omega)
  rw [nblock, hdatalen]
  omega

theorem sizeExact_iff (hsize : st_size < 2 ^ 31) :
    SizeExact cfg st_size h ↔
      NoWrap cfg (ih_size h) ∨ st_size < wrapped_sum cfg (ih_size h) := by
  rw [SizeExact, too_short_iff hsize]
  constructor
  · intro hexact
    by_contra hno
    obtain ⟨hwrap, hpass⟩ := not_or.mp hno
    have hin := (hexact (Nat.le_of_not_lt hpass)).1
    exact absurd (lt_of_wrap hsize hwrap) (Nat.not_lt.mpr hin)
  · rintro (hw | hshort) hpass
    · rw [wrapped_sum_eq hw] at hpass
      have hin : cfg.OS_IMG_START + imageHeaderSize + ih_size h ≤ st_size := by omega
      exact ⟨hin, datalen_pos hsize hin⟩
    · exact absurd hpass (Nat.not_le.mpr hshort)

end Sizes

end Boxing.Iburn

namespace Boxing.Ig9

open C

section Sizes

variable {cfg : Config} {st_size : Nat} {h : Bytes}

/-- `OS_IMG_START + len`, as the code computes it. -/
def wrapped_sum (cfg : Config) (len : Nat) : Nat := (cfg.OS_IMG_START + len) % 2 ^ 32

/-- A file that passes has the whole image. -/
def SizeExact (cfg : Config) (st_size : Nat) (h : Bytes) : Prop :=
  too_short cfg (int32 st_size) (fdt_totalsize h) = false →
    cfg.OS_IMG_START + fdt_totalsize h ≤ st_size

theorem too_short_iff (hsize : st_size < 2 ^ 31) (len : Nat) :
    too_short cfg (int32 st_size) len = false ↔ wrapped_sum cfg len ≤ st_size := by
  have hint : int32 st_size = st_size := int32_of_lt (by omega) (by omega)
  have hunsigned : (st_size : Int) % 2 ^ 32 = st_size :=
    Int.emod_eq_of_lt (Int.natCast_nonneg _) (by omega)
  rw [too_short, hint, hunsigned, decide_eq_false_iff_not, Int.not_lt, ← wrapped_sum]
  exact Int.ofNat_le

theorem sizeExact_iff (hsize : st_size < 2 ^ 31) :
    SizeExact cfg st_size h ↔
      cfg.OS_IMG_START + fdt_totalsize h < 2 ^ 32 ∨ st_size < wrapped_sum cfg (fdt_totalsize h) := by
  rw [SizeExact, too_short_iff hsize]
  constructor
  · intro hexact
    by_contra hno
    obtain ⟨hwrap, hpass⟩ := not_or.mp hno
    have hin := hexact (Nat.le_of_not_lt hpass)
    omega
  · rintro (hw | hshort) hpass
    · rwa [wrapped_sum, Nat.mod_eq_of_lt hw] at hpass
    · exact absurd hpass (Nat.not_le.mpr hshort)

end Sizes

end Boxing.Ig9

namespace Boxing.Iburn

open C

/-- **When the two size checks are exact**: exactly when the sums do not wrap, or are larger
than the file even so. -/
theorem sizes_exact_iff {st_size : Nat} (hsize : st_size < 2 ^ 31) (cfg : Config)
    (cfg' : Ig9.Config) (h h' : Bytes) :
    (SizeExact cfg st_size h ↔
        NoWrap cfg (ih_size h) ∨ st_size < wrapped_sum cfg (ih_size h)) ∧
      (Ig9.SizeExact cfg' st_size h' ↔
        cfg'.OS_IMG_START + Ig9.fdt_totalsize h' < 2 ^ 32 ∨
          st_size < Ig9.wrapped_sum cfg' (Ig9.fdt_totalsize h')) :=
  ⟨sizeExact_iff hsize, Ig9.sizeExact_iff hsize⟩

/-- A file of 100 bytes. -/
theorem sizes_exact_iff_100 :
    (SizeExact plainConfig 100 plainHeader ↔
        NoWrap plainConfig (ih_size plainHeader) ∨
          100 < wrapped_sum plainConfig (ih_size plainHeader)) ∧
      (Ig9.SizeExact Ig9.tinyConfig 100 plainHeader ↔
        Ig9.tinyConfig.OS_IMG_START + Ig9.fdt_totalsize plainHeader < 2 ^ 32 ∨
          100 < Ig9.wrapped_sum Ig9.tinyConfig (Ig9.fdt_totalsize plainHeader)) :=
  sizes_exact_iff (by decide) plainConfig Ig9.tinyConfig plainHeader plainHeader

/-- A header whose size is 64 bytes below `2 ^ 32`, with its checksum right. -/
def hugeHeader : Bytes :=
  htonl 0x27051956 ++ htonl 0xc9412d79 ++ [0, 0, 0, 0] ++ htonl 0xffffffc0 ++ List.replicate 48 0

/-- The header of a device tree of version 17 that ends where `2 ^ 32` does, two bytes into the
file. -/
def hugeTree : Bytes :=
  htonl 0xd00dfeed ++ htonl 0xfffffffe ++ List.replicate 12 0 ++ htonl 17 ++ htonl 16 ++
    List.replicate 12 0

/-- On a 32-bit machine a file of 64 bytes passes all checks of the one with such a header, and one
of 42 bytes those of the other. -/
theorem hugeHeader_passes :
    (¬ ∀ (st_size : Nat) (cfg : Config) (h : Bytes), st_size < 2 ^ 31 →
        header_ok cfg (int32 st_size) h = true → SizeExact cfg st_size h) ∧
      ¬ ∀ (st_size : Nat) (cfg : Ig9.Config) (h : Bytes), st_size < 2 ^ 31 →
        Ig9.fdt_check_header h = 0 → h.length = Ig9.fdtHeaderSize →
          cfg.OS_IMG_START + h.length ≤ st_size → Ig9.SizeExact cfg st_size h := by
  constructor
  · intro h
    have hok : header_ok plainConfig (int32 64) hugeHeader = true := by decide +kernel
    have hexact := h 64 plainConfig hugeHeader (by decide) hok (by decide)
    exact absurd hexact.1 (by decide)
  · intro h
    have hexact := h 42 Ig9.tinyConfig hugeTree (by decide) (by decide) (by decide) (by decide)
      (by decide)
    exact absurd hexact (by decide)

end Boxing.Iburn
