import Boxing.Fdt.Tags
import Boxing.C.Num

/-!
# The tags of a device tree in memory

`fdt.c` on the bytes of a blob: memory is the list of bytes from the blob on, and a place in
the structure block is an `int` counted from where `off_dt_struct` says.  Every access goes by
way of `fdt_offset_ptr`, which adds in `unsigned int` and looks whether a sum has wrapped.

For a blob of less than 2 GiB all of that arithmetic comes down to one bound (`Fits`,
`fdt_offset_ptr_eq`), with one exception: `fdt_next_tag` adds the length word of a property
without looking.  A length of `2 ^ 32 - 12` or more wraps to a length of less than twelve, which
is inside of the blob again (`fdt_next_tag_prop`); for the first of them the next tag is the
same property.
-/

namespace Boxing.Fdt.Raw

open C

/-! ### `fdt.h`, `libfdt.h` -/

/-- `FDT_MAGIC`. -/
def FDT_MAGIC : Nat := 0xd00dfeed

/-- `FDT_SW_MAGIC`. -/
def FDT_SW_MAGIC : Nat := 0x2ff20112

/-- `FDT_TAGSIZE`. -/
def FDT_TAGSIZE : Nat := 4

/-- `FDT_BEGIN_NODE`. -/
def FDT_BEGIN_NODE : Nat := 1

/-- `FDT_END_NODE`. -/
def FDT_END_NODE : Nat := 2

/-- `FDT_PROP`. -/
def FDT_PROP : Nat := 3

/-- `FDT_NOP`. -/
def FDT_NOP : Nat := 4

/-- `FDT_END`. -/
def FDT_END : Nat := 9

/-- `fdt_magic(fdt)`. -/
def fdt_magic (fdt : Bytes) : Nat := be32 fdt 0

/-- `fdt_totalsize(fdt)`. -/
def fdt_totalsize (fdt : Bytes) : Nat := be32 fdt 4

/-- `fdt_off_dt_struct(fdt)`. -/
def fdt_off_dt_struct (fdt : Bytes) : Nat := be32 fdt 8

/-- `fdt_off_dt_strings(fdt)`. -/
def fdt_off_dt_strings (fdt : Bytes) : Nat := be32 fdt 12

/-- `fdt_version(fdt)`. -/
def fdt_version (fdt : Bytes) : Nat := be32 fdt 20

/-- `fdt_last_comp_version(fdt)`. -/
def fdt_last_comp_version (fdt : Bytes) : Nat := be32 fdt 24

/-- `fdt_size_dt_strings(fdt)`. -/
def fdt_size_dt_strings (fdt : Bytes) : Nat := be32 fdt 32

/-- `fdt_size_dt_struct(fdt)`. -/
def fdt_size_dt_struct (fdt : Bytes) : Nat := be32 fdt 36

/-- `fdt_check_header(fdt)`: 0, `-FDT_ERR_BADVERSION`, `-FDT_ERR_BADSTATE` or
`-FDT_ERR_BADMAGIC`. -/
def fdt_check_header (fdt : Bytes) : Int :=
  if fdt_magic fdt = FDT_MAGIC then
    if fdt_version fdt < 0x10 then -10
    else if 0x11 < fdt_last_comp_version fdt then -10
    else 0
  else if fdt_magic fdt = FDT_SW_MAGIC then
    if fdt_size_dt_struct fdt = 0 then -7 else 0
  else -9

/-- An `int` as an `unsigned int`. -/
def unsigned (x : Int) : Nat := (x % 2 ^ 32).toNat

/-- `FDT_TAGALIGN(x)`, stored in an `int`. -/
def FDT_TAGALIGN (x : Int) : Int := int32 ((x + 3) / 4 * 4)

/-- `fdt_offset_ptr(fdt, offset, len)`: the place in memory, or NULL. -/
def fdt_offset_ptr (fdt : Bytes) (offset : Int) (len : Nat) : Option Nat :=
  let absoffset := (unsigned offset + fdt_off_dt_struct fdt) % 2 ^ 32
  if absoffset < unsigned offset ∨ (absoffset + len) % 2 ^ 32 < absoffset ∨
      fdt_totalsize fdt < (absoffset + len) % 2 ^ 32 then none
  else if 0x11 ≤ fdt_version fdt ∧ ((unsigned offset + len) % 2 ^ 32 < unsigned offset ∨
      fdt_size_dt_struct fdt < (unsigned offset + len) % 2 ^ 32) then none
  else some absoffset

/-- `do { p = fdt_offset_ptr(fdt, offset++, 1); } while (p && (*p != '\0'));` with at most `n`
turns: the offset behind the NUL. -/
def skip_name (fdt : Bytes) : Nat → Int → Option Int
  | 0, _ => none
  | n + 1, offset =>
    (fdt_offset_ptr fdt offset 1).bind fun p =>
      if fdt.getD p 0 = 0 then some (offset + 1) else skip_name fdt n (offset + 1)

/-- The `switch` of `fdt_next_tag`: the offset behind the tag, or none where it is `FDT_END`.
A name has no more characters than the blob has bytes. -/
def skip_tag (fdt : Bytes) (tag : Nat) (offset : Int) : Option Int :=
  if tag = FDT_BEGIN_NODE then skip_name fdt (fdt_totalsize fdt + 1) offset
  else if tag = FDT_PROP then
    (fdt_offset_ptr fdt offset 4).map fun lenp => int32 (offset + 8 + be32 fdt lenp)
  else if tag = FDT_END ∨ tag = FDT_END_NODE ∨ tag = FDT_NOP then some offset
  else none

/-- `fdt_next_tag(fdt, startoffset, &nextoffset)`: the tag and `nextoffset`. -/
def fdt_next_tag (fdt : Bytes) (startoffset : Int) : Nat × Int :=
  (fdt_offset_ptr fdt startoffset FDT_TAGSIZE).elim (FDT_END, -FDT_ERR_TRUNCATED) fun tagp =>
    (skip_tag fdt (be32 fdt tagp) (startoffset + FDT_TAGSIZE)).elim
        (FDT_END, -FDT_ERR_BADSTRUCTURE) fun offset =>
      (fdt_offset_ptr fdt startoffset (unsigned (offset - startoffset))).elim
        (FDT_END, -FDT_ERR_BADSTRUCTURE) fun _ => (be32 fdt tagp, FDT_TAGALIGN offset)

/-! ### Places -/

/-- The first `n` bytes of the structure block are inside of it. -/
def Fits (fdt : Bytes) (n : Nat) : Prop :=
  fdt_off_dt_struct fdt + n ≤ fdt_totalsize fdt ∧ (0x11 ≤ fdt_version fdt → n ≤ fdt_size_dt_struct fdt)

instance (fdt : Bytes) (n : Nat) : Decidable (Fits fdt n) := by
  unfold Fits
  infer_instance

/-- A blob that is in memory, and whose offsets an `int` can count. -/
structure Mapped (fdt : Bytes) : Prop where
  within : fdt_totalsize fdt ≤ fdt.length
  lt : fdt_totalsize fdt + 4 ≤ 2 ^ 31

variable {fdt : Bytes} {o n : Nat}

theorem unsigned_natCast (h : o < 2 ^ 32) : unsigned o = o := by
  rw [unsigned]
  omega

/-- A sum that has been stored in an `int` is right as an `unsigned int`. -/
theorem int32_emod_sub (x y : Int) : (int32 x - y) % 2 ^ 32 = (x - y) % 2 ^ 32 := by
  rw [int32, Int.bmod_def]
  split
  · omega
  · omega

theorem FDT_TAGALIGN_natCast (h : o + 4 ≤ 2 ^ 31) : FDT_TAGALIGN o = ((o + 3) / 4 * 4 : Nat) := by
  rw [FDT_TAGALIGN, int32_of_lt (by omega) (by omega)]
  omega

theorem Fits.mono {k : Nat} (h : Fits fdt n) (hk : k ≤ n) : Fits fdt k :=
  ⟨by have := h.1; omega, fun hv => by have := h.2 hv; omega⟩

theorem Fits.lt (hm : Mapped fdt) (h : Fits fdt n) : n + 4 ≤ 2 ^ 31 := by
  have h1 := h.1
  have h2 := hm.lt
  omega

/-- **`fdt_offset_ptr`** in a blob that is in memory: no sum wraps unseen. -/
theorem fdt_offset_ptr_eq (hm : Mapped fdt) (ho : o < 2 ^ 31) (hn : n < 2 ^ 32) :
    fdt_offset_ptr fdt o n = if Fits fdt (o + n) then some (fdt_off_dt_struct fdt + o) else none := by
  have hs : fdt_off_dt_struct fdt < 2 ^ 32 := be32_lt _ _
  have hz : fdt_size_dt_struct fdt < 2 ^ 32 := be32_lt _ _
  have ht := hm.lt
  rw [fdt_offset_ptr, unsigned_natCast (by omega)]
  by_cases hfits : Fits fdt (o + n)
  · obtain ⟨h1, h2⟩ := hfits
    have habs : (o + fdt_off_dt_struct fdt) % 2 ^ 32 = fdt_off_dt_struct fdt + o := by omega
    rw [if_pos (show Fits fdt (o + n) from ⟨h1, h2⟩), if_neg (by omega), if_neg, habs]
    rintro ⟨hv, h⟩
    have := h2 hv
    omega
  · rw [if_neg hfits]
    by_cases habs : (o + fdt_off_dt_struct fdt) % 2 ^ 32 < o ∨
        ((o + fdt_off_dt_struct fdt) % 2 ^ 32 + n) % 2 ^ 32 < (o + fdt_off_dt_struct fdt) % 2 ^ 32 ∨
          fdt_totalsize fdt < ((o + fdt_off_dt_struct fdt) % 2 ^ 32 + n) % 2 ^ 32
    · rw [if_pos habs]
    rw [if_neg habs, if_pos]
    -- the sums are right, so it is the size of the block that is too small
    by_cases hv : 0x11 ≤ fdt_version fdt
    · refine ⟨hv, ?_⟩
      by_contra hcon
      exact hfits ⟨by omega, fun _ => by omega⟩
    · exact absurd ⟨by omega, fun h => absurd h hv⟩ hfits

/-! ### One tag -/

/-- The tag word at a place. -/
def word (fdt : Bytes) (o : Nat) : Nat := be32 fdt (fdt_off_dt_struct fdt + o)

/-- The string at a place. -/
def name (fdt : Bytes) (o : Nat) : Bytes := str (fdt.drop (fdt_off_dt_struct fdt + o))

/-- How many bytes the tag at a place says it has, as `unsigned int`. -/
def extent (fdt : Bytes) (o : Nat) : Option Nat :=
  if word fdt o = FDT_BEGIN_NODE then some (4 + (name fdt (o + 4)).length + 1)
  else if word fdt o = FDT_PROP then
    if Fits fdt (o + 8) then some ((12 + word fdt (o + 4)) % 2 ^ 32) else none
  else if word fdt o = FDT_END ∨ word fdt o = FDT_END_NODE ∨ word fdt o = FDT_NOP then some 4
  else none

theorem skip_name_eq (hm : Mapped fdt) : ∀ n o : Nat, o < 2 ^ 31 →
    fdt_totalsize fdt < fdt_off_dt_struct fdt + o + n →
      skip_name fdt n o = if Fits fdt (o + (name fdt o).length + 1) then
        some ((o + (name fdt o).length + 1 : Nat) : Int) else none := by
  intro n
  induction n with
  | zero =>
    intro o _ hn
    rw [skip_name, if_neg]
    intro h
    have := h.1
    omega
  | succ n ih =>
    intro o ho hn
    rw [skip_name, fdt_offset_ptr_eq hm ho (by omega)]
    by_cases hfits : Fits fdt (o + 1)
    · have hlt : fdt_off_dt_struct fdt + o < fdt.length := by
        have h1 := hfits.1
        have h2 := hm.within
        omega
      have hnext := hfits.lt hm
      have hdrop : fdt.drop (fdt_off_dt_struct fdt + o) =
          fdt[fdt_off_dt_struct fdt + o] :: fdt.drop (fdt_off_dt_struct fdt + (o + 1)) := by
        rw [← Nat.add_assoc]
        exact List.drop_eq_getElem_cons hlt
      rw [if_pos hfits, Option.bind_some, List.getD_eq_getElem _ _ hlt]
      by_cases hz : fdt[fdt_off_dt_struct fdt + o] = 0
      · have hname : name fdt o = [] := by
          rw [name, hdrop, str, List.takeWhile_cons_of_neg (by simpa using hz)]
        rw [if_pos hz, hname, List.length_nil, if_pos hfits]
        rfl
      · have hname : name fdt o = fdt[fdt_off_dt_struct fdt + o] :: name fdt (o + 1) := by
          rw [name, hdrop, str, List.takeWhile_cons_of_pos (by simpa using hz)]
          rfl
        have hlen : o + (name fdt o).length + 1 = o + 1 + (name fdt (o + 1)).length + 1 := by
          rw [hname, List.length_cons]
          omega
        rw [if_neg hz, hlen]
        exact ih (o + 1) (by omega) (by omega)
    · rw [if_neg hfits, Option.bind_none, if_neg fun h => hfits (h.mono (by omega))]

/-- **`fdt_next_tag`** in a blob that is in memory. -/
theorem fdt_next_tag_eq (hm : Mapped fdt) (ho : o < 2 ^ 31) :
    fdt_next_tag fdt o =
      if Fits fdt (o + 4) then
        (extent fdt o).elim (FDT_END, -FDT_ERR_BADSTRUCTURE) fun n =>
          if Fits fdt (o + n) then (word fdt o, (((o + n + 3) / 4 * 4 : Nat) : Int))
          else (FDT_END, -FDT_ERR_BADSTRUCTURE)
      else (FDT_END, -FDT_ERR_TRUNCATED) := by
  have hlen : word fdt (o + 4) < 2 ^ 32 := be32_lt _ _
  have htag : FDT_TAGSIZE = 4 := rfl
  rw [fdt_next_tag, fdt_offset_ptr_eq hm ho (by decide), htag]
  by_cases h4 : Fits fdt (o + 4)
  swap
  · rw [if_neg h4, if_neg h4, Option.elim_none]
  have hlt := h4.lt hm
  rw [if_pos h4, if_pos h4, Option.elim_some]
  -- where the tag ends is looked at once more
  have hend : ∀ (offset : Int) (n : Nat), n < 2 ^ 32 → unsigned (offset - o) = n →
      (o + n < 2 ^ 31 → offset = ((o + n : Nat) : Int)) →
        (fdt_offset_ptr fdt o (unsigned (offset - o))).elim (FDT_END, -FDT_ERR_BADSTRUCTURE)
            (fun _ => (word fdt o, FDT_TAGALIGN offset)) =
          if Fits fdt (o + n) then (word fdt o, (((o + n + 3) / 4 * 4 : Nat) : Int))
          else (FDT_END, -FDT_ERR_BADSTRUCTURE) := by
    intro offset n hn hsub hoffset
    rw [hsub, fdt_offset_ptr_eq hm ho hn]
    by_cases h : Fits fdt (o + n)
    · have hle := h.lt hm
      rw [if_pos h, if_pos h, Option.elim_some, hoffset (by omega), FDT_TAGALIGN_natCast hle]
    · rw [if_neg h, if_neg h, Option.elim_none]
  have hnat : ∀ n : Nat, n < 2 ^ 32 → unsigned (((o + n : Nat) : Int) - o) = n := by
    intro n hn
    have hsub : ((o + n : Nat) : Int) - o = n := by omega
    rw [hsub, unsigned_natCast hn]
  have hcast : (o : Int) + ((4 : Nat) : Int) = ((o + 4 : Nat) : Int) := by omega
  rw [hcast]
  show (skip_tag fdt (word fdt o) _).elim _ _ = _
  rw [skip_tag, extent]
  by_cases hbegin : word fdt o = FDT_BEGIN_NODE
  · rw [if_pos hbegin, if_pos hbegin, skip_name_eq hm _ _ (by omega) (by omega), Option.elim_some]
    have hsum : o + 4 + (name fdt (o + 4)).length + 1 = o + (4 + (name fdt (o + 4)).length + 1) := by
      omega
    rw [hsum]
    by_cases h : Fits fdt (o + (4 + (name fdt (o + 4)).length + 1))
    · have hle := h.lt hm
      rw [if_pos h, Option.elim_some]
      exact hend _ _ (by omega) (hnat _ (by omega)) fun _ => rfl
    · rw [if_neg h, Option.elim_none, if_neg h]
  rw [if_neg hbegin, if_neg hbegin]
  by_cases hprop : word fdt o = FDT_PROP
  · rw [if_pos hprop, if_pos hprop, fdt_offset_ptr_eq hm (by omega) (by decide)]
    by_cases h8 : Fits fdt (o + 8)
    · rw [if_pos (show Fits fdt (o + 4 + 4) from h8), if_pos h8, Option.map_some,
        Option.elim_some, Option.elim_some]
      show (fdt_offset_ptr fdt o (unsigned (int32 (_ + 8 + word fdt (o + 4)) - o))).elim _
        (fun _ => (_, FDT_TAGALIGN (int32 (_ + 8 + word fdt (o + 4))))) = _
      refine hend _ _ (Nat.mod_lt _ (by decide)) ?_ fun hle => ?_
      · rw [unsigned, int32_emod_sub]
        omega
      · rw [int32, Int.bmod_def]
        split
        · omega
        · omega
    · rw [if_neg (show ¬ Fits fdt (o + 4 + 4) from h8), if_neg h8]
      rfl
  rw [if_neg hprop, if_neg hprop]
  by_cases hother : word fdt o = FDT_END ∨ word fdt o = FDT_END_NODE ∨ word fdt o = FDT_NOP
  · rw [if_pos hother, if_pos hother, Option.elim_some, Option.elim_some]
    exact hend _ 4 (by decide) (hnat 4 (by decide)) fun _ => rfl
  · rw [if_neg hother, if_neg hother, Option.elim_none, Option.elim_none]

/-! ### From tag to tag -/

/-- A place that `FDT_TAGALIGN` gives. -/
theorem FDT_TAGALIGN_emod (x : Int) : FDT_TAGALIGN x % 4 = 0 := by
  rw [FDT_TAGALIGN, int32, Int.bmod_def]
  split
  · omega
  · omega

theorem skip_tag_some {tag : Nat} {offset offset' : Int} (h : skip_tag fdt tag offset = some offset') :
    tag = FDT_BEGIN_NODE ∨ tag = FDT_PROP ∨ tag = FDT_END ∨ tag = FDT_END_NODE ∨ tag = FDT_NOP := by
  rw [skip_tag] at h
  by_cases hbegin : tag = FDT_BEGIN_NODE
  · exact Or.inl hbegin
  by_cases hprop : tag = FDT_PROP
  · exact Or.inr (Or.inl hprop)
  rw [if_neg hbegin, if_neg hprop] at h
  split at h
  · rename_i hother
    exact Or.inr (Or.inr hother)
  · cases h

/-- What `fdt_next_tag` gives is an error at `FDT_END`, or a tag and a multiple of four. -/
theorem fdt_next_tag_cases {startoffset : Int} {tag : Nat} {nextoffset : Int}
    (h : fdt_next_tag fdt startoffset = (tag, nextoffset)) :
    tag = FDT_END ∧ (nextoffset = -FDT_ERR_TRUNCATED ∨ nextoffset = -FDT_ERR_BADSTRUCTURE) ∨
      nextoffset % 4 = 0 ∧ (tag = FDT_BEGIN_NODE ∨ tag = FDT_PROP ∨ tag = FDT_END ∨
        tag = FDT_END_NODE ∨ tag = FDT_NOP) := by
  rw [fdt_next_tag] at h
  cases hp : fdt_offset_ptr fdt startoffset FDT_TAGSIZE with
  | none =>
    rw [hp] at h
    cases h
    exact Or.inl ⟨rfl, Or.inl rfl⟩
  | some tagp =>
    rw [hp, Option.elim_some] at h
    cases hskip : skip_tag fdt (be32 fdt tagp) (startoffset + FDT_TAGSIZE) with
    | none =>
      rw [hskip] at h
      cases h
      exact Or.inl ⟨rfl, Or.inr rfl⟩
    | some offset =>
      rw [hskip, Option.elim_some] at h
      cases hend : fdt_offset_ptr fdt startoffset (unsigned (offset - startoffset)) with
      | none =>
        rw [hend] at h
        cases h
        exact Or.inl ⟨rfl, Or.inr rfl⟩
      | some _ =>
        rw [hend, Option.elim_some] at h
        cases h
        exact Or.inr ⟨FDT_TAGALIGN_emod offset, skip_tag_some hskip⟩

/-- The property whose length is `-12`, as an `int`: the next tag is the property itself. -/
def Stays (fdt : Bytes) (o : Nat) : Prop := word fdt o = FDT_PROP ∧ word fdt (o + 4) = 2 ^ 32 - 12

/-- **One step**: a tag that is found is inside of the blob, and what follows it comes behind
it, unless it is a property that stays. -/
theorem fdt_next_tag_step (hm : Mapped fdt) (h4 : o % 4 = 0) (ho : o < 2 ^ 31) {tag : Nat}
    {nextoffset : Int} (h : fdt_next_tag fdt o = (tag, nextoffset)) :
    tag = FDT_END ∧ (nextoffset = -FDT_ERR_TRUNCATED ∨ nextoffset = -FDT_ERR_BADSTRUCTURE) ∨
      ∃ k : Nat, nextoffset = ((o + k : Nat) : Int) ∧ k % 4 = 0 ∧ tag = word fdt o ∧
        fdt_off_dt_struct fdt + (o + k) < fdt_totalsize fdt + 4 ∧ (k = 0 ↔ Stays fdt o) := by
  rw [fdt_next_tag_eq hm ho] at h
  split at h
  swap
  · cases h
    exact Or.inl ⟨rfl, Or.inl rfl⟩
  cases hextent : extent fdt o with
  | none =>
    rw [hextent, Option.elim_none] at h
    cases h
    exact Or.inl ⟨rfl, Or.inr rfl⟩
  | some n =>
    rw [hextent, Option.elim_some] at h
    split at h
    swap
    · cases h
      exact Or.inl ⟨rfl, Or.inr rfl⟩
    rename_i hfits
    have h1 := hfits.1
    cases h
    refine Or.inr ⟨(n + 3) / 4 * 4, by omega, by omega, rfl, by omega, ?_⟩
    have hlen : word fdt (o + 4) < 2 ^ 32 := be32_lt _ _
    rw [extent] at hextent
    by_cases hbegin : word fdt o = FDT_BEGIN_NODE
    · rw [if_pos hbegin] at hextent
      obtain rfl := Option.some.inj hextent
      exact iff_of_false (by omega) fun hs => absurd (hbegin.symm.trans hs.1) (by decide)
    rw [if_neg hbegin] at hextent
    by_cases hprop : word fdt o = FDT_PROP
    · rw [if_pos hprop] at hextent
      split at hextent
      swap
      · cases hextent
      obtain rfl := Option.some.inj hextent
      rw [Stays, and_iff_right hprop]
      omega
    rw [if_neg hprop] at hextent
    split at hextent
    swap
    · cases hextent
    obtain rfl := Option.some.inj hextent
    exact iff_of_false (by decide) fun hs => hprop hs.1

end Boxing.Fdt.Raw
