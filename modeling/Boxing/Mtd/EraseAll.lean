import Boxing.Mtd.Erase

/-!
# Erasing a whole chip

`flash_eraseall` works out how many sectors there are from MEMGETINFO, the size of
the chip over the size of a sector, and has `flash_erase` erase that many.  On a
chip with regions the size that MEMGETINFO reports is that of the largest sector,
so where the sectors differ the number is too small, and the walk of
`region_erase` stops before the end of the chip.

`flash_eraseall_iff` says that nothing else is left out, but for the chip with so
many sectors that their number is no `int`.
-/

namespace Boxing.Mtd

open C

/-- `flash_eraseall(devname)`; `none` is the division by a sector size of 0. -/
def flash_eraseall (chip : Chip) : Option (List Erase × Int) :=
  if chip.opens = false then some ([], -1)
  else
    match chip.info with
    | none => some (flash_erase chip 0 1)
    | some mi =>
      if mi.erasesize = 0 then none
      else some (flash_erase chip 0 (int32 ((mi.size / mi.erasesize).toNat : Nat)))

/-- The address lies in one of the sectors. -/
def Hit (l : List Sector) (x : Nat) : Prop := ∃ s ∈ l, s.start ≤ x ∧ x < s.stop

/-- A chip as MEMGETINFO and the table of regions describe it: sectors of one size that
fill it, or regions that fill it, with the size of the largest sector. -/
inductive Geometry (info : Info) : List Region → Prop
  | uniform : 0 < info.erasesize.toNat → info.erasesize.toNat ∣ info.size.toNat → Geometry info []
  | regions {r : Region} {rest : List Region} :
      Contiguous 0 (r :: rest) info.size.toNat →
      (∀ r' ∈ r :: rest, r'.erasesize.toNat ≤ info.erasesize.toNat) →
      (∃ r' ∈ r :: rest, r'.erasesize = info.erasesize) → Geometry info (r :: rest)

/-! ### The number of sectors -/

theorem toNat_int32 {n : Nat} (h : n < 2 ^ 32) :
    (int32 (n : Int)).toNat = if n < 2 ^ 31 then n else 0 := by
  split
  · rename_i hn
    rw [int32_of_lt (by omega) (by omega), Int.toNat_natCast]
  · rename_i hn
    have hneg : int32 (n : Int) = n - 2 ^ 32 := by
      rw [int32, Int.bmod_def]
      omega
    rw [hneg]
    omega

/-- Sectors no larger than `M` fill a table exactly when all of them are that large. -/
theorem Contiguous.length_mul {M : Nat} {regions : List Region} {a b : Nat}
    (h : Contiguous a regions b) (hM : ∀ r ∈ regions, r.erasesize.toNat ≤ M) :
    b ≤ a + (sectors regions).length * M ∧
      (a + (sectors regions).length * M ≤ b ↔ ∀ r ∈ regions, r.erasesize.toNat = M) := by
  induction regions generalizing a with
  | nil =>
    rw [show a = b from h, sectors, List.flatMap_nil, List.length_nil, Nat.zero_mul, Nat.add_zero]
    exact ⟨le_refl b, fun _ r hr => absurd hr List.not_mem_nil, fun _ => le_refl b⟩
  | cons r rest ih =>
    obtain ⟨ha, -, hn, hrest⟩ := h
    obtain ⟨hle, hiff⟩ := ih hrest fun r' hr' => hM r' (List.mem_cons_of_mem r hr')
    have hr := Nat.mul_le_mul_left r.numblocks.toNat (hM r List.mem_cons_self)
    have hlen : (sectors (r :: rest)).length * M
        = r.numblocks.toNat * M + (sectors rest).length * M := by
      rw [sectors, List.flatMap_cons, List.length_append, length_sectors, Nat.add_mul]
      rfl
    rw [Region.top, ha] at hle hiff
    rw [hlen]
    refine ⟨by omega, fun hge => ?_, fun hall => ?_⟩
    · have hrest' := hiff.mp (by omega)
      have hmul : r.numblocks.toNat * M ≤ r.numblocks.toNat * r.erasesize.toNat := by omega
      have hr' := Nat.le_of_mul_le_mul_left hmul hn
      intro r' hr''
      rcases List.mem_cons.mp hr'' with rfl | hmem
      · exact le_antisymm (hM _ List.mem_cons_self) hr'
      · exact hrest' r' hmem
    · have := hiff.mpr fun r' hr' => hall r' (List.mem_cons_of_mem r hr')
      rw [hall r List.mem_cons_self] at this
      omega

/-! ### What is hit -/

/-- The first sector ends before the second begins. -/
def Before (s t : Sector) : Prop := s.stop ≤ t.start

instance : IsTrans Sector Before where
  trans s t u hst htu := by
    have htt : t.start ≤ t.stop := Nat.le_add_right _ _
    exact (hst.trans htt).trans htu

theorem pairwise_sectors {a b : Nat} {regions : List Region} (h : Contiguous a regions b) :
    (sectors regions).Pairwise Before :=
  List.isChain_iff_pairwise.mp ((isChain_sectors h).imp fun _ _ hadj => le_of_eq hadj.symm)

theorem hit_sectors {a b : Nat} {regions : List Region} (h : Contiguous a regions b) {x : Nat}
    (hx : a ≤ x ∧ x < b) : Hit (sectors regions) x := by
  induction regions generalizing a with
  | nil =>
    have hab : a = b := h
    omega
  | cons r rest ih =>
    obtain ⟨ha, hsize, -, hrest⟩ := h
    rw [sectors, List.flatMap_cons]
    by_cases htop : x < r.top
    · refine ⟨r.sector ((x - a) / r.erasesize.toNat),
        List.mem_append_left _ (mem_sectors.mpr ⟨_, ?_, rfl⟩), ?_⟩
      · rw [Nat.div_lt_iff_lt_mul hsize]
        rw [Region.top] at htop
        omega
      · have hdiv := Nat.div_add_mod (x - a) r.erasesize.toNat
        have hmod := Nat.mod_lt (x - a) hsize
        rw [Nat.mul_comm] at hdiv
        simp only [Region.sector, Sector.stop]
        omega
    · obtain ⟨s, hs, hin⟩ := ih hrest ⟨by omega, hx.2⟩
      exact ⟨s, List.mem_append_right _ hs, hin⟩

/-- The first `m` sectors reach the end of the table when there are no more than `m`. -/
theorem hit_take_iff {a b m : Nat} {regions : List Region} (h : Contiguous a regions b) :
    (∀ x, a ≤ x ∧ x < b → Hit ((sectors regions).take m) x) ↔ (sectors regions).length ≤ m := by
  constructor
  · intro hhit
    by_contra hlt
    -- the first sector that is left out begins at an address that nothing hits
    have hm : m < (sectors regions).length := by omega
    have hmem := List.getElem_mem hm
    obtain ⟨r, hr, hlen, -, -, ha, hb⟩ := sectors_within h _ hmem
    have hpos := (h.within hr).2.2.1
    rw [Sector.stop] at hb
    obtain ⟨s, hs, hin⟩ := hhit (sectors regions)[m].start ⟨ha, by omega⟩
    obtain ⟨j, hj, rfl⟩ := List.mem_take_iff_getElem.mp hs
    have hbefore : (sectors regions)[j].stop ≤ (sectors regions)[m].start :=
      List.pairwise_iff_getElem.mp (pairwise_sectors h) j m (by omega) hm (by omega)
    omega
  · intro hle x hx
    rw [List.take_of_length_le hle]
    exact hit_sectors h hx

/-! ### Both kinds of chip -/

section Chip

variable {chip : Chip} {info : Info}

/-- The requests of a chip without regions. -/
theorem erase_units_sectors {regions : List Region} (hworks : chip.Works info regions)
    (erasesize : UInt32) : ∀ (n k : Nat) (start : UInt32) (done : List Erase),
    start.toNat = k * erasesize.toNat → (k + n) * erasesize.toNat < 2 ^ 32 →
    ∃ new, erase_units chip 0 erasesize n start done = (done ++ new, 0) ∧
      new.map Erase.sector
        = (List.range' k n).map fun i => (⟨i * erasesize.toNat, erasesize.toNat⟩ : Sector) := by
  intro n
  induction n with
  | zero => exact fun k start done _ _ => ⟨[], by rw [erase_units, List.append_nil], rfl⟩
  | succ n ih =>
    intro k start done hstart hlt
    have hle : (k + 1) * erasesize.toNat ≤ (k + (n + 1)) * erasesize.toNat :=
      Nat.mul_le_mul_right _ (by omega)
    have hnext : (start + erasesize).toNat = (k + 1) * erasesize.toNat := by
      rw [UInt32.toNat_add, hstart, Nat.add_mul, Nat.one_mul]
      rw [Nat.add_mul, Nat.one_mul] at hle
      exact Nat.mod_eq_of_lt (by omega)
    obtain ⟨new, hnew, hmap⟩ := ih (k + 1) (start + erasesize) (done ++ [⟨start, erasesize⟩]) hnext
      (by rw [show k + 1 + n = k + (n + 1) by omega]; exact hlt)
    have herase : ¬ chip.erases done ⟨start, erasesize⟩ = false := by
      rw [hworks.erases]
      decide
    refine ⟨⟨start, erasesize⟩ :: new, ?_, ?_⟩
    · rw [erase_units]
      simp only [ne_eq, not_true_eq_false, false_and, if_false, if_neg herase]
      rw [hnew, List.append_assoc]
      rfl
    · rw [List.map_cons, hmap, List.range'_succ, List.map_cons, Erase.sector, hstart]

theorem flash_erase_uniform (hworks : chip.Works info []) {n : Nat}
    (hn : n * info.erasesize.toNat < 2 ^ 32) {count : Int} (hcount : count.toNat = n) :
    ∃ requests, flash_erase chip 0 count = (requests, 0) ∧
      requests.map Erase.sector = (List.range' 0 n).map fun i =>
        (⟨i * info.erasesize.toNat, info.erasesize.toNat⟩ : Sector) := by
  obtain ⟨new, hnew, hmap⟩ := erase_units_sectors hworks info.erasesize n 0 0 []
    (by rw [Nat.zero_mul]; rfl) (by rw [Nat.zero_add]; exact hn)
  refine ⟨new, ?_, hmap⟩
  have hcnt : chip.regcount = some 0 := hworks.regcount
  rw [flash_erase, hworks.opens, hcnt]
  simp only [Bool.true_eq_false, if_false, non_region_erase, hworks.info, hcount]
  exact hnew

theorem flash_erase_regions {r : Region} {rest : List Region}
    (hworks : chip.Works info (r :: rest)) (hcont : Contiguous 0 (r :: rest) info.size.toNat)
    (count : Int) :
    ∃ requests, flash_erase chip 0 count = (requests, 0) ∧
      requests.map Erase.sector = (sectors (r :: rest)).take count.toNat := by
  have hoff : r.offset.toNat = 0 := hcont.1
  obtain ⟨-, -, hsize, hn⟩ := hcont.within List.mem_cons_self
  have htop : 0 < r.top := by
    rw [Region.top]
    exact Nat.add_pos_right _ (Nat.mul_pos hn hsize)
  have hstart : r.offset.toNat ≤ (0 : UInt32).toNat ∧ (0 : UInt32).toNat < r.top := by
    rw [hoff]
    exact ⟨Nat.zero_le _, htop⟩
  obtain ⟨requests, hout, hmap⟩ := region_erase_eq hworks hcont info.size.toNat_lt
    List.mem_cons_self hstart (by rw [hoff]; exact ⟨0, rfl⟩) count 0
  refine ⟨requests, ?_, ?_⟩
  · have hcnt : chip.regcount = some (rest.length + 1) := hworks.regcount
    rw [flash_erase, hworks.opens, hcnt]
    simp only [Bool.true_eq_false, if_false]
    exact hout
  · rw [hmap, List.filter_eq_self.mpr fun s _ => decide_eq_true (Nat.zero_le s.start)]

end Chip

/-- What `flash_eraseall` passes on, when everything it asks for is answered. -/
theorem flash_eraseall_eq {chip : Chip} {info : Info} {regions : List Region}
    (hworks : chip.Works info regions) (hsize : 0 < info.erasesize.toNat) :
    ∃ count : Int, flash_eraseall chip = some (flash_erase chip 0 count) ∧
      count.toNat = if info.size.toNat / info.erasesize.toNat < 2 ^ 31 then
        info.size.toNat / info.erasesize.toNat else 0 := by
  have hne : info.erasesize ≠ 0 := by
    intro h
    rw [h] at hsize
    exact absurd hsize (by decide)
  have hlt : info.size.toNat / info.erasesize.toNat < 2 ^ 32 :=
    Nat.lt_of_le_of_lt (Nat.div_le_self _ _) info.size.toNat_lt
  refine ⟨_, ?_, toNat_int32 hlt⟩
  rw [flash_eraseall, hworks.opens, hworks.info]
  simp only [Bool.true_eq_false, if_false, if_neg hne, UInt32.toNat_div]

theorem Geometry.pos {info : Info} {regions : List Region} (h : Geometry info regions) :
    0 < info.erasesize.toNat := by
  cases h with
  | uniform hsize _ => exact hsize
  | regions hcont _ hlargest =>
    obtain ⟨r, hr, he⟩ := hlargest
    rw [← he]
    exact (hcont.within hr).2.2.1

/-- The sectors of a chip of one size, hit up to a number of them. -/
theorem hit_uniform_iff {es size m : Nat} (hes : 0 < es) (hdvd : es ∣ size) :
    (∀ x < size, Hit ((List.range' 0 m).map fun i => (⟨i * es, es⟩ : Sector)) x) ↔
      size / es ≤ m := by
  constructor
  · intro hhit
    by_contra hlt
    have hm : m * es < size := by
      rw [← Nat.lt_div_iff_mul_lt_of_dvd (by omega) hdvd]
      omega
    obtain ⟨s, hs, -, hstop⟩ := hhit (m * es) hm
    obtain ⟨i, hi, rfl⟩ := List.mem_map.mp hs
    have hi' : i + 1 ≤ m := by
      have := (List.mem_range'_1.mp hi).2
      omega
    have hle := Nat.mul_le_mul_right es hi'
    rw [Nat.add_mul, Nat.one_mul] at hle
    rw [Sector.stop] at hstop
    exact absurd hstop (Nat.not_lt.mpr hle)
  · intro hle x hx
    have hi : x / es < m := Nat.lt_of_lt_of_le (Nat.div_lt_div_of_lt_of_dvd hdvd hx) hle
    have hdiv := Nat.div_add_mod x es
    have hmod := Nat.mod_lt x hes
    rw [Nat.mul_comm] at hdiv
    refine ⟨⟨x / es * es, es⟩, List.mem_map.mpr ⟨x / es, ?_, rfl⟩, ?_⟩
    · exact List.mem_range'_1.mpr ⟨Nat.zero_le _, by omega⟩
    · simp only [Sector.stop]
      omega

/-- **Is everything erased?**  Exactly when the sectors have one size and there are
fewer than 2^31 of them. -/
theorem flash_eraseall_iff {chip : Chip} {info : Info} {regions : List Region}
    (hworks : chip.Works info regions) (hgeom : Geometry info regions) :
    (∃ requests, flash_eraseall chip = some (requests, 0) ∧
        ∀ x < info.size.toNat, Hit (requests.map Erase.sector) x) ↔
      (∀ r ∈ regions, r.erasesize = info.erasesize) ∧
        info.size.toNat / info.erasesize.toNat < 2 ^ 31 := by
  have hes := hgeom.pos
  obtain ⟨count, hall, hcount⟩ := flash_eraseall_eq hworks hes
  -- the requests are determined, so that `Hit` is about their sectors
  have hdet : ∀ {requests : List Erase} {l : List Sector},
      flash_erase chip 0 count = (requests, 0) → requests.map Erase.sector = l →
      ((∃ requests, flash_eraseall chip = some (requests, 0) ∧
          ∀ x < info.size.toNat, Hit (requests.map Erase.sector) x) ↔
        ∀ x < info.size.toNat, Hit l x) := by
    intro requests l hout hmap
    rw [hall, hout]
    constructor
    · rintro ⟨requests', he, hhit⟩
      obtain rfl := (Prod.mk.inj (Option.some.inj he)).1
      rwa [hmap] at hhit
    · exact fun hhit => ⟨requests, rfl, by rwa [hmap]⟩
  cases hgeom with
  | uniform _ hdvd =>
    have hlt : count.toNat * info.erasesize.toNat < 2 ^ 32 := by
      refine Nat.lt_of_le_of_lt ?_ info.size.toNat_lt
      refine (Nat.mul_le_mul_right _ ?_).trans (Nat.div_mul_le_self _ info.erasesize.toNat)
      rw [hcount]
      split
      · exact le_refl _
      · exact Nat.zero_le _
    obtain ⟨requests, hout, hmap⟩ := flash_erase_uniform hworks hlt rfl
    rw [hdet hout hmap, hit_uniform_iff hes hdvd, hcount]
    constructor
    · intro hle
      refine ⟨fun r hr => absurd hr List.not_mem_nil, ?_⟩
      split at hle
      · assumption
      · omega
    · rintro ⟨-, hlt⟩
      rw [if_pos hlt]
  | @regions r rest hcont hM hlargest =>
    obtain ⟨requests, hout, hmap⟩ := flash_erase_regions hworks hcont count
    have hhit := hit_take_iff (m := count.toNat) hcont
    simp only [Nat.zero_le, true_and] at hhit
    obtain ⟨-, hlen⟩ := hcont.length_mul hM
    rw [Nat.zero_add] at hlen
    have hsame : (∀ r' ∈ r :: rest, r'.erasesize = info.erasesize) ↔
        ∀ r' ∈ r :: rest, r'.erasesize.toNat = info.erasesize.toNat := by
      simp only [UInt32.toNat_inj]
    rw [hdet hout hmap, hhit, hcount, hsame, ← hlen, ← Nat.le_div_iff_mul_le hes]
    constructor
    · intro hle
      split at hle
      · exact ⟨hle, by assumption⟩
      · -- a chip with regions has a sector
        obtain ⟨-, -, -, hn⟩ := hcont.within List.mem_cons_self
        rw [sectors, List.flatMap_cons, List.length_append, length_sectors] at hle
        omega
    · rintro ⟨hle, hlt⟩
      rwa [if_pos hlt]

theorem geometry_smallLarge : Geometry ⟨144, 64⟩ smallLarge :=
  .regions contiguous_smallLarge (by decide) ⟨⟨16, 64, 2⟩, by decide, rfl⟩

/-- Two small sectors and two large ones. -/
theorem flash_eraseall_smallLarge :
    (∃ requests, flash_eraseall (answering ⟨144, 64⟩ smallLarge) = some (requests, 0) ∧
        ∀ x < (⟨144, 64⟩ : Info).size.toNat, Hit (requests.map Erase.sector) x) ↔
      (∀ r ∈ smallLarge, r.erasesize = (⟨144, 64⟩ : Info).erasesize) ∧
        (⟨144, 64⟩ : Info).size.toNat / (⟨144, 64⟩ : Info).erasesize.toNat < 2 ^ 31 :=
  flash_eraseall_iff (works_answering _ _) geometry_smallLarge

/-- The count is 144 / 64 = 2, and only the two small sectors are erased. -/
theorem flash_eraseall_leaves_large :
    ¬ ∀ (chip : Chip) (info : Info) (regions : List Region), chip.Works info regions →
      Geometry info regions → ∃ requests, flash_eraseall chip = some (requests, 0) ∧
        ∀ x < info.size.toNat, Hit (requests.map Erase.sector) x := by
  intro h
  obtain ⟨requests, hout, hhit⟩ := h _ _ _ (works_answering ⟨144, 64⟩ smallLarge)
    geometry_smallLarge
  have hrun : flash_eraseall (answering ⟨144, 64⟩ smallLarge) = some ([⟨0, 8⟩, ⟨8, 8⟩], 0) := by
    decide
  obtain rfl := (Prod.mk.inj (Option.some.inj (hrun.symm.trans hout))).1
  obtain ⟨s, hs, -, hstop⟩ := hhit 16 (by decide)
  have hle : ∀ s ∈ [(⟨0, 8⟩ : Erase), ⟨8, 8⟩].map Erase.sector, s.stop ≤ 16 := by decide
  have := hle s hs
  omega

end Boxing.Mtd
