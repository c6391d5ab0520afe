import Mathlib.Data.List.Chain
import Boxing.C.Num

/-!
# Erasing a flash, sector by sector

A flash chip is erased in sectors, and the sectors need not have one size: a chip
has a table of regions, each with an offset, a number of sectors and their size.
`region_erase` asks for the table, looks for the region that `start` is in, and
walks on from there, an address, a counter and an index into the table at a time.
A chip without a table has sectors of one size, and `non_region_erase` walks those.

`sectors` says where the sectors of a chip are.  `region_erase_sectors` says that
the walk hits exactly the first `count` of them from `start` on, across any number
of regions.

All of these numbers are `__u32`, and `start` is an `int` that is compared with
them and added to them, so it is read as one.
-/

namespace Boxing.Mtd

open C

/-! ### The chip -/

/-- `region_info_t`: where a region is, and its sectors. -/
structure Region where
  offset : UInt32
  erasesize : UInt32
  numblocks : UInt32
deriving DecidableEq, Repr

/-- `mtd_info_t`, as far as it is looked at. -/
structure Info where
  size : UInt32
  erasesize : UInt32
deriving DecidableEq, Repr

/-- `erase_info_t`: one request. -/
structure Erase where
  start : UInt32
  length : UInt32
deriving DecidableEq, Repr

/-- What the device answers; `none` and `false` are calls that fail.  Whether a
request is carried out may depend on the requests before it. -/
structure Chip where
  opens : Bool
  info : Option Info
  regcount : Option Nat
  region : Nat → Option Region
  unlocks : List Erase → Erase → Bool
  erases : List Erase → Erase → Bool

/-- `r->offset + r->numblocks*r->erasesize`. -/
def Region.stop (r : Region) : UInt32 := r.offset + r.numblocks * r.erasesize

/-- The loop over MEMGETREGIONINFO. -/
def region_infos (chip : Chip) : Nat → Option (List Region)
  | 0 => some []
  | n + 1 => (region_infos chip n).bind fun rs => (chip.region n).map fun r => rs ++ [r]

/-- The loop that erases: `n` sectors to go, the regions from the present one on, and
the requests so far.  The result is the requests and the return value. -/
def erase_regions (chip : Chip) (unlock : Int) :
    Nat → UInt32 → List Region → List Erase → List Erase × Int
  | 0, _, _, done => (done, 0)
  | _ + 1, _, [], done => (done, 0)
  | n + 1, start, r :: rest, done =>
    let erase : Erase := ⟨start, r.erasesize⟩
    if unlock ≠ 0 ∧ chip.unlocks done erase = false then (done, 8)
    else if chip.erases done erase = false then (done ++ [erase], 8)
    else if r.stop ≤ start + r.erasesize then
      erase_regions chip unlock n (start + r.erasesize) rest (done ++ [erase])
    else erase_regions chip unlock n (start + r.erasesize) (r :: rest) (done ++ [erase])

/-- `region_erase(Fd, start, count, unlock, regcount)`. -/
def region_erase (chip : Chip) (start : UInt32) (count unlock : Int) (regcount : Nat) :
    List Erase × Int :=
  match region_infos chip regcount with
  | none => ([], 8)
  | some reginfo =>
    match reginfo.dropWhile fun r => ¬ (r.offset ≤ start ∧ start < r.stop) with
    | [] => ([], 8) -- `Starting offset %x not within chip.`
    | rs => erase_regions chip unlock count.toNat start rs []

/-- The loop of `non_region_erase`. -/
def erase_units (chip : Chip) (unlock : Int) (erasesize : UInt32) :
    Nat → UInt32 → List Erase → List Erase × Int
  | 0, _, done => (done, 0)
  | n + 1, start, done =>
    let erase : Erase := ⟨start, erasesize⟩
    if unlock ≠ 0 ∧ chip.unlocks done erase = false then (done, 8)
    else if chip.erases done erase = false then (done ++ [erase], 8)
    else erase_units chip unlock erasesize n (start + erasesize) (done ++ [erase])

/-- `non_region_erase(Fd, start, count, unlock)`. -/
def non_region_erase (chip : Chip) (start : UInt32) (count unlock : Int) : List Erase × Int :=
  match chip.info with
  | none => ([], 0)
  | some meminfo => erase_units chip unlock meminfo.erasesize count.toNat start []

/-- `flash_erase(devname, start, count)`. -/
def flash_erase (chip : Chip) (start : UInt32) (count : Int) : List Erase × Int :=
  if chip.opens = false then ([], 8)
  else
    match chip.regcount with
    | none => ([], 0)
    | some 0 => non_region_erase chip start count 0
    | some regcount => region_erase chip start count 0 regcount

/-! ### Sectors -/

/-- A stretch of the device. -/
structure Sector where
  start : Nat
  length : Nat
deriving DecidableEq, Repr

/-- The first address behind it. -/
def Sector.stop (s : Sector) : Nat := s.start + s.length

/-- One sector begins where the other ends. -/
def Adjacent (s t : Sector) : Prop := t.start = s.stop

/-- What a request is for. -/
def Erase.sector (e : Erase) : Sector := ⟨e.start.toNat, e.length.toNat⟩

/-- The first address behind a region. -/
def Region.top (r : Region) : Nat := r.offset.toNat + r.numblocks.toNat * r.erasesize.toNat

/-- Sector `k` of a region. -/
def Region.sector (r : Region) (k : Nat) : Sector :=
  ⟨r.offset.toNat + k * r.erasesize.toNat, r.erasesize.toNat⟩

/-- The sectors of a region, in address order. -/
def Region.sectors (r : Region) : List Sector := (List.range r.numblocks.toNat).map r.sector

/-- The sectors of a table of regions. -/
def sectors (regions : List Region) : List Sector := regions.flatMap Region.sectors

/-- The regions cover the addresses from `a` to `b`, one behind the other, and none is
empty. -/
def Contiguous (a : Nat) : List Region → Nat → Prop
  | [], b => a = b
  | r :: rest, b => r.offset.toNat = a ∧ 0 < r.erasesize.toNat ∧ 0 < r.numblocks.toNat ∧
      Contiguous r.top rest b

/-- All calls succeed, and the device answers with this size and this table. -/
structure Chip.Works (chip : Chip) (info : Info) (regions : List Region) : Prop where
  opens : chip.opens = true
  info : chip.info = some info
  regcount : chip.regcount = some regions.length
  region : ∀ i < regions.length, chip.region i = regions[i]?
  unlocks : ∀ done e, chip.unlocks done e = true
  erases : ∀ done e, chip.erases done e = true

section Sectors

variable {a b : Nat} {r : Region} {rest regions : List Region}

@[simp] theorem length_sectors (r : Region) : r.sectors.length = r.numblocks.toNat := by
  rw [Region.sectors, List.length_map, List.length_range]

theorem drop_sectors {k : Nat} (h : k < r.numblocks.toNat) :
    r.sectors.drop k = r.sector k :: r.sectors.drop (k + 1) := by
  rw [List.drop_eq_getElem_cons (by rw [length_sectors]; exact h)]
  congr 1
  simp only [Region.sectors, List.getElem_map, List.getElem_range]

theorem mem_sectors {s : Sector} : s ∈ r.sectors ↔ ∃ k < r.numblocks.toNat, s = r.sector k := by
  simp only [Region.sectors, List.mem_map, List.mem_range, eq_comm]

/-- A sector stays inside its region. -/
theorem sector_within {k : Nat} (h : k < r.numblocks.toNat) :
    r.offset.toNat ≤ (r.sector k).start ∧ (r.sector k).stop ≤ r.top := by
  have hmul : (k + 1) * r.erasesize.toNat ≤ r.numblocks.toNat * r.erasesize.toNat :=
    Nat.mul_le_mul_right _ h
  rw [Nat.add_mul, Nat.one_mul] at hmul
  simp only [Region.sector, Sector.stop, Region.top]
  omega

theorem Contiguous.le (h : Contiguous a regions b) : a ≤ b := by
  induction regions generalizing a with
  | nil => exact le_of_eq h
  | cons r rest ih =>
    obtain ⟨ha, -, -, hrest⟩ := h
    have := ih hrest
    rw [Region.top] at this
    omega

/-- A region lies between the ends of its table. -/
theorem Contiguous.within (h : Contiguous a regions b) (hr : r ∈ regions) :
    a ≤ r.offset.toNat ∧ r.top ≤ b ∧ 0 < r.erasesize.toNat ∧ 0 < r.numblocks.toNat := by
  induction regions generalizing a with
  | nil => exact absurd hr List.not_mem_nil
  | cons r₀ rest ih =>
    obtain ⟨ha, hsize, hn, hrest⟩ := h
    rcases List.mem_cons.mp hr with rfl | hmem
    · exact ⟨le_of_eq ha.symm, hrest.le, hsize, hn⟩
    · obtain ⟨h₁, h₂, h₃⟩ := ih hrest hmem
      have htop : r₀.offset.toNat ≤ r₀.top := Nat.le_add_right _ _
      exact ⟨by omega, h₂, h₃⟩

/-- The sectors of a region are adjacent. -/
theorem isChain_region (r : Region) : List.IsChain Adjacent r.sectors := by
  rw [List.isChain_iff_getElem]
  intro i hi
  simp only [Region.sectors, List.getElem_map, List.getElem_range]
  simp only [Adjacent, Region.sector, Sector.stop, Nat.add_mul, Nat.one_mul, Nat.add_assoc]

/-- The sectors of a table begin where it begins. -/
theorem head_sectors (h : Contiguous a regions b) :
    ∀ s ∈ (sectors regions).head?, s.start = a := by
  cases regions with
  | nil => exact fun s hs => absurd hs (by simp [sectors])
  | cons r rest =>
    intro s hs
    obtain ⟨ha, -, hn, -⟩ := h
    have hcons : sectors (r :: rest) = r.sector 0 :: (r.sectors.drop 1 ++ sectors rest) := by
      rw [sectors, List.flatMap_cons, ← List.drop_zero (l := r.sectors), drop_sectors hn,
        List.cons_append]
      rfl
    rw [hcons, List.head?_cons] at hs
    obtain rfl := Option.some.inj hs
    rw [Region.sector, Nat.zero_mul, Nat.add_zero, ha]

/-- The sectors of a contiguous table are adjacent, across its regions too. -/
theorem isChain_sectors (h : Contiguous a regions b) : List.IsChain Adjacent (sectors regions) := by
  induction regions generalizing a with
  | nil => exact List.isChain_nil
  | cons r rest ih =>
    obtain ⟨-, -, hn, hrest⟩ := h
    rw [sectors, List.flatMap_cons]
    refine List.isChain_append.mpr ⟨isChain_region r, ih hrest, fun s hs t ht => ?_⟩
    have hlast : s = r.sector (r.numblocks.toNat - 1) := by
      rw [List.getLast?_eq_getElem?, length_sectors, Region.sectors, List.getElem?_map,
        List.getElem?_range (by omega)] at hs
      exact (Option.some.inj hs).symm
    rw [Adjacent, head_sectors hrest t ht, hlast]
    simp only [Region.sector, Sector.stop, Region.top, Nat.add_assoc]
    congr 1
    rw [← Nat.succ_mul, Nat.succ_eq_add_one, Nat.sub_add_cancel hn]

/-- No sector of a contiguous table begins before it or ends behind it. -/
theorem sectors_within (h : Contiguous a regions b) :
    ∀ s ∈ sectors regions, ∃ r ∈ regions, s.length = r.erasesize.toNat ∧
      r.offset.toNat ≤ s.start ∧ s.stop ≤ r.top ∧ a ≤ s.start ∧ s.stop ≤ b := by
  induction regions generalizing a with
  | nil => exact fun s hs => absurd hs List.not_mem_nil
  | cons r rest ih =>
    intro s hs
    obtain ⟨ha, -, -, hrest⟩ := h
    rw [sectors, List.flatMap_cons] at hs
    have hle := hrest.le
    have htop : a ≤ r.top := by
      rw [Region.top]
      omega
    rcases List.mem_append.mp hs with hs | hs
    · obtain ⟨k, hk, rfl⟩ := mem_sectors.mp hs
      obtain ⟨h₁, h₂⟩ := sector_within hk
      exact ⟨r, List.mem_cons_self, rfl, h₁, h₂, by omega, by omega⟩
    · obtain ⟨r', hr', hlen, h₁, h₂, h₃, h₄⟩ := ih hrest s hs
      exact ⟨r', List.mem_cons_of_mem r hr', hlen, h₁, h₂, by omega, h₄⟩

end Sectors

/-! ### The walk -/

/-- Below 2^32 the end of a region is computed as it is. -/
theorem Region.toNat_stop {r : Region} (h : r.top < 2 ^ 32) : r.stop.toNat = r.top := by
  have hmul : r.numblocks.toNat * r.erasesize.toNat < 2 ^ 32 := by
    rw [Region.top] at h
    omega
  rw [Region.stop, UInt32.toNat_add, UInt32.toNat_mul, Nat.mod_eq_of_lt hmul]
  exact Nat.mod_eq_of_lt h

section Walk

variable {chip : Chip} {info : Info} {regions : List Region}

/-- One round of the loop. -/
theorem erase_regions_succ (hworks : chip.Works info regions) (unlock : Int) (n : Nat)
    (start : UInt32) (r : Region) (rest : List Region) (done : List Erase) :
    erase_regions chip unlock (n + 1) start (r :: rest) done =
      erase_regions chip unlock n (start + r.erasesize)
        (if r.stop ≤ start + r.erasesize then rest else r :: rest)
        (done ++ [⟨start, r.erasesize⟩]) := by
  have hunlock : ¬ (unlock ≠ 0 ∧ chip.unlocks done ⟨start, r.erasesize⟩ = false) := by
    rw [hworks.unlocks]
    exact fun h => absurd h.2 (by decide)
  have herase : ¬ chip.erases done ⟨start, r.erasesize⟩ = false := by
    rw [hworks.erases]
    decide
  rw [erase_regions]
  simp only [if_neg hunlock, if_neg herase]
  split
  · rfl
  · rfl

/-- **The walk**: from sector `k` of a region on, the requests are the next `n` sectors. -/
theorem erase_regions_sectors (hworks : chip.Works info regions) (unlock : Int) {b : Nat}
    (hb : b < 2 ^ 32) : ∀ (n k : Nat) (start : UInt32) (a : Nat) (r : Region) (rest : List Region)
    (done : List Erase), Contiguous a (r :: rest) b → k < r.numblocks.toNat →
    start.toNat = (r.sector k).start →
    ∃ new, erase_regions chip unlock n start (r :: rest) done = (done ++ new, 0) ∧
      new.map Erase.sector = (r.sectors.drop k ++ sectors rest).take n := by
  intro n
  induction n with
  | zero =>
    intro k start a r rest done _ _ _
    exact ⟨[], by rw [erase_regions, List.append_nil], rfl⟩
  | succ n ih =>
    intro k start a r rest done hcont hk hstart
    obtain ⟨ha, hsize, hn, hrest⟩ := hcont
    have hle := hrest.le
    have hwithin := (sector_within hk).2
    have hnext : (start + r.erasesize).toNat = (r.sector (k + 1)).start := by
      rw [UInt32.toNat_add, hstart]
      simp only [Region.sector, Sector.stop, Nat.add_mul, Nat.one_mul, ← Nat.add_assoc]
        at hwithin ⊢
      exact Nat.mod_eq_of_lt (by omega)
    have hsector : (⟨start, r.erasesize⟩ : Erase).sector = r.sector k := by
      rw [Erase.sector, hstart]
      rfl
    have hstop : r.stop ≤ start + r.erasesize ↔ k + 1 = r.numblocks.toNat := by
      rw [UInt32.le_iff_toNat_le, r.toNat_stop (by omega), hnext]
      simp only [Region.sector, Region.top, Nat.add_le_add_iff_left]
      constructor
      · intro hmul
        have := Nat.le_of_mul_le_mul_right hmul hsize
        omega
      · intro he
        rw [he]
    rw [erase_regions_succ hworks, drop_sectors hk, List.cons_append, List.take_succ_cons]
    by_cases hlast : k + 1 = r.numblocks.toNat
    · -- the last sector of this region
      rw [if_pos (hstop.mpr hlast), hlast, ← length_sectors, List.drop_length, List.nil_append]
      cases rest with
      | nil =>
        refine ⟨[⟨start, r.erasesize⟩], ?_, ?_⟩
        · cases n with
          | zero => rfl
          | succ n => rfl
        · rw [List.map_singleton, hsector, sectors, List.flatMap_nil, List.take_nil]
      | cons r' rest =>
        have hstart' : (start + r.erasesize).toNat = (r'.sector 0).start := by
          rw [hnext, Region.sector, hlast, Region.sector, Nat.zero_mul, Nat.add_zero, hrest.1]
          rfl
        obtain ⟨new, hnew, hmap⟩ := ih 0 (start + r.erasesize) r.top r' rest
          (done ++ [⟨start, r.erasesize⟩]) hrest hrest.2.2.1 hstart'
        refine ⟨⟨start, r.erasesize⟩ :: new, by rw [hnew, List.append_assoc]; rfl, ?_⟩
        rw [List.map_cons, hsector, hmap, List.drop_zero]
        rfl
    · rw [if_neg fun h => hlast (hstop.mp h)]
      obtain ⟨new, hnew, hmap⟩ := ih (k + 1) (start + r.erasesize) a r rest
        (done ++ [⟨start, r.erasesize⟩]) ⟨ha, hsize, hn, hrest⟩ (by omega) hnext
      refine ⟨⟨start, r.erasesize⟩ :: new, by rw [hnew, List.append_assoc]; rfl, ?_⟩
      rw [List.map_cons, hsector, hmap]

/-- The table comes back as it is. -/
theorem region_infos_eq (hworks : chip.Works info regions) :
    region_infos chip regions.length = some regions := by
  have hpre : ∀ n ≤ regions.length, region_infos chip n = some (regions.take n) := by
    intro n
    induction n with
    | zero => exact fun _ => rfl
    | succ n ih =>
      intro hn
      rw [region_infos, ih (by omega), Option.bind_some, hworks.region n (by omega),
        List.getElem?_eq_getElem (by omega), Option.map_some, List.take_add_one,
        List.getElem?_eq_getElem (by omega)]
      rfl
  rw [hpre _ (le_refl _), List.take_length]

/-- The region that `start` is in is found, whatever comes before it. -/
theorem region_found {a b : Nat} (hb : b < 2 ^ 32) {start : UInt32} {r : Region}
    (hcont : Contiguous a regions b) (hr : r ∈ regions)
    (hin : r.offset.toNat ≤ start.toNat ∧ start.toNat < r.top) :
    ∃ pre rest, regions = pre ++ r :: rest ∧
      regions.dropWhile (fun r => ¬ (r.offset ≤ start ∧ start < r.stop)) = r :: rest ∧
      Contiguous r.offset.toNat (r :: rest) b ∧ ∀ s ∈ sectors pre, s.start < r.offset.toNat := by
  induction regions generalizing a with
  | nil => exact absurd hr List.not_mem_nil
  | cons r₀ rs ih =>
    obtain ⟨ha, hsize, hn, hrest⟩ := hcont
    have hle := hrest.le
    have hfound : r₀.offset ≤ start ∧ start < r₀.stop ↔
        r₀.offset.toNat ≤ start.toNat ∧ start.toNat < r₀.top := by
      rw [UInt32.le_iff_toNat_le, UInt32.lt_iff_toNat_lt, r₀.toNat_stop (by omega)]
    rcases List.mem_cons.mp hr with rfl | hmem
    · refine ⟨[], rs, rfl, ?_, ⟨rfl, hsize, hn, hrest⟩, fun s hs => absurd hs List.not_mem_nil⟩
      rw [List.dropWhile_cons_of_neg]
      rw [decide_not, Bool.not_eq_true', decide_eq_false_iff_not, not_not]
      exact hfound.mpr hin
    · obtain ⟨hge, -⟩ := hrest.within hmem
      obtain ⟨pre, rest, hsplit, hdrop, hc, hpre⟩ := ih hrest hmem
      refine ⟨r₀ :: pre, rest, by rw [hsplit]; rfl, ?_, hc, fun s hs => ?_⟩
      · rw [List.dropWhile_cons_of_pos, hdrop]
        rw [decide_eq_true_eq]
        intro h
        have := (hfound.mp h).2
        omega
      · rw [sectors, List.flatMap_cons] at hs
        rcases List.mem_append.mp hs with hs | hs
        · obtain ⟨k, hk, rfl⟩ := mem_sectors.mp hs
          have hstop := (sector_within hk).2
          rw [Sector.stop] at hstop
          have hlen : (r₀.sector k).length = r₀.erasesize.toNat := rfl
          omega
        · exact hpre s hs

end Walk

/-- The sectors from sector `k` of a region on, picked out by their addresses. -/
theorem filter_sectors {b k : Nat} {r : Region} {pre rest : List Region}
    (hc : Contiguous r.offset.toNat (r :: rest) b) (hk : k < r.numblocks.toNat)
    (hpre : ∀ s ∈ sectors pre, s.start < r.offset.toNat) :
    ((sectors (pre ++ r :: rest)).filter fun s => (r.sector k).start ≤ s.start)
      = r.sectors.drop k ++ sectors rest := by
  obtain ⟨-, hsize, -, hrest⟩ := hc
  have hsplit : sectors (pre ++ r :: rest)
      = sectors pre ++ (r.sectors.take k ++ (r.sectors.drop k ++ sectors rest)) := by
    rw [← List.append_assoc (r.sectors.take k), List.take_append_drop, sectors,
      List.flatMap_append, List.flatMap_cons]
    rfl
  have hbefore : (sectors pre).filter (fun s => (r.sector k).start ≤ s.start) = [] := by
    rw [List.filter_eq_nil_iff]
    intro s hs
    have := hpre s hs
    rw [decide_eq_true_eq]
    show ¬ r.offset.toNat + k * r.erasesize.toNat ≤ s.start
    omega
  have hbelow : (r.sectors.take k).filter (fun s => (r.sector k).start ≤ s.start) = [] := by
    rw [List.filter_eq_nil_iff]
    intro s hs
    obtain ⟨j, hj, rfl⟩ := List.mem_take_iff_getElem.mp hs
    have hlt : j * r.erasesize.toNat < k * r.erasesize.toNat :=
      Nat.mul_lt_mul_of_pos_right (by omega) hsize
    simp only [Region.sectors, List.getElem_map, List.getElem_range, decide_eq_true_eq,
      Region.sector]
    omega
  have habove : (r.sectors.drop k ++ sectors rest).filter (fun s => (r.sector k).start ≤ s.start)
      = r.sectors.drop k ++ sectors rest := by
    rw [List.filter_eq_self]
    intro s hs
    rw [decide_eq_true_eq]
    rcases List.mem_append.mp hs with hs | hs
    · obtain ⟨j, hj, rfl⟩ := List.mem_drop_iff_getElem.mp hs
      have hle : k * r.erasesize.toNat ≤ (k + j) * r.erasesize.toNat :=
        Nat.mul_le_mul_right _ (Nat.le_add_right k j)
      simp only [Region.sectors, List.getElem_map, List.getElem_range, Region.sector]
      omega
    · obtain ⟨r', -, -, -, -, htop, -⟩ := sectors_within hrest s hs
      have hstop := (sector_within hk).2
      rw [Sector.stop] at hstop
      omega
  rw [hsplit, List.filter_append, hbefore, List.nil_append, List.filter_append, hbelow,
    List.nil_append, habove]

/-- What `region_erase` asks for: the next `count` sectors from `start` on. -/
theorem region_erase_eq {chip : Chip} {info : Info} {regions : List Region} {a b : Nat}
    {start : UInt32} {r : Region} (hworks : chip.Works info regions)
    (hcont : Contiguous a regions b) (hb : b < 2 ^ 32) (hr : r ∈ regions)
    (hin : r.offset.toNat ≤ start.toNat ∧ start.toNat < r.top)
    (hsector : r.erasesize.toNat ∣ start.toNat - r.offset.toNat) (count unlock : Int) :
    ∃ requests, region_erase chip start count unlock regions.length = (requests, 0) ∧
      requests.map Erase.sector
        = ((sectors regions).filter fun s => start.toNat ≤ s.start).take count.toNat := by
  obtain ⟨k, hk⟩ := hsector
  obtain ⟨pre, rest, hsplit, hdrop, hc, hpre⟩ := region_found hb hcont hr hin
  have hstart : start.toNat = (r.sector k).start := by
    show start.toNat = r.offset.toNat + k * r.erasesize.toNat
    rw [Nat.mul_comm k, ← hk]
    omega
  have hlt : k < r.numblocks.toNat := by
    have hmul : k * r.erasesize.toNat < r.numblocks.toNat * r.erasesize.toNat := by
      have hend := hin.2
      rw [hstart] at hend
      exact Nat.lt_of_add_lt_add_left hend
    exact Nat.lt_of_mul_lt_mul_right hmul
  obtain ⟨new, hnew, hmap⟩ :=
    erase_regions_sectors hworks unlock hb count.toNat k start _ r rest [] hc hlt hstart
  refine ⟨new, ?_, ?_⟩
  · rw [region_erase, region_infos_eq hworks]
    simp only [hdrop, hnew, List.nil_append]
  · rw [hmap, hsplit, hstart, filter_sectors hc hlt hpre]

/-- Sectors picked out by their addresses are the sectors from some place on. -/
theorem filter_suffix {a b n : Nat} {regions : List Region} (hcont : Contiguous a regions b) :
    ((sectors regions).filter fun s => n ≤ s.start) <:+ sectors regions := by
  have hchain := isChain_sectors hcont
  generalize sectors regions = l at hchain
  induction l with
  | nil => exact List.suffix_refl []
  | cons s l ih =>
    by_cases hs : n ≤ s.start
    · -- what is behind a sector that is picked is picked too
      have hall : ∀ t ∈ s :: l, n ≤ t.start := by
        clear ih
        induction l generalizing s with
        | nil =>
          intro t ht
          rw [List.mem_singleton.mp ht]
          exact hs
        | cons u l ih =>
          obtain ⟨hadj, htail⟩ := List.isChain_cons_cons.mp hchain
          have hu : n ≤ u.start := by
            rw [Adjacent, Sector.stop] at hadj
            omega
          intro t ht
          rcases List.mem_cons.mp ht with rfl | ht
          · exact hs
          · exact ih u htail hu t ht
      rw [List.filter_eq_self.mpr fun t ht => decide_eq_true (hall t ht)]
    · rw [List.filter_cons_of_neg (by simpa using hs)]
      exact (ih hchain.tail).trans (List.suffix_cons s l)

/-- **Region-wise erase.**  On a chip whose regions lie one behind the other, from the
beginning of any sector on: the requests are the next `count` sectors of the chip, or
those there are; each has the size of its region and stays inside it, and they are
adjacent. -/
theorem region_erase_sectors {chip : Chip} {info : Info} {regions : List Region} {a b : Nat}
    {start : UInt32} {r : Region} (hworks : chip.Works info regions)
    (hcont : Contiguous a regions b) (hb : b < 2 ^ 31) (hr : r ∈ regions)
    (hin : r.offset.toNat ≤ start.toNat ∧ start.toNat < r.top)
    (hsector : r.erasesize.toNat ∣ start.toNat - r.offset.toNat) (count unlock : Int) :
    ∃ requests, region_erase chip start count unlock regions.length = (requests, 0) ∧
      requests.map Erase.sector
        = ((sectors regions).filter fun s => start.toNat ≤ s.start).take count.toNat ∧
      List.IsChain Adjacent (requests.map Erase.sector) ∧
      ∀ s ∈ requests.map Erase.sector, ∃ r ∈ regions, s.length = r.erasesize.toNat ∧
        r.offset.toNat ≤ s.start ∧ s.stop ≤ r.top := by
  obtain ⟨requests, hout, hmap⟩ :=
    region_erase_eq hworks hcont (by omega) hr hin hsector count unlock
  have hsuffix := filter_suffix (n := start.toNat) hcont
  refine ⟨requests, hout, hmap, ?_, fun s hs => ?_⟩
  · rw [hmap]
    exact ((isChain_sectors hcont).suffix hsuffix).take _
  · rw [hmap] at hs
    obtain ⟨r', hr', hlen, h₁, h₂, -⟩ :=
      sectors_within hcont s (hsuffix.subset (List.mem_of_mem_take hs))
    exact ⟨r', hr', hlen, h₁, h₂⟩

/-- The chip that answers with a table and does what it is asked. -/
def answering (info : Info) (regions : List Region) : Chip :=
  ⟨true, some info, some regions.length, fun i => regions[i]?, fun _ _ => true, fun _ _ => true⟩

theorem works_answering (info : Info) (regions : List Region) :
    (answering info regions).Works info regions :=
  ⟨rfl, rfl, rfl, fun _ _ => rfl, fun _ _ => rfl, fun _ _ => rfl⟩

/-- Two sectors of 8 and two of 64. -/
def smallLarge : List Region := [⟨0, 8, 2⟩, ⟨16, 64, 2⟩]

theorem contiguous_smallLarge : Contiguous 0 smallLarge 144 :=
  ⟨rfl, by decide, by decide, rfl, by decide, by decide, rfl⟩

/-- From the second small sector on, two sectors: the walk passes into the second region. -/
theorem region_erase_smallLarge :
    ∃ requests, region_erase (answering ⟨144, 64⟩ smallLarge) 8 2 0 smallLarge.length
        = (requests, 0) ∧
      requests.map Erase.sector
        = ((sectors smallLarge).filter fun s => (8 : UInt32).toNat ≤ s.start).take (2 : Int).toNat ∧
      List.IsChain Adjacent (requests.map Erase.sector) ∧
      ∀ s ∈ requests.map Erase.sector, ∃ r ∈ smallLarge, s.length = r.erasesize.toNat ∧
        r.offset.toNat ≤ s.start ∧ s.stop ≤ r.top :=
  region_erase_sectors (r := ⟨0, 8, 2⟩) (works_answering _ _) contiguous_smallLarge (by decide)
    List.mem_cons_self (by decide) (by decide) 2 0

end Boxing.Mtd
