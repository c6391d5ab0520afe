import Boxing.Device.Ends
import Boxing.Device.Wp
import Boxing.Ig9.Upgrade

/-!
# Copying the boot loader

The loop counts down what is still to be copied by what `read` has returned, and it does
not look at what that was.  At the end of the file a `read` returns 0, and nothing is counted
down; a `read` that fails returns -1, and the count goes up by one.

So the loop ends, and writes no more than it is to write, exactly when no `read` can fail and
the file has all of the boot loader (`copyEnds_iff`).  Otherwise there is an execution that
never ends: at the end of the file it stands still, and before that it reads a byte at a time,
with a failure whenever the last byte would be counted (`run_goes_round`).
-/

namespace Boxing.Ig9

open C Device

/-- What a `read` of the file may give: an error if that can be, some bytes, and none only at
the end of the file. -/
def Reads (fails : Bool) (image : Bytes) (pos len : Nat) (r : Option Bytes) : Prop :=
  fails = true ∧ r = none ∨
    ∃ k, k ≤ len ∧ (k = 0 → len = 0 ∨ image.length ≤ pos) ∧ r = some ((image.drop pos).take k)

/-- The calls of the loop; the world is how many bytes have been written to the boot
loader partition. -/
def bootStep (fails : Bool) (image : Bytes) : Nat → (c : IgCall) → IgRet c → Nat → Prop
  | w, .read pos len, r, w' => Reads fails image pos len r ∧ w' = w
  | w, .write _ buf _, r, w' => r ≤ buf.length ∧ w' = w + r.toNat
  | w, _, _, w' => w' = w

/-- The power may go before and after each call. -/
def booting (fails : Bool) (image : Bytes) : Sem IgRet Nat where
  step := bootStep fails image
  cut := fun w c w' => w' = w ∨ ∃ r, bootStep fails image w c r w'

section Copy

variable (cfg : Config) (image : Bytes) (fails : Bool)

/-- `n = BOOTLOADER_SIZE * sizeof(buf)`. -/
def boot_len : Int := int32 (cfg.BOOTLOADER_SIZE * cfg.EMMC_WRITE_BUFF_SIZE)

/-- The copy loop, from its start. -/
def copy_bootloader (buf : Bytes) : Prog IgRet Copy :=
  Prog.iterate (copy_body cfg) ⟨boot_len cfg, cfg.BOOTLOADER_IMG_START, buf⟩

/-- It ends, and at every stop no more has been written than it was to write. -/
def CopyEnds (buf : Bytes) : Prop :=
  Ends (booting fails image) (copy_bootloader cfg buf) 0 ∧
    ∀ o w', Run (booting fails image) (copy_bootloader cfg buf) 0 o w' →
      w' ≤ cfg.BOOTLOADER_SIZE * cfg.EMMC_WRITE_BUFF_SIZE

end Copy

section Loop

variable {cfg : Config} {image : Bytes} {fails : Bool} {s : Copy} {w : Nat}

theorem boot_len_le (cfg : Config) :
    boot_len cfg ≤ (cfg.BOOTLOADER_SIZE * cfg.EMMC_WRITE_BUFF_SIZE : Nat) := by
  rw [boot_len, ← Int.natCast_mul, int32, Int.bmod_def]
  generalize cfg.BOOTLOADER_SIZE * cfg.EMMC_WRITE_BUFF_SIZE = n
  split
  · omega
  · omega

theorem boot_len_lt (cfg : Config) : boot_len cfg < 2 ^ 31 := int32_lt _

/-- Something to copy is copied through a buffer. -/
theorem buffer_pos (h : 0 < boot_len cfg) : 0 < cfg.EMMC_WRITE_BUFF_SIZE := by
  have hle := boot_len_le cfg
  refine Nat.pos_of_ne_zero fun hzero => ?_
  rw [hzero, Nat.mul_zero] at hle
  omega

/-! ### A file that has all of it -/

section Inside

variable {n : Int} {total : Nat} (htotal : n ≤ total) (hlt : n < 2 ^ 31)
  (hbuf : 0 < n → 0 < cfg.EMMC_WRITE_BUFF_SIZE)

/-- What is left of the `n` bytes is in the file, and counted. -/
structure Copying (image : Bytes) (n : Int) (s : Copy) (w : Nat) : Prop where
  left : 0 ≤ s.n
  inside : s.pos + s.n ≤ image.length
  counted : w + s.n ≤ n

include htotal in
theorem Copying.written_le (h : Copying image n s w) : w ≤ total := by
  have hleft := h.left
  have hcounted := h.counted
  omega

include htotal hlt hbuf in
/-- One round reads something, writes no more than that, and counts it. -/
theorem wp_copy_body (h : Copying image n s w) :
    wp (booting false image) (copy_body cfg s)
      (fun r w' => r.elim (fun s' => Copying image n s' w' ∧ s'.n.toNat < s.n.toNat)
        (fun _ => w' ≤ total)) (fun w' => w' ≤ total) w := by
  have hwritten := h.written_le htotal
  have hleft := h.left
  have hinside := h.inside
  have hcounted := h.counted
  rw [copy_body]
  split
  swap
  · exact wp_pure.mpr ⟨hwritten, hwritten⟩
  rename_i hn
  have hbuf := hbuf (by omega)
  rw [Prog.ask_bind, wp_call]
  refine ⟨hwritten, ?_, fun r w₁ hread => ?_⟩
  · rintro w' (rfl | ⟨r, -, rfl⟩)
    · exact hwritten
    · exact hwritten
  obtain ⟨hr, rfl⟩ := hread
  rcases hr with ⟨hf, -⟩ | ⟨k, hk, hzero, rfl⟩
  · cases hf
  have hlen : ((image.drop s.pos).take k).length = k := by
    rw [List.length_take, List.length_drop]
    omega
  have hpos : 0 < k := by
    refine Nat.pos_of_ne_zero fun hk0 => ?_
    rcases hzero hk0 with h0 | hend
    · omega
    · omega
  have hnext : int32 (s.n - k) = s.n - k := int32_of_lt (by omega) (by omega)
  generalize (image.drop s.pos).take k = d at hlen
  rw [size_of, moved, hlen, hnext, Prog.ask_bind, wp_call]
  -- whatever the write takes, it is not more than was read
  have hwrite : ∀ (r : Int) w₂, bootStep false image w₁
      (.write .bootloader ((take_in s.buf (some d)).take k) k) r w₂ →
        (w₂ : Int) ≤ w₁ + k := by
    rintro r w₂ ⟨hr, rfl⟩
    have hle : ((take_in s.buf (some d)).take k).length ≤ k := List.length_take_le _ _
    have htaken : r.toNat ≤ k := Int.toNat_le.mpr (Int.le_trans hr (Int.ofNat_le.mpr hle))
    omega
  refine ⟨hwritten, ?_, fun r w₂ hs => ?_⟩
  · rintro w₂ (rfl | ⟨r, hs⟩)
    · exact hwritten
    · have := hwrite r w₂ hs
      omega
  · have := hwrite r w₂ hs
    refine wp_pure.mpr ⟨⟨⟨?_, ?_, ?_⟩, ?_⟩, by omega⟩
    · show 0 ≤ s.n - k
      omega
    · show ((s.pos + k : Nat) : Int) + (s.n - k) ≤ image.length
      omega
    · show (w₂ : Int) + (s.n - k) ≤ n
      omega
    · show (s.n - k).toNat < s.n.toNat
      omega

/-- A round is finite. -/
theorem ends_copy_body (cfg : Config) (s : Copy) (w : Nat) :
    Ends (booting fails image) (copy_body cfg s) w := by
  rw [copy_body]
  split
  · refine .call fun r w₁ _ => ?_
    exact .call fun r' w₂ _ => .pure _ _
  · exact .pure _ _

include htotal hlt hbuf in
/-- **The loop ends** when no read fails and the file has all of the boot loader. -/
theorem ends_of_inside {pos : Nat} {buf : Bytes} (hstart : 0 ≤ n)
    (hinside : pos + n ≤ image.length) :
    Ends (booting false image) (Prog.iterate (copy_body cfg) ⟨n, pos, buf⟩) 0 ∧
      ∀ o w', Run (booting false image) (Prog.iterate (copy_body cfg) ⟨n, pos, buf⟩) 0 o w' →
        w' ≤ total := by
  have h : Copying image n ⟨n, pos, buf⟩ 0 := ⟨hstart, hinside, by simp⟩
  constructor
  · refine Ends.iterate (I := Copying image n) (fun s => s.n.toNat) (fun s w hs => ?_) h
    exact ⟨ends_copy_body cfg s w, fun s' w' hr => (wp_copy_body htotal hlt hbuf hs).1 _ _ hr⟩
  · intro o w' hr
    have hwp : wp (booting false image) (Prog.iterate (copy_body cfg) ⟨n, pos, buf⟩)
        (fun _ w' => w' ≤ total) (fun w' => w' ≤ total) 0 := by
      refine wp_loop (Copying image n) h fun s w hs =>
        wp_mono (wp_copy_body htotal hlt hbuf hs) ?_ fun _ h => h
      rintro (s' | s') w₁ hnext
      · exact hnext.1
      · exact wp_pure.mpr ⟨hnext, hnext⟩
    have hend := hwp.run hr
    cases o with
    | none => exact hend
    | some _ => exact hend

/-- Nothing to copy. -/
theorem ends_of_nonpos {pos : Nat} {buf : Bytes} (h : n ≤ 0) :
    Ends (booting fails image) (Prog.iterate (copy_body cfg) ⟨n, pos, buf⟩) 0 ∧
      ∀ o w', Run (booting fails image) (Prog.iterate (copy_body cfg) ⟨n, pos, buf⟩) 0 o w' →
        w' = 0 := by
  have hbody : ∀ s : Copy, s.n ≤ 0 → copy_body cfg s = .pure (.inr s) := fun s hs => by
    rw [copy_body, if_neg (Int.not_lt.mpr hs), Prog.pure_eq]
  constructor
  · refine Ends.iterate (I := fun s _ => s.n ≤ 0) (fun s => s.n.toNat) (fun s w hs => ?_) h
    refine ⟨ends_copy_body cfg s w, fun s' w' hr => ?_⟩
    rw [hbody s hs] at hr
    cases (Run.some_pure.mp hr).1
  · intro o w' hr
    have hwp : wp (booting fails image) (Prog.iterate (copy_body cfg) ⟨n, pos, buf⟩)
        (fun _ w' => w' = 0) (fun w' => w' = 0) 0 := by
      refine wp_loop (fun s w => s.n ≤ 0 ∧ w = 0) ⟨h, rfl⟩ ?_
      rintro s w ⟨hs, rfl⟩
      rw [hbody s hs]
      exact wp_pure.mpr ⟨wp_pure.mpr ⟨rfl, rfl⟩, rfl⟩
    have hend := hwp.run hr
    cases o with
    | none => exact hend
    | some _ => exact hend

end Inside

/-! ### An execution without an end -/

/-- A round with this answer to its read, and nothing written. -/
theorem run_copy_body (hn : 0 < s.n) {r : Option Bytes}
    (hr : Reads fails image s.pos (min s.n.toNat cfg.EMMC_WRITE_BUFF_SIZE) r) :
    Run (booting fails image) (copy_body cfg s) w
      (some (.inl ⟨int32 (s.n - size_of r), s.pos + moved r, take_in s.buf r⟩)) w := by
  have hread : (booting fails image).step w
      (.read s.pos (min s.n.toNat cfg.EMMC_WRITE_BUFF_SIZE)) r w := ⟨hr, rfl⟩
  have hwrite : (booting fails image).step w
      (.write .bootloader ((take_in s.buf r).take (size_of r)) (size_of r)) (0 : Int) w :=
    ⟨Int.natCast_nonneg _, rfl⟩
  rw [copy_body, if_pos hn, Prog.ask_bind]
  refine .call hread ?_
  rw [Prog.ask_bind]
  exact .call hwrite (.ret _ _)

/-- **It can always go round again**: there is something left to copy, and either the file
does not have it all or a read can fail. -/
theorem run_goes_round (hbuf : 0 < cfg.EMMC_WRITE_BUFF_SIZE) (hn : 0 < s.n) (hlt : s.n < 2 ^ 31)
    (hmore : fails = true ∨ (image.length : Int) < s.pos + s.n) (w : Nat) :
    ∃ s', Run (booting fails image) (copy_body cfg s) w (some (.inl s')) w ∧
      0 < s'.n ∧ s'.n < 2 ^ 31 ∧ (fails = true ∨ (image.length : Int) < s'.pos + s'.n) := by
  by_cases hend : image.length ≤ s.pos
  · -- at the end of the file nothing is counted
    have hnil : (image.drop s.pos).take 0 = [] := List.take_zero
    have hrun := run_copy_body (w := w) hn (Or.inr ⟨0, Nat.zero_le _, fun _ => Or.inr hend, rfl⟩ :
      Reads fails image s.pos (min s.n.toNat cfg.EMMC_WRITE_BUFF_SIZE)
        (some ((image.drop s.pos).take 0)))
    rw [hnil] at hrun
    have hsame : int32 (s.n - (0 : Nat)) = s.n := by
      rw [Int.natCast_zero, Int.sub_zero]
      exact int32_of_lt (by omega) hlt
    rw [size_of, List.length_nil, hsame] at hrun
    exact ⟨_, hrun, hn, hlt, hmore⟩
  by_cases hone : s.n = 1
  · -- the last byte would be counted: the read fails
    have hfails : fails = true := hmore.resolve_right (by omega)
    have hrun := run_copy_body (w := w) hn (Or.inl ⟨hfails, rfl⟩ :
      Reads fails image s.pos (min s.n.toNat cfg.EMMC_WRITE_BUFF_SIZE) none)
    have htwo : int32 (s.n - size_of none) = 2 := by
      rw [hone]
      decide
    rw [htwo] at hrun
    exact ⟨_, hrun, (by decide : (0 : Int) < 2), (by decide : (2 : Int) < 2 ^ 31), Or.inl hfails⟩
  · have hlen : ((image.drop s.pos).take 1).length = 1 := by
      rw [List.length_take, List.length_drop]
      omega
    have hrun := run_copy_body (w := w) hn (Or.inr ⟨1, by omega, by omega, rfl⟩ :
      Reads fails image s.pos (min s.n.toNat cfg.EMMC_WRITE_BUFF_SIZE)
        (some ((image.drop s.pos).take 1)))
    rw [size_of, moved, hlen] at hrun
    have hnext : int32 (s.n - (1 : Nat)) = s.n - 1 := int32_of_lt (by omega) (by omega)
    rw [hnext] at hrun
    refine ⟨_, hrun, by show 0 < s.n - 1; omega, by show s.n - 1 < 2 ^ 31; omega, ?_⟩
    refine hmore.imp_right fun h => ?_
    show (image.length : Int) < ((s.pos + 1 : Nat) : Int) + (s.n - 1)
    omega

theorem not_ends_copy {n : Int} {pos : Nat} {buf : Bytes} (hbuf : 0 < cfg.EMMC_WRITE_BUFF_SIZE)
    (hn : 0 < n) (hlt : n < 2 ^ 31) (hmore : fails = true ∨ (image.length : Int) < pos + n) :
    ¬ Ends (booting fails image) (Prog.iterate (copy_body cfg) ⟨n, pos, buf⟩) 0 := by
  refine not_ends_iterate (I := fun s _ => 0 < s.n ∧ s.n < 2 ^ 31 ∧
    (fails = true ∨ (image.length : Int) < s.pos + s.n)) (fun s w hs => ?_) ⟨hn, hlt, hmore⟩
  obtain ⟨hpos, hlt, hmore⟩ := hs
  obtain ⟨s', hrun, hs'⟩ := run_goes_round hbuf hpos hlt hmore w
  exact ⟨s', w, hrun, hs'⟩

end Loop

/-! ### The boot loader -/

theorem copyEnds_of_nonpos {cfg : Config} {image : Bytes} {fails : Bool} {buf : Bytes}
    (h : boot_len cfg ≤ 0) : CopyEnds cfg image fails buf := by
  obtain ⟨hends, hzero⟩ := ends_of_nonpos h
  refine ⟨hends, fun o w' hr => ?_⟩
  rw [hzero o w' hr]
  exact Nat.zero_le _

theorem not_copyEnds {cfg : Config} {image : Bytes} {fails : Bool} {buf : Bytes}
    (hn : 0 < boot_len cfg)
    (hmore : fails = true ∨ (image.length : Int) < cfg.BOOTLOADER_IMG_START + boot_len cfg) :
    ¬ CopyEnds cfg image fails buf :=
  fun h => not_ends_copy (buffer_pos hn) hn (boot_len_lt cfg) hmore h.1

/-- **When copying the boot loader ends**: exactly when there is nothing to copy, or no read
can fail and the file has all of it. -/
theorem copyEnds_iff (cfg : Config) (image : Bytes) (fails : Bool) (buf : Bytes) :
    CopyEnds cfg image fails buf ↔ boot_len cfg ≤ 0 ∨
      fails = false ∧ cfg.BOOTLOADER_IMG_START + boot_len cfg ≤ image.length := by
  constructor
  · intro h
    by_contra hno
    rw [not_or, not_and_or, Bool.not_eq_false] at hno
    exact not_copyEnds (Int.not_le.mp hno.1) (hno.2.imp_right Int.not_le.mp) h
  · rintro (h | ⟨rfl, h⟩)
    · exact copyEnds_of_nonpos h
    · rcases Int.le_total (boot_len cfg) 0 with h0 | h0
      · exact copyEnds_of_nonpos h0
      · exact ends_of_inside (boot_len_le cfg) (boot_len_lt cfg) buffer_pos h0 h

/-- An empty file: the one byte never comes. -/
theorem copy_empty_file :
    ¬ ∀ (cfg : Config) (image : Bytes) (fails : Bool) (buf : Bytes),
      CopyEnds cfg image fails buf := by
  intro h
  exact not_copyEnds (by decide) (Or.inr (by decide)) (h tinyConfig [] false [])

end Boxing.Ig9
