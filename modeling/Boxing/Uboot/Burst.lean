import Boxing.Uboot.Read
import Boxing.Uboot.Standard

/-!
# What the check of the environment cannot miss

The register of CRC-32 has 32 bits and its polynomial the upper one of them, so a change
of at most four bytes in a row always shows in the checksum: `crc32_ne`.  Reader and writer
look at the checksum before anything else, and a block that was good and has been changed
in this way is turned down by both, with nothing written: `burst_rejected`.
-/

namespace Boxing.Uboot

open C Device

/-- `d'` is `d` with other values for some of four bytes in a row. -/
structure Burst (d d' : Bytes) : Prop where
  length : d'.length = d.length
  changed : d' ≠ d
  inside : ∃ k, ∀ i, d'[i]? ≠ d[i]? → k ≤ i ∧ i < k + 4

section

variable {abi : Abi} {d d' : Bytes}

theorem Burst.standard_ne (h : Burst d d') (start : BitVec 32) :
    standard start d' ≠ standard start d := by
  obtain ⟨k, hk⟩ := h.inside
  exact Crc.crc_window (by decide) start h.length h.changed (by decide) hk

/-- The checksum of a changed area is another one. -/
theorem Burst.crc32_ne (h : Burst d d') : crc32 abi 0 d' ≠ crc32 abi 0 d := by
  intro heq
  refine h.standard_ne 0 ?_
  rw [← crc_int_eq abi, ← crc_int_eq abi]
  exact congrArg (BitVec.setWidth 32) heq

theorem Burst.crc_int_ne (h : Burst d d') : crc_int abi d' ≠ crc_int abi d := by
  rw [crc_int_eq, crc_int_eq]
  exact h.standard_ne 0

/-- A block with a wrong checksum is not read. -/
theorem run_read_rejects {env env' : EnvBlock} {name : Bytes} {r : Option (Option Bytes)}
    (h : crc_int abi env.data ≠ env.crc) :
    Run allOk (read_ubootcfg abi name) env (some r) env' ↔ r = some none ∧ env' = env := by
  simp [read_ubootcfg, Run.some_call, Run.some_pure, allOk, allOkStep, h]

/-- Nor is it written. -/
theorem run_revise_rejects {env env' : EnvBlock} {build : Bytes → Nat → Option Bytes} {r : Int}
    (h : crc_int abi env.data ≠ env.crc) :
    Run allOk (revise abi build) env (some r) env' ↔ r = -1 ∧ env' = env := by
  simp [revise, Run.some_call, Run.some_pure, allOk, allOkStep, h]

/-- **A burst of up to four bytes is found**: its checksum is another one, and when the
block was good before, `read_ubootcfg` answers NULL and `write_ubootcfg` -1, and both leave
the block as it is. -/
theorem burst_rejected (h : Burst d d') :
    crc32 abi 0 d' ≠ crc32 abi 0 d ∧
      ∀ crc : BitVec 32, crc_int abi d = crc →
        (∀ name r env', Run allOk (read_ubootcfg abi name) ⟨crc, d'⟩ (some r) env' ↔
            r = some none ∧ env' = ⟨crc, d'⟩) ∧
          ∀ var value r env', Run allOk (write_ubootcfg abi var value) ⟨crc, d'⟩ (some r) env' ↔
            r = -1 ∧ env' = ⟨crc, d'⟩ := by
  refine ⟨h.crc32_ne, ?_⟩
  rintro crc rfl
  exact ⟨fun name r env' => run_read_rejects h.crc_int_ne,
    fun var value r env' => run_revise_rejects h.crc_int_ne⟩

end

/-- The last two bytes of three. -/
theorem burst_123 : Burst [1, 2, 3] [1, 7, 9] where
  length := rfl
  changed := by decide
  inside := by
    refine ⟨1, fun i hi => ?_⟩
    by_contra hout
    have hplace : i = 0 ∨ 5 ≤ i := by omega
    rcases hplace with rfl | hbehind
    · exact hi rfl
    · rw [List.getElem?_eq_none (by simp; omega), List.getElem?_eq_none (by simp; omega)] at hi
      exact hi rfl

theorem burst_rejected_123 :
    crc32 ⟨true, true⟩ 0 [1, 7, 9] ≠ crc32 ⟨true, true⟩ 0 [1, 2, 3] ∧
      ∀ crc : BitVec 32, crc_int ⟨true, true⟩ [1, 2, 3] = crc →
        (∀ name r env', Run allOk (read_ubootcfg ⟨true, true⟩ name) ⟨crc, [1, 7, 9]⟩ (some r) env' ↔
            r = some none ∧ env' = ⟨crc, [1, 7, 9]⟩) ∧
          ∀ var value r env',
            Run allOk (write_ubootcfg ⟨true, true⟩ var value) ⟨crc, [1, 7, 9]⟩ (some r) env' ↔
              r = -1 ∧ env' = ⟨crc, [1, 7, 9]⟩ :=
  burst_rejected burst_123

end Boxing.Uboot
