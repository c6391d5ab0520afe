import Boxing.Iburn.Upgrade

/-!
# What each part of the program leaves alone

What a part of the program never does can be read off its calls, whatever the calls are
answered.  Calls that only ask are all alike (`Changes`); for the others there is one lemma
for each part, that says which of them it makes (`dump_only`, `burn_only`, ...).

`Spares part c` says of a call that it does not write `part`: the copy to the NAND leaves
the NOR alone, everything behind it leaves the NAND alone, and the checks, the boot loader
and the flags leave both alone.
-/

namespace Boxing.Iburn

open C Device

/-- The call is more than a question. -/
def Changes : MbCall → Prop
  | .write _ _ _ => True
  | .part_write _ _ _ => True
  | .part_erase _ _ _ => True
  | .set_bootflag _ => True
  | .bootenv_set _ _ => True
  | _ => False

section Only

variable (cfg : Config) (abi : Abi) {P : MbCall → Prop} (hask : ∀ c, ¬ Changes c → P c)

include hask

theorem verify_nor_only (fd : Part) (buf : Bytes) :
    Prog.Only P (verify_nor_image abi fd buf) := by
  rw [verify_nor_image, Prog.ask_bind, Prog.only_call]
  refine ⟨hask _ id, fun r => ?_⟩
  refine Prog.Only.ite ?_ ?_
  · trivial
  refine Prog.Only.ite ?_ ?_
  · trivial
  rw [Prog.ask_bind, Prog.only_call]
  refine ⟨hask _ id, fun size => ?_⟩
  generalize image_datalen (take_in buf r) = datalen
  refine Prog.Only.ite ?_ ?_
  · trivial
  rw [Prog.iterate_bind, Prog.only_loop]
  refine ⟨fun s => ?_, fun newcrc => ?_⟩
  · rw [nor_body]
    refine .ite ?_ trivial
    rw [Prog.ask_bind, Prog.only_call]
    exact ⟨hask _ id, fun r => .ite trivial trivial⟩
  · cases newcrc with
    | none => exact trivial
    | some newcrc =>
      generalize ih_dcrc _ = ih_dcrc
      exact Prog.Only.ite trivial trivial

theorem verify_nand_only (fd : Part) (buf : Bytes) :
    Prog.Only P (verify_nand_image abi fd buf) := by
  rw [verify_nand_image, Prog.ask_bind, Prog.only_call]
  refine ⟨hask _ id, fun r => ?_⟩
  generalize image_datalen (take_in buf (some r.2)) = datalen
  refine Prog.Only.ite ?_ ?_
  · trivial
  rw [Prog.iterate_bind, Prog.only_loop]
  refine ⟨fun s => ?_, fun newcrc => ?_⟩
  · rw [nand_body]
    refine .ite ?_ trivial
    rw [Prog.ask_bind, Prog.only_call]
    exact ⟨hask _ id, fun r => .ite trivial trivial⟩
  · cases newcrc with
    | none => exact trivial
    | some newcrc =>
      generalize ih_dcrc _ = ih_dcrc
      exact Prog.Only.ite trivial trivial

theorem dump_only (herase : ∀ start n, P (.part_erase .secondos start n))
    (hwrite : ∀ offs buf, P (.part_write .secondos offs buf)) (stack : Stack) (buf : Bytes) :
    Prog.Only P (dump_all cfg stack buf) := by
  rw [dump_all, Prog.ask_bind, Prog.only_call]
  refine ⟨hask _ id, fun nandFd => .ite trivial ?_⟩
  rw [Prog.ask_bind, Prog.only_call]
  refine ⟨herase 0 (-1), fun err => .ite trivial ?_⟩
  rw [Prog.iterate_bind, Prog.only_loop]
  refine ⟨fun s => ?_, fun buf => ?_⟩
  · rw [dump_body, Prog.ask_bind, Prog.only_call]
    refine ⟨hask _ id, fun r => .ite trivial ?_⟩
    rw [Prog.ask_bind, Prog.only_call]
    exact ⟨hwrite _ _, fun n => trivial⟩
  · refine (verify_nand_only cfg.abi hask .secondos stack.nand).bind fun err => ?_
    exact .ite trivial trivial

/-- The backup makes no other change than these two. -/
theorem backup_only (herase : ∀ start n, P (.part_erase .secondos start n))
    (hwrite : ∀ offs buf, P (.part_write .secondos offs buf)) (stack : Stack) (buf : Bytes) :
    Prog.Only P (backup cfg stack buf) := by
  refine (verify_nor_only cfg.abi hask .firstos stack.nor).bind fun err => ?_
  exact .ite trivial (dump_only cfg hask herase hwrite stack buf)

theorem hmac_only (datalen : Int) : Prog.Only P (check_hmac cfg datalen) := by
  rw [check_hmac, Prog.ask_bind, Prog.only_call]
  refine ⟨hask _ id, fun p_map => ?_⟩
  cases p_map with
  | none => exact trivial
  | some p_map => exact .ite trivial (.ite trivial trivial)

theorem burn_only (herase : ∀ n, P (.part_erase .firstos 0 n))
    (hwrite : ∀ pos buf, P (.write .firstos pos buf)) (datalen : Int) (buf : Bytes) :
    Prog.Only P (burn cfg datalen buf) := by
  rw [burn, Prog.ask_bind, Prog.only_call]
  refine ⟨herase _, fun err => .ite trivial ?_⟩
  rw [Prog.iterate_bind, Prog.only_loop]
  refine ⟨fun s => ?_, fun buf => trivial⟩
  rw [burn_body, Prog.ask_bind, Prog.only_call]
  refine ⟨hask _ id, fun r => .ite trivial ?_⟩
  rw [Prog.ask_bind, Prog.only_call]
  exact ⟨hwrite _ _, fun n => trivial⟩

omit hask in
theorem version_only (henv : ∀ name value, P (.bootenv_set name value)) (mem : Bytes) :
    Prog.Only P (set_version mem) := by
  rw [set_version]
  cases find_version mem 4 with
  | none => exact trivial
  | some pbuf =>
    refine .ite ?_ trivial
    cases strlen (mem.drop (pbuf + 8)) with
    | none => exact trivial
    | some k => exact ⟨henv _ _, fun err => trivial⟩

theorem bootloader_only (herase : ∀ start n, P (.part_erase .bootloader start n))
    (hwrite : ∀ pos buf, P (.write .bootloader pos buf))
    (henv : ∀ name value, P (.bootenv_set name value)) (behind buf : Bytes) :
    Prog.Only P (upgrade_bootloader cfg behind buf) := by
  rw [upgrade_bootloader, Prog.ask_bind, Prog.only_call]
  refine ⟨hask _ id, fun bootFd => .ite trivial ?_⟩
  rw [Prog.ask_bind, Prog.only_call]
  refine ⟨hask _ id, fun size => ?_⟩
  rw [Prog.ask_bind, Prog.only_call]
  refine ⟨herase 0 _, fun err => ?_⟩
  rw [Prog.iterate_bind, Prog.only_loop]
  refine ⟨fun s => ?_, fun copy => ?_⟩
  · rw [boot_body]
    refine .ite ?_ trivial
    rw [Prog.ask_bind, Prog.only_call]
    refine ⟨hask _ id, fun r => ?_⟩
    rw [Prog.ask_bind, Prog.only_call]
    exact ⟨hwrite _ _, fun n => trivial⟩
  · rw [Prog.ask_bind, Prog.only_call]
    refine ⟨hask _ id, fun r => ?_⟩
    exact (version_only henv _).bind fun ok => .ite trivial trivial

omit hask in
theorem finish_only (hflag : ∀ flag, P (.set_bootflag flag)) : Prog.Only P finish := by
  rw [finish, Prog.ask_bind, Prog.only_call]
  exact ⟨hflag _, fun err => .ite trivial trivial⟩

/-- From the boot loader on. -/
theorem after_burn_only (herase : ∀ start n, P (.part_erase .bootloader start n))
    (hwrite : ∀ pos buf, P (.write .bootloader pos buf))
    (henv : ∀ name value, P (.bootenv_set name value)) (hflag : ∀ flag, P (.set_bootflag flag))
    (upgrade_boot : Bool) (behind buf : Bytes) :
    Prog.Only P (after_burn cfg upgrade_boot behind buf) := by
  refine .ite ?_ (finish_only hflag)
  refine (bootloader_only cfg hask herase hwrite henv behind buf).bind fun done => ?_
  cases done with
  | none => exact finish_only hflag
  | some e => exact trivial

end Only

/-! ### Calls that do not write a partition -/

/-- The call does not write `part`. -/
def Spares (part : Part) : MbCall → Prop
  | .write p _ _ => p ≠ part
  | .part_write p _ _ => p ≠ part
  | .part_erase p _ _ => p ≠ part
  | _ => True

theorem spares_of_ask (part : Part) : ∀ c, ¬ Changes c → Spares part c := by
  intro c hc
  cases c with
  | write => exact absurd trivial hc
  | part_write => exact absurd trivial hc
  | part_erase => exact absurd trivial hc
  | _ => exact trivial

section Spares

variable (cfg : Config) (abi : Abi) (part : Part)

theorem verify_nor_spares (fd : Part) (buf : Bytes) :
    Prog.Only (Spares part) (verify_nor_image abi fd buf) :=
  verify_nor_only abi (spares_of_ask part) fd buf

/-- The copy to the NAND leaves the NOR alone. -/
theorem dump_spares (stack : Stack) (buf : Bytes) :
    Prog.Only (Spares .firstos) (dump_all cfg stack buf) := by
  have hne : Part.secondos ≠ .firstos := by decide
  exact dump_only cfg (spares_of_ask .firstos) (fun _ _ => hne) (fun _ _ => hne) stack buf

/-- All that follows the main image leaves the other partitions alone. -/
theorem after_burn_spares (hne : .bootloader ≠ part) (upgrade_boot : Bool) (behind buf : Bytes) :
    Prog.Only (Spares part) (after_burn cfg upgrade_boot behind buf) :=
  after_burn_only cfg (spares_of_ask part) (fun _ _ => hne) (fun _ _ => hne) (fun _ _ => trivial)
    (fun _ => trivial) upgrade_boot behind buf

theorem burn_main_spares (upgrade_boot : Bool) (behind buf : Bytes) (datalen : Int) :
    Prog.Only (Spares .secondos) (burn_main cfg upgrade_boot behind buf datalen) := by
  have hne : Part.firstos ≠ .secondos := by decide
  refine (burn_only cfg (spares_of_ask .secondos) (fun _ => hne) (fun _ _ => hne) datalen
    buf).bind fun burnt => ?_
  cases burnt with
  | inl e => exact trivial
  | inr buf => exact after_burn_spares cfg .secondos (by decide) upgrade_boot behind buf

/-- All that follows the backup leaves the NAND alone. -/
theorem after_spares (upgrade_boot : Bool) (behind buf : Bytes) (datalen : Int) :
    Prog.Only (Spares .secondos) (after_backup cfg upgrade_boot behind buf datalen) := by
  rw [after_backup, Prog.ask_bind, Prog.only_call]
  refine ⟨trivial, fun err => .ite trivial ?_⟩
  rw [after_flag]
  cases cfg.board with
  | IR9 => exact burn_main_spares cfg upgrade_boot behind buf datalen
  | IDTU9 =>
    refine (hmac_only cfg (spares_of_ask .secondos) datalen).bind fun checked => ?_
    cases checked with
    | none => exact burn_main_spares cfg upgrade_boot behind buf datalen
    | some e => exact trivial

end Spares

end Boxing.Iburn
