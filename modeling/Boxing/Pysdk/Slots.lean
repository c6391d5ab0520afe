import Boxing.Device.Wp
import Boxing.Pysdk.Install

/-!
# The active slot

The flag file names the active slot.  An installation changes the other slot only, and
the flag file once that slot holds an SDK whose signature has been verified.  So far the
two slots are safe wherever the power goes.

The flag file is not: it is cut to nothing and then written.  If the number does not get
into it, or the power goes before it is on the disk, an empty file can stay behind, which
names no slot, and from then on every installation refuses to begin.

A run is a history of installations, each to its end or to a power loss, and the log
records what has been changed, what the flag file named at the time, and the mishaps on
which the invariant depends.
-/

namespace Boxing.Pysdk

open C Device

/-- What is in a directory: the contents of its files. -/
abbrev Files := Bytes → Option Bytes

/-- What happens. -/
inductive Event
  /-- something in a slot is deleted or overwritten, while the flag file names a slot -/
  | touched (part : Slot) (named : Option Slot)
  /-- `access` does not find a flag file that is there -/
  | unseen
  /-- the archive is unpacked where the process stands, inside a slot -/
  | astray
  /-- the number does not get into the flag file -/
  | unwritten
  /-- the power goes while the flag file, or the slot it names, is not on the disk yet -/
  | lost
deriving DecidableEq

/-- The flag file and its versions of which one may come back after a power loss, the
slots, and which of them are on the disk as they are. -/
structure Disk where
  flag : Option Bytes
  older : List (Option Bytes)
  slots : Slot → Files
  synced : Slot → Bool
  log : List Event

/-- The slot a flag file names. -/
def named (flag : Option Bytes) : Option Slot :=
  flag.bind fun content =>
    if flag_value content = 1 then some .pysdk1
    else if flag_value content = 2 then some .pysdk2
    else none

/-- One more event. -/
def Disk.add (w : Disk) (e : Event) : Disk := { w with log := w.log ++ [e] }

/-- A slot changed. -/
def Disk.touch (w : Disk) (part : Slot) (files : Files) : Disk :=
  { w with
    slots := fun s => if s = part then files else w.slots s
    synced := fun s => if s = part then false else w.synced s
    log := w.log ++ [.touched part (named w.flag)] }

/-- Another flag file, the old one not being gone. -/
def Disk.set_flag (w : Disk) (content : Bytes) : Disk :=
  { w with flag := some content, older := w.flag :: w.older }

section System

variable (cwd : Option Slot) (verify : Bytes → Bytes → Bool)

/-- An SDK whose signature is right. -/
def Verified (files : Files) : Prop :=
  ∃ file sdk sign, files file = some sdk ∧ files (asc "pysdk.sign") = some sign ∧
    verify sdk sign = true

/-- The operations.  A command in a slot fails, or leaves anything there; a write or a `sync`
happens or not; and a signature is only found right where it is. -/
def sdkStep : Disk → (c : SdkCall) → SdkRet c → Disk → Prop
  | w, .access_zip, _, w' => w' = w
  | w, .access_flag, r, w' =>
    (r = w.flag.isSome ∧ w' = w) ∨ (r = false ∧ w.flag.isSome = true ∧ w' = w.add .unseen)
  | w, .read_flag, r, w' => (r = w.flag ∨ r = none ∨ r = some []) ∧ w' = w
  | w, .cd _, _, w' => w' = w
  | w, .rm part, _, w' => w' = w ∨ ∃ files, w' = w.touch part files
  | w, .unzip (some part), _, w' => w' = w ∨ ∃ files, w' = w.touch part files
  | w, .unzip none, _, w' =>
    w' = w ∨ ∃ part files, cwd = some part ∧ w' = (w.touch part files).add .astray
  | w, .sync, _, w' => w' = { w with older := [], synced := fun _ => true } ∨ w' = w
  | w, .rm_zip, _, w' => w' = w
  | w, .list _, _, w' => w' = w
  | w, .verify part file, r, w' => w' = w ∧ (r = true → ∃ sdk sign, w.slots part file = some sdk ∧
      w.slots part (asc "pysdk.sign") = some sign ∧ verify sdk sign = true)
  | w, .open_flag, r, w' => (r = false ∧ w' = w) ∨ (r = true ∧ w' = w.set_flag [])
  | w, .write_flag partition, _, w' =>
    w' = w.set_flag (asc (toString partition)) ∨ w' = w.add .unwritten
  | w, .sync_flag, _, w' => w' = { w with older := [] } ∨ w' = w
  | w, .restart_python, _, w' => w' = w

/-- The power may go before, during and after each operation. -/
def sdk : Sem SdkRet Disk where
  step := sdkStep cwd verify
  cut := fun w c w' => w' = w ∨ ∃ r, sdkStep cwd verify w c r w'

/-- Not everything the flag file says is on the disk. -/
def Exposed (w : Disk) : Prop :=
  w.older ≠ [] ∨ ∃ s, named w.flag = some s ∧ w.synced s = false

/-- What a power loss may leave: a version of the flag file, and anything in a slot that
was not on the disk. -/
structure Lost (w w' : Disk) : Prop where
  flag : w'.flag ∈ w.flag :: w.older
  older : w'.older = []
  slots : ∀ s, w.synced s = true → w'.slots s = w.slots s
  synced : ∀ s, w'.synced s = true
  log : (¬ Exposed w ∧ w'.log = w.log) ∨ (Exposed w ∧ w'.log = w.log ++ [.lost])

/-- The histories of a device: installations that come to an end, and installations
during which the power goes, in any number and order. -/
inductive History : Disk → Prop
  | start (slots : Slot → Files) : History ⟨none, [], slots, fun _ => true, []⟩
  | installed {w w' : Disk} {ret : Int} : History w →
      Run (sdk cwd verify) pysdk_install_main w (some ret) w' → History w'
  | cut {w w' w'' : Disk} : History w → Run (sdk cwd verify) pysdk_install_main w none w' →
      Lost w' w'' → History w''

end System

/-- The flag file is there and the archive goes where it should. -/
def Steady (log : List Event) : Prop := .unseen ∉ log ∧ .astray ∉ log

/-- And the flag file gets to the disk with its number, behind the slot it names. -/
def Careful (log : List Event) : Prop := Steady log ∧ .unwritten ∉ log ∧ .lost ∉ log

/-- Nothing has been changed in a slot that was the active one. -/
def Untouched (log : List Event) : Prop :=
  ∀ part flag, .touched part flag ∈ log → flag ≠ some part

/-- The flag file is absent or names a slot, and that slot holds a verified SDK. -/
structure Kept (verify : Bytes → Bytes → Bool) (w : Disk) : Prop where
  readable : w.flag = none ∨ ∃ s, named w.flag = some s
  verified : ∀ s, named w.flag = some s → Verified verify (w.slots s)

/-! ### The log -/

section Log

variable {log : List Event} {e : Event}

@[simp] theorem steady_append :
    Steady (log ++ [e]) ↔ Steady log ∧ e ≠ .unseen ∧ e ≠ .astray := by
  simp only [Steady, List.mem_append, List.mem_singleton, not_or]
  constructor
  · rintro ⟨⟨h₁, h₂⟩, h₃, h₄⟩
    exact ⟨⟨h₁, h₃⟩, Ne.symm h₂, Ne.symm h₄⟩
  · rintro ⟨⟨h₁, h₃⟩, h₂, h₄⟩
    exact ⟨⟨h₁, Ne.symm h₂⟩, h₃, Ne.symm h₄⟩

@[simp] theorem careful_append : Careful (log ++ [e]) ↔
    Careful log ∧ e ≠ .unseen ∧ e ≠ .astray ∧ e ≠ .unwritten ∧ e ≠ .lost := by
  simp only [Careful, steady_append, List.mem_append, List.mem_singleton, not_or]
  constructor
  · rintro ⟨⟨hs, h₁, h₂⟩, ⟨hw, h₃⟩, hl, h₄⟩
    exact ⟨⟨hs, hw, hl⟩, h₁, h₂, Ne.symm h₃, Ne.symm h₄⟩
  · rintro ⟨⟨hs, hw, hl⟩, h₁, h₂, h₃, h₄⟩
    exact ⟨⟨hs, h₁, h₂⟩, ⟨hw, Ne.symm h₃⟩, hl, Ne.symm h₄⟩

theorem untouched_append (h : Untouched log) (he : ∀ part flag, e = .touched part flag →
    flag ≠ some part) : Untouched (log ++ [e]) := by
  intro part flag hm
  rcases List.mem_append.mp hm with hm | hm
  · exact h part flag hm
  · exact he part flag (List.mem_singleton.mp hm).symm

end Log

/-! ### What holds between two installations, and where the power can go -/

/-- Between two installations. -/
def Good (verify : Bytes → Bytes → Bool) (w : Disk) : Prop :=
  (Steady w.log → Untouched w.log) ∧ (Careful w.log → Kept verify w)

/-- Wherever the power can go: where the flag file is not settled nothing is said of it. -/
def Stop (verify : Bytes → Bytes → Bool) (w : Disk) : Prop :=
  (Steady w.log → Untouched w.log) ∧ (Careful w.log → w.older = [] → Kept verify w)

/-- While a slot is being filled: it is not the active one. -/
def Filling (verify : Bytes → Bytes → Bool) (part : Slot) (w : Disk) : Prop :=
  Good verify w ∧ (Steady w.log → named w.flag ≠ some part)

section Invariant

variable {verify : Bytes → Bytes → Bool} {w w' : Disk} {part : Slot}

theorem Good.stop (h : Good verify w) : Stop verify w := ⟨h.1, fun hc _ => h.2 hc⟩

theorem Filling.stop (h : Filling verify part w) : Stop verify w := h.1.stop

/-- **The slot that is being filled** can be changed. -/
theorem Filling.touch (h : Filling verify part w) (files : Files) :
    Filling verify part (w.touch part files) := by
  refine ⟨⟨fun hs => ?_, fun hc => ?_⟩, fun hs => h.2 (steady_append.mp hs).1⟩
  · have hs := (steady_append.mp hs).1
    refine untouched_append (h.1.1 hs) fun part' flag he => ?_
    cases he
    exact h.2 hs
  · have hc := (careful_append.mp hc).1
    refine ⟨(h.1.2 hc).readable, fun s hs => ?_⟩
    have hne : s ≠ part := fun he => h.2 hc.1 (he ▸ hs)
    show Verified verify (if s = part then files else w.slots s)
    rw [if_neg hne]
    exact (h.1.2 hc).verified s hs

/-- After a mishap that lies outside of what is promised there is nothing to show. -/
theorem Filling.of_not_steady (h : ¬ Steady w.log) : Filling verify part w :=
  ⟨⟨fun hs => absurd hs h, fun hc => absurd hc.1 h⟩, fun hs => absurd hs h⟩

/-- What is on the disk does not matter while the power is on. -/
theorem Filling.flushed (h : Filling verify part w) (older : List (Option Bytes))
    (synced : Slot → Bool) : Filling verify part { w with older := older, synced := synced } :=
  ⟨⟨h.1.1, fun hc => ⟨(h.1.2 hc).readable, (h.1.2 hc).verified⟩⟩, h.2⟩

theorem Good.flushed (h : Good verify w) (older : List (Option Bytes)) :
    Good verify { w with older := older } :=
  ⟨h.1, fun hc => ⟨(h.2 hc).readable, (h.2 hc).verified⟩⟩

/-- The flag file cut to nothing: its old version may still come back. -/
theorem Filling.emptied (h : Filling verify part w) : Stop verify (w.set_flag []) :=
  ⟨h.1.1, fun _ he => absurd he (List.cons_ne_nil _ _)⟩

theorem named_number (part : Slot) :
    named (some (asc (toString part.number))) = some part := by
  cases part
  · decide
  · decide

/-- **The number written**: the slot it stands for has been verified. -/
theorem Filling.numbered (h : Filling verify part w) (hv : Verified verify (w.slots part)) :
    Good verify ((w.set_flag []).set_flag (asc (toString part.number))) := by
  refine ⟨h.1.1, fun _ => ⟨Or.inr ⟨part, named_number part⟩, fun s hs => ?_⟩⟩
  obtain rfl : part = s := Option.some.inj ((named_number part).symm.trans hs)
  exact hv

/-- The number not written. -/
theorem Filling.unwritten (h : Filling verify part w) :
    Good verify ((w.set_flag []).add .unwritten) := by
  refine ⟨fun hs => ?_, fun hc => absurd rfl (careful_append.mp hc).2.2.2.1⟩
  refine untouched_append (h.1.1 (steady_append.mp hs).1) fun part' flag he => ?_
  cases he

/-- **A power loss** where the flag file and its slot are on the disk leaves both. -/
theorem Stop.lost (h : Stop verify w) (hl : Lost w w') : Good verify w' := by
  rcases hl.log with ⟨hexp, hlog⟩ | ⟨-, hlog⟩
  · obtain ⟨hold, hsync⟩ := not_or.mp hexp
    have hold : w.older = [] := not_not.mp hold
    have hflag : w'.flag = w.flag := by
      have := hl.flag
      rw [hold] at this
      exact List.mem_singleton.mp this
    refine ⟨fun hs => ?_, fun hc => ?_⟩
    · rw [hlog] at hs ⊢
      exact h.1 hs
    · rw [hlog] at hc
      have hk := h.2 hc hold
      refine ⟨by rw [hflag]; exact hk.readable, fun s hs => ?_⟩
      rw [hflag] at hs
      have hss : w.synced s = true := by
        by_contra hne
        exact hsync ⟨s, hs, Bool.eq_false_iff.mpr hne⟩
      rw [hl.slots s hss]
      exact hk.verified s hs
  · refine ⟨fun hs => ?_, fun hc => ?_⟩
    · rw [hlog] at hs ⊢
      refine untouched_append (h.1 (steady_append.mp hs).1) fun part flag he => ?_
      cases he
    · rw [hlog] at hc
      exact absurd rfl (careful_append.mp hc).2.2.2.2

end Invariant

/-! ### One installation -/

section Install

variable {cwd : Option Slot} {verify : Bytes → Bytes → Bool} {w : Disk} {part : Slot} {α : Type}

/-- An operation and what comes behind it. -/
theorem wp_op {c : SdkCall} {k : SdkRet c → Prog SdkRet α} {Q : α → Disk → Prop}
    (hw : Stop verify w)
    (hk : ∀ r w', sdkStep cwd verify w c r w' → wp (sdk cwd verify) (k r) Q (Stop verify) w') :
    wp (sdk cwd verify) (op c >>= k) Q (Stop verify) w := by
  rw [Prog.ask_bind, wp_call]
  refine ⟨hw, fun w' hc => ?_, hk⟩
  rcases hc with rfl | ⟨r, hs⟩
  · exact hw
  · exact (hk r w' hs).stop

theorem wp_last {c : SdkCall} {Q : SdkRet c → Disk → Prop} (hw : Stop verify w)
    (hk : ∀ r w', sdkStep cwd verify w c r w' → Q r w' ∧ Stop verify w') :
    wp (sdk cwd verify) (op c) Q (Stop verify) w := by
  rw [op, Prog.ask, wp_call]
  refine ⟨hw, fun w' hc => ?_, fun r w' hs => wp_pure.mpr (hk r w' hs)⟩
  rcases hc with rfl | ⟨r, hs⟩
  · exact hw
  · exact (hk r w' hs).2

theorem wp_clear (h : Filling verify part w) :
    wp (sdk cwd verify) (clear part) (fun _ => Filling verify part) (Stop verify) w := by
  unfold clear
  apply wp_op h.stop
  rintro there w' rfl
  split
  · exact wp_pure.mpr ⟨h, h.stop⟩
  · apply wp_last h.stop
    rintro - w'' (rfl | ⟨files, rfl⟩)
    · exact ⟨h, h.stop⟩
    · exact ⟨h.touch files, (h.touch files).stop⟩

theorem wp_unpack (h : Filling verify part w) :
    wp (sdk cwd verify) (unpack part) (fun _ => Filling verify part) (Stop verify) w := by
  unfold unpack
  apply wp_op h.stop
  rintro there w' rfl
  have hunzip : ∀ r w'', sdkStep cwd verify w' (.unzip (if there = false then none else some part))
      r w'' → Filling verify part w'' := by
    intro r w'' hs
    cases there with
    | true =>
      rcases hs with rfl | ⟨files, rfl⟩
      · exact h
      · exact h.touch files
    | false =>
      rcases hs with rfl | ⟨s, files, -, rfl⟩
      · exact h
      · exact .of_not_steady fun hs => (steady_append.mp hs).2.2 rfl
  apply wp_op h.stop
  intro r w₁ hs
  have h₁ := hunzip r w₁ hs
  apply wp_op h₁.stop
  intro r w₂ hs
  have h₂ : Filling verify part w₂ := by
    rcases hs with rfl | rfl
    · exact h₁.flushed _ _
    · exact h₁
  apply wp_last h₂.stop
  rintro ret w₃ rfl
  exact ⟨h₂, h₂.stop⟩

theorem wp_verify (h : Filling verify part w) :
    wp (sdk cwd verify) (pysdk_verify_ok part)
      (fun ok w' => Filling verify part w' ∧ (ok = true → Verified verify (w'.slots part)))
      (Stop verify) w := by
  unfold pysdk_verify_ok
  apply wp_op h.stop
  rintro names w' rfl
  split
  · exact wp_pure.mpr ⟨⟨h, fun hf => absurd hf (by decide)⟩, h.stop⟩
  · rename_i file _
    apply wp_last h.stop
    rintro ok w'' ⟨rfl, hok⟩
    refine ⟨⟨h, fun ht => ?_⟩, h.stop⟩
    obtain ⟨sdk, sign, hsdk, hsign, hv⟩ := hok ht
    exact ⟨file, sdk, sign, hsdk, hsign, hv⟩

theorem wp_flag (h : Filling verify part w) (hv : Verified verify (w.slots part)) :
    wp (sdk cwd verify) (write_pysdk_upgarde_flag part.number) (fun _ => Good verify) (Stop verify)
      w := by
  unfold write_pysdk_upgarde_flag
  apply wp_op h.stop
  rintro fp w' (⟨rfl, rfl⟩ | ⟨rfl, rfl⟩)
  · rw [if_pos rfl]
    exact wp_pure.mpr ⟨h.1, h.stop⟩
  · rw [if_neg (by decide)]
    apply wp_op h.emptied
    intro r w₁ hs
    have h₁ : Good verify w₁ := by
      rcases hs with rfl | rfl
      · exact h.numbered hv
      · exact h.unwritten
    apply wp_op h₁.stop
    intro r w₂ hs
    have h₂ : Good verify w₂ := by
      rcases hs with rfl | rfl
      · exact h₁.flushed []
      · exact h₁
    exact wp_pure.mpr ⟨h₂, h₂.stop⟩

theorem wp_finish {ok : Bool} (h : Filling verify part w)
    (hv : ok = true → Verified verify (w.slots part)) :
    wp (sdk cwd verify) (finish part ok) (fun _ => Good verify) (Stop verify) w := by
  unfold finish
  split
  · refine wp_bind (wp_mono (wp_clear h) (fun _ w' h' => ?_) fun _ h => h)
    exact wp_pure.mpr ⟨h'.1, h'.stop⟩
  · rename_i hok
    refine wp_bind (wp_mono (wp_flag h (hv (by simpa using hok))) (fun _ w' h' => ?_) fun _ h => h)
    apply wp_op h'.stop
    rintro r w'' rfl
    exact wp_pure.mpr ⟨h', h'.stop⟩

theorem wp_install (h : Filling verify part w) :
    wp (sdk cwd verify) (install part) (fun _ => Good verify) (Stop verify) w := by
  unfold install
  refine wp_bind (wp_mono (wp_clear h) (fun _ w₁ h₁ => ?_) fun _ h => h)
  refine wp_bind (wp_mono (wp_unpack h₁) (fun ret w₂ h₂ => ?_) fun _ h => h)
  split
  · exact wp_pure.mpr ⟨h₂.1, h₂.stop⟩
  · refine wp_bind (wp_mono (wp_verify h₂) (fun ok w₃ h₃ => ?_) fun _ h => h)
    exact wp_finish h₃.1 h₃.2

/-- The slot that is free for a flag file is not the one it names. -/
theorem named_ne_other {content : Bytes} {part : Slot} (h : other content = some part) :
    named (some content) ≠ some part := by
  unfold other at h
  show (if flag_value content = 1 then some Slot.pysdk1
    else if flag_value content = 2 then some .pysdk2 else none) ≠ some part
  split at h
  · rename_i h1
    rw [if_pos h1, ← h]
    decide
  · rename_i h1
    rw [if_neg h1]
    split at h
    · rename_i h2
      rw [if_pos h2, ← h]
      decide
    · cases h

theorem wp_partition (h : Good verify w) :
    wp (sdk cwd verify) pysdk_upgrade_partition
      (fun part w' => Good verify w' ∧ ∀ s, part = some s → Filling verify s w') (Stop verify) w := by
  unfold pysdk_upgrade_partition
  apply wp_op h.stop
  rintro there w' (⟨rfl, rfl⟩ | ⟨rfl, -, rfl⟩)
  · split
    · -- without a flag file no slot is active
      rename_i hnone
      refine wp_pure.mpr ⟨⟨h, fun s _ => ⟨h, fun _ => ?_⟩⟩, h.stop⟩
      rw [Option.isSome_eq_false_iff, Option.isNone_iff_eq_none] at hnone
      rw [hnone]
      simp [named]
    · apply wp_op h.stop
      rintro content w'' ⟨hc, rfl⟩
      refine wp_pure.mpr ⟨⟨h, fun s hs => ⟨h, fun _ => ?_⟩⟩, h.stop⟩
      obtain ⟨c, rfl, hother⟩ := Option.bind_eq_some_iff.mp hs
      rcases hc with hc | hc | hc
      · rw [← hc]
        exact named_ne_other hother
      · cases hc
      · obtain rfl := Option.some.inj hc
        rw [show other [] = none by decide] at hother
        cases hother
  · rw [if_pos rfl]
    have hns : ¬ Steady (w.add .unseen).log := fun hs => (steady_append.mp hs).2.1 rfl
    refine wp_pure.mpr ⟨⟨(Filling.of_not_steady hns : Filling verify .pysdk1 _).1,
      fun s _ => .of_not_steady hns⟩, (Filling.of_not_steady hns : Filling verify .pysdk1 _).stop⟩

/-- **One installation**, to its end or to any stop. -/
theorem wp_main (h : Good verify w) :
    wp (sdk cwd verify) pysdk_install_main (fun _ => Good verify) (Stop verify) w := by
  unfold pysdk_install_main
  apply wp_op h.stop
  rintro there w' rfl
  split
  · exact wp_pure.mpr ⟨h, h.stop⟩
  · refine wp_bind (wp_mono (wp_partition h) (fun part w₁ h₁ => ?_) fun _ h => h)
    cases part with
    | none => exact wp_pure.mpr ⟨h₁.1, h₁.1.stop⟩
    | some s => exact wp_install (h₁.2 s rfl)

end Install

/-! ### All histories -/

section History

variable {cwd : Option Slot} {verify : Bytes → Bytes → Bool} {w : Disk}

theorem good_of_history (h : History cwd verify w) : Good verify w := by
  induction h with
  | start slots =>
    refine ⟨fun _ part flag hm => absurd hm List.not_mem_nil, fun _ => ⟨Or.inl rfl, fun s hs => ?_⟩⟩
    cases hs
  | installed _ hr ih => exact (wp_main ih).1 _ _ hr
  | cut _ hr hl ih => exact ((wp_main ih).2 _ hr).lost hl

/-- **The active slot and the flag file**, over all histories in which the flag file and
the slot it names get to the disk. -/
theorem slots_kept (h : History cwd verify w) (hc : Careful w.log) :
    (∀ part flag, .touched part flag ∈ w.log → flag ≠ some part) ∧
      (w.flag = none ∨ ∃ s, named w.flag = some s) ∧
      ∀ s, named w.flag = some s → Verified verify (w.slots s) := by
  have hgood := good_of_history h
  have hkept := hgood.2 hc
  exact ⟨hgood.1 hc.1, hkept.readable, hkept.verified⟩

/-- The active slot is safe even where the flag file is not. -/
theorem active_untouched (h : History cwd verify w) (hs : Steady w.log) : Untouched w.log :=
  (good_of_history h).1 hs

end History

/-! ### A flag file that names no slot -/

section Refused

variable {cwd : Option Slot} {verify : Bytes → Bytes → Bool} {w w' : Disk}

/-- What has happened stays in the log. -/
theorem unseen_step {c : SdkCall} {r : SdkRet c} (h : .unseen ∈ w.log)
    (hs : sdkStep cwd verify w c r w') : .unseen ∈ w'.log := by
  have htouch : ∀ part files, Event.unseen ∈ (w.touch part files).log := fun part files =>
    List.mem_append_left _ h
  cases c with
  | access_flag =>
    rcases hs with ⟨-, rfl⟩ | ⟨-, -, rfl⟩
    · exact h
    · exact List.mem_append_left _ h
  | read_flag =>
    obtain ⟨-, rfl⟩ := hs
    exact h
  | rm part =>
    rcases hs with rfl | ⟨files, rfl⟩
    · exact h
    · exact htouch part files
  | unzip dir =>
    cases dir with
    | some part =>
      rcases hs with rfl | ⟨files, rfl⟩
      · exact h
      · exact htouch part files
    | none =>
      rcases hs with rfl | ⟨part, files, -, rfl⟩
      · exact h
      · exact List.mem_append_left _ (htouch part files)
  | sync =>
    rcases hs with rfl | rfl
    · exact h
    · exact h
  | verify part file =>
    obtain ⟨rfl, -⟩ := hs
    exact h
  | open_flag =>
    rcases hs with ⟨-, rfl⟩ | ⟨-, rfl⟩
    · exact h
    · exact h
  | write_flag partition =>
    rcases hs with rfl | rfl
    · exact h
    · exact List.mem_append_left _ h
  | sync_flag =>
    rcases hs with rfl | rfl
    · exact h
    · exact h
  | access_zip => obtain rfl : w' = w := hs; exact h
  | cd part => obtain rfl : w' = w := hs; exact h
  | rm_zip => obtain rfl : w' = w := hs; exact h
  | list part => obtain rfl : w' = w := hs; exact h
  | restart_python => obtain rfl : w' = w := hs; exact h

/-- **No way back.**  With a flag file that names no slot an installation comes to its
end with -1 and changes nothing. -/
theorem refused {content : Bytes} (hf : w.flag = some content) (hn : other content = none) :
    wp (sdk cwd verify) pysdk_install_main (fun ret w' => .unseen ∉ w'.log → ret = -1 ∧ w' = w)
      (fun w' => .unseen ∉ w'.log → w' = w) w := by
  have hstay : ∀ {β : Type} {Q : β → Disk → Prop} {c : SdkCall} {k : SdkRet c → Prog SdkRet β},
      (∀ r w', sdkStep cwd verify w c r w' →
        wp (sdk cwd verify) (k r) Q (fun w' => .unseen ∉ w'.log → w' = w) w') →
      wp (sdk cwd verify) (op c >>= k) Q (fun w' => .unseen ∉ w'.log → w' = w) w := by
    intro β Q c k hk
    rw [Prog.ask_bind, wp_call]
    refine ⟨fun _ => rfl, fun w' hc => ?_, hk⟩
    rcases hc with rfl | ⟨r, hs⟩
    · exact fun _ => rfl
    · exact (hk r w' hs).stop
  unfold pysdk_install_main
  apply hstay
  rintro there w' rfl
  split
  · exact wp_pure.mpr ⟨fun _ => ⟨rfl, rfl⟩, fun _ => rfl⟩
  · unfold pysdk_upgrade_partition
    refine wp_bind ?_
    apply hstay
    rintro there' w'' (⟨rfl, rfl⟩ | ⟨rfl, -, rfl⟩)
    · rw [if_neg (by simp [hf])]
      apply hstay
      rintro r w₁ ⟨hr, rfl⟩
      have hnone : r.bind other = none := by
        rcases hr with rfl | rfl | rfl
        · rw [hf]
          exact hn
        · rfl
        · decide
      rw [hnone]
      exact wp_pure.mpr ⟨wp_pure.mpr ⟨fun _ => ⟨rfl, rfl⟩, fun _ => rfl⟩, fun _ => rfl⟩
    · -- whatever follows, the log says so
      rw [if_pos rfl]
      have hu : Event.unseen ∈ (w'.add .unseen).log :=
        List.mem_append_right _ (List.mem_singleton_self _)
      have hkeep := wp_keeps (S := sdk cwd verify) (I := fun w => Event.unseen ∈ w.log)
        (fun w c r w' _ hw hs => unseen_step hw hs)
        (fun w c w' _ hw hc => by
          rcases hc with rfl | ⟨r, hs⟩
          · exact hw
          · exact unseen_step hw hs)
        (Prog.only_true (install .pysdk1)) hu
      exact wp_pure.mpr ⟨wp_mono hkeep (fun _ _ h hne => absurd h hne) fun _ h hne => absurd h hne,
        fun hne => absurd hu hne⟩

end Refused

/-! ### An installation, and one that is cut short -/

/-- An archive and its signature. -/
def sdkFiles : Files := fun name =>
  if name = asc "pysdk.tar.gz" ∨ name = asc "pysdk.sign" then some [7] else none

/-- A signature that is right when it is the file itself. -/
def same (sdk sign : Bytes) : Bool := sdk == sign

/-- No flag file, and nothing in the slots. -/
def factory : Disk := ⟨none, [], fun _ _ => none, fun _ => true, []⟩

/-- The first slot unpacked. -/
def filled : Disk :=
  { (factory.touch .pysdk1 fun _ => none).touch .pysdk1 sdkFiles with
    older := [], synced := fun _ => true }

/-- And named by the flag file. -/
def finished : Disk := { (filled.set_flag []).set_flag (asc "1") with older := [] }

/-- The flag file cut to nothing by a power loss. -/
def emptied : Disk := { filled with flag := some [], log := filled.log ++ [.lost] }

theorem run_clear (part : Slot) (files : Files) (w : Disk) :
    Run (sdk none same) (clear part) w (some ()) (w.touch part files) := by
  unfold clear
  rw [Prog.ask_bind]
  refine .call (r := true) rfl ?_
  rw [if_neg (by simp)]
  exact .call (r := ()) (Or.inr ⟨files, rfl⟩) (.ret _ _)

theorem run_unpack (part : Slot) (files : Files) (w : Disk) :
    Run (sdk none same) (unpack part) w (some 0)
      { w.touch part files with older := [], synced := fun _ => true } := by
  unfold unpack
  rw [Prog.ask_bind]
  refine .call (r := true) rfl ?_
  rw [if_neg (by simp), Prog.ask_bind]
  refine .call (r := ()) (Or.inr ⟨files, rfl⟩) ?_
  rw [Prog.ask_bind]
  refine .call (r := ()) (Or.inl rfl) ?_
  exact .call (r := (0 : Int)) rfl (.ret _ _)

theorem run_verify : Run (sdk none same) (pysdk_verify_ok .pysdk1) filled (some true) filled := by
  unfold pysdk_verify_ok
  rw [Prog.ask_bind]
  refine .call (r := some [asc "pysdk.sign", asc "pysdk.tar.gz"]) rfl ?_
  rw [show (some [asc "pysdk.sign", asc "pysdk.tar.gz"]).bind archive = some (asc "pysdk.tar.gz") by
    decide]
  exact .call (r := true) ⟨rfl, fun _ => ⟨[7], [7], by decide, by decide, rfl⟩⟩ (.ret _ _)

/-- Up to the flag file, whatever comes then. -/
theorem run_main {o : Option Int} {w : Disk}
    (h : Run (sdk none same) (finish .pysdk1 true) filled o w) :
    Run (sdk none same) pysdk_install_main factory o w := by
  have hpart : Run (sdk none same) pysdk_upgrade_partition factory (some (some .pysdk1)) factory := by
    unfold pysdk_upgrade_partition
    rw [Prog.ask_bind]
    refine .call (r := false) (Or.inl ⟨rfl, rfl⟩) ?_
    rw [if_pos rfl]
    exact .ret _ _
  unfold pysdk_install_main
  rw [Prog.ask_bind]
  refine .call (r := true) rfl ?_
  rw [if_neg (by decide)]
  refine hpart.bind ?_
  show Run (sdk none same) (install .pysdk1) factory o w
  unfold install
  refine (run_clear .pysdk1 (fun _ => none) factory).bind ?_
  refine (run_unpack .pysdk1 sdkFiles _).bind ?_
  rw [if_neg (by decide)]
  exact run_verify.bind h

theorem history_finished : History none same finished := by
  refine @History.installed _ _ _ _ 0 (.start fun _ _ => none) (run_main ?_)
  unfold finish
  rw [if_neg (by decide)]
  have hflag : Run (sdk none same) (write_pysdk_upgarde_flag Slot.pysdk1.number) filled (some 0)
      finished := by
    unfold write_pysdk_upgarde_flag
    rw [Prog.ask_bind]
    refine .call (r := true) (Or.inr ⟨rfl, rfl⟩) ?_
    rw [if_neg (by decide), Prog.ask_bind]
    refine .call (r := ()) (Or.inl rfl) ?_
    rw [Prog.ask_bind]
    exact .call (r := ()) (Or.inl rfl) (.ret _ _)
  refine hflag.bind ?_
  rw [Prog.ask_bind]
  exact .call (r := ()) rfl (.ret _ _)

theorem careful_finished : Careful finished.log := by
  simp [Careful, Steady, finished, filled, factory, Disk.touch, Disk.set_flag]

/-- The first installation, to its end. -/
theorem slots_kept_finished :
    (∀ part flag, .touched part flag ∈ finished.log → flag ≠ some part) ∧
      (finished.flag = none ∨ ∃ s, named finished.flag = some s) ∧
      ∀ s, named finished.flag = some s → Verified same (finished.slots s) :=
  slots_kept history_finished careful_finished

theorem history_emptied : History none same emptied := by
  refine @History.cut _ _ _ (filled.set_flag []) _ (.start fun _ _ => none) (run_main ?_) ?_
  · unfold finish
    rw [if_neg (by decide)]
    unfold write_pysdk_upgarde_flag
    rw [Prog.ask_bind, Prog.call_bind]
    refine .call (r := true) (Or.inr ⟨rfl, rfl⟩) ?_
    exact .off _ _
  · refine ⟨List.mem_cons_self, rfl, fun _ _ => rfl, fun _ => rfl, Or.inr ⟨Or.inl ?_, rfl⟩⟩
    exact List.cons_ne_nil _ _

/-- The first installation, cut short between `fopen` and `fflush`: the flag file is there
and names no slot. -/
theorem flag_emptied :
    ¬ ∀ (cwd : Option Slot) (verify : Bytes → Bytes → Bool) (w : Disk), History cwd verify w →
      (∀ part flag, .touched part flag ∈ w.log → flag ≠ some part) ∧
        (w.flag = none ∨ ∃ s, named w.flag = some s) ∧
        ∀ s, named w.flag = some s → Verified verify (w.slots s) := by
  intro h
  rcases (h none same emptied history_emptied).2.1 with hflag | ⟨s, hs⟩
  · cases hflag
  · rw [show named emptied.flag = none by decide] at hs
    cases hs

end Boxing.Pysdk
