import Boxing.Ig9.Upgrade

/-!
# The bank that is known good stays

The flag word names a bank with its upper bit and counts boots in its low byte.
An upgrade writes a bank, and sets the flag to that bank with a count that is not
zero; a boot loader that has come up clears the count, and so confirms the bank.

What is invariant is one sentence: *with a count of zero the flag names the last
confirmed bank, and with any other count it names the other one* (`Inv`).  The
upgrade reads the flag, and writes the bank the flag does not name in the first
case and the one it names in the second (`target_ne`, `target_eq`): so in both it
is not the last confirmed one.  Until the flag is set a stop anywhere leaves the
flag as it was, and after that the new flag fits the sentence again.
-/

namespace Boxing.Ig9

open C Device

/-! ### The flag word -/

/-- The index `I`, as the bank it names. -/
def bank (flag : BitVec 32) : Part := if flag &&& 0x80000000 ≠ 0 then .secondos else .firstos

/-- The count `CNT`. -/
def cnt (flag : BitVec 32) : BitVec 32 := flag &&& 0xff

/-- The upper bit by itself. -/
theorem and_upper (flag : BitVec 32) :
    flag &&& 0x80000000 = 0 ∨ flag &&& 0x80000000 = 0x80000000 := by
  have h := BitVec.and_twoPow flag 31
  by_cases hb : flag.getLsbD 31 = true
  · rw [if_pos hb] at h
    exact Or.inr h
  · rw [if_neg hb] at h
    exact Or.inl h

/-- With a count of zero the upgrade writes the other bank. -/
theorem target_ne {flag : BitVec 32} (h : cnt flag = 0) : target flag ≠ bank flag := by
  rw [cnt] at h
  rw [target, bank, turned, if_neg (not_not.mpr h)]
  by_cases hi : flag &&& 0x80000000 ≠ 0
  · rw [if_pos hi, if_pos hi]
    decide
  · rw [if_neg hi, if_neg hi]
    decide

/-- With any other count it writes the bank the flag names. -/
theorem target_eq {flag : BitVec 32} (h : cnt flag ≠ 0) : target flag = bank flag := by
  rw [cnt] at h
  rw [target, bank, turned, if_pos h]
  rcases and_upper flag with hi | hi
  · rw [hi]
    decide
  · rw [hi]
    decide

/-- The new flag names the bank that was written, with a count. -/
theorem bank_new_flag (flag : BitVec 32) : bank (new_flag flag) = target flag := by
  rw [new_flag, target]
  split
  · decide
  · decide

theorem cnt_new_flag (flag : BitVec 32) : cnt (new_flag flag) ≠ 0 := by
  rw [new_flag]
  split
  · decide
  · decide

/-! ### The system -/

/-- What happens to the flash. -/
inductive Event
  | touched (part : Part)
  | flagged (flag : BitVec 32)
  | confirmed (part : Part)
deriving DecidableEq

/-- The flag word, and everything that has happened. -/
structure System where
  flag : BitVec 32
  log : List Event

/-- The bank confirmed last. -/
def lastConfirmed (log : List Event) : Option Part :=
  log.foldl (fun b e => match e with | .confirmed part => some part | _ => b) none

/-- The partition erased or written last. -/
def lastTouched (log : List Event) : Option Part :=
  log.foldl (fun b e => match e with | .touched part => some part | _ => b) none

/-- One more event. -/
def System.add (w : System) (e : Event) : System := { w with log := w.log ++ [e] }

/-- The calls: reads of the file and of the flag succeed, an erase or a write may do
anything to its partition, and the flag is set or not. -/
def bankStep : System → (c : IgCall) → IgRet c → System → Prop
  | w, .f_exists, _, w' => w' = w
  | w, .open_file, _, w' => w' = w
  | w, .fstat, _, w' => w' = w
  | w, .mtd_erase part _ _, _, w' => w' = w.add (.touched part)
  | w, .part_open _, _, w' => w' = w
  | w, .read _ len, r, w' => (∃ d : Bytes, r = some d ∧ d.length ≤ len) ∧ w' = w
  | w, .write part _ _, _, w' => w' = w.add (.touched part)
  | w, .bootenv_set _ _, _, w' => w' = w
  | w, .mmap _ _, _, w' => w' = w
  | w, .munmap, _, w' => w' = w
  | w, .read_bootflag, r, w' => r = w.flag ∧ w' = w
  | w, .set_bootflag flag, _, w' => w' = w ∨ w' = ⟨flag, w.log ++ [.flagged flag]⟩

/-- The power may go before, during and after each call. -/
def banks : Sem IgRet System where
  step := bankStep
  cut := fun w c w' => w' = w ∨ ∃ r, bankStep w c r w'

/-- A board that booted the bank its flag names. -/
def System.start (flag : BitVec 32) : System := ⟨flag, [.confirmed (bank flag)]⟩

/-- The histories of a board: upgrades that come to an end or are cut short
anywhere, and confirmations, in any number and order. -/
inductive History (cfg : Config) : System → Prop
  | start {flag : BitVec 32} : cnt flag = 0 → History cfg (.start flag)
  | upgrade {w w' : System} {o : Option Exit} {upgrade_boot : Bool} {buf behind : Bytes} :
      History cfg w → Run banks (upgrade_main_board cfg upgrade_boot buf behind) w o w' →
      History cfg w'
  | confirm {w : System} {flag : BitVec 32} : History cfg w → cnt flag = 0 →
      flag &&& 0x80000000 = w.flag &&& 0x80000000 →
      History cfg ⟨flag, w.log ++ [.confirmed (bank w.flag)]⟩

/-- No erase or write touches the bank confirmed last, and every flag that is set
names the bank just written. -/
structure Safe (log : List Event) : Prop where
  untouched : ∀ pre post part, log = pre ++ .touched part :: post → lastConfirmed pre ≠ some part
  named : ∀ pre post flag, log = pre ++ .flagged flag :: post → lastTouched pre = some (bank flag)

/-- With a count of zero the flag names the last confirmed bank, and with any other
count the other one. -/
def Inv (w : System) : Prop :=
  ∃ good, lastConfirmed w.log = some good ∧ (good = .firstos ∨ good = .secondos) ∧
    if cnt w.flag = 0 then bank w.flag = good else bank w.flag ≠ good

section Log

variable {log : List Event} {part : Part} {flag : BitVec 32}

@[simp] theorem lastConfirmed_touched : lastConfirmed (log ++ [.touched part]) = lastConfirmed log := by
  rw [lastConfirmed, List.foldl_append]
  rfl

@[simp] theorem lastConfirmed_flagged : lastConfirmed (log ++ [.flagged flag]) = lastConfirmed log := by
  rw [lastConfirmed, List.foldl_append]
  rfl

@[simp] theorem lastConfirmed_confirmed : lastConfirmed (log ++ [.confirmed part]) = some part := by
  rw [lastConfirmed, List.foldl_append]
  rfl

@[simp] theorem lastTouched_touched : lastTouched (log ++ [.touched part]) = some part := by
  rw [lastTouched, List.foldl_append]
  rfl

/-- An event at the end of a log, or in it. -/
theorem append_singleton_eq {e x : Event} {pre post : List Event}
    (h : log ++ [e] = pre ++ x :: post) :
    (x = e ∧ pre = log) ∨ ∃ post', log = pre ++ x :: post' := by
  rcases List.eq_nil_or_concat post with rfl | ⟨post', y, rfl⟩
  · obtain ⟨hlog, he⟩ := List.append_inj' h rfl
    exact Or.inl ⟨(List.cons.inj he).1.symm, hlog.symm⟩
  · rw [List.concat_eq_append, ← List.cons_append, ← List.append_assoc] at h
    obtain ⟨hlog, -⟩ := List.append_inj' h rfl
    exact Or.inr ⟨post', hlog⟩

/-- A log stays safe when the new event is in order. -/
theorem Safe.append {e : Event} (h : Safe log)
    (hpart : ∀ part, e = .touched part → lastConfirmed log ≠ some part)
    (hflag : ∀ flag, e = .flagged flag → lastTouched log = some (bank flag)) : Safe (log ++ [e]) := by
  refine ⟨fun pre post x hx => ?_, fun pre post x hx => ?_⟩
  · rcases append_singleton_eq hx with ⟨he, rfl⟩ | ⟨post', hlog⟩
    · exact hpart x he.symm
    · exact h.untouched pre post' x hlog
  · rcases append_singleton_eq hx with ⟨he, rfl⟩ | ⟨post', hlog⟩
    · exact hflag x he.symm
    · exact h.named pre post' x hlog

theorem Safe.touched (h : Safe log) (hp : lastConfirmed log ≠ some part) :
    Safe (log ++ [.touched part]) := by
  refine h.append (fun x he => ?_) (fun x he => ?_)
  · cases he
    exact hp
  · cases he

theorem Safe.flagged (h : Safe log) (hp : lastTouched log = some (bank flag)) :
    Safe (log ++ [.flagged flag]) := by
  refine h.append (fun x he => ?_) (fun x he => ?_)
  · cases he
  · cases he
    exact hp

theorem Safe.confirmed (h : Safe log) : Safe (log ++ [.confirmed part]) := by
  refine h.append (fun x he => ?_) (fun x he => ?_)
  · cases he
  · cases he

end Log

/-! ### One upgrade -/

/-- What holds at every stop. -/
def Good (w : System) : Prop := Inv w ∧ Safe w.log

section Upgrade

variable {cfg : Config} {w : System}

/-- A flag that fits the invariant is not the flag of the bank to be written. -/
theorem Inv.target_ne_good (h : Inv w) : lastConfirmed w.log ≠ some (target w.flag) := by
  obtain ⟨good, hgood, -, hflag⟩ := h
  rw [hgood]
  intro he
  obtain rfl := Option.some.inj he
  by_cases hc : cnt w.flag = 0
  · rw [if_pos hc] at hflag
    exact target_ne hc hflag.symm
  · rw [if_neg hc] at hflag
    exact hflag (target_eq hc).symm

theorem Good.touched (h : Good w) {part : Part} (hp : lastConfirmed w.log ≠ some part) :
    Good (w.add (.touched part)) := by
  obtain ⟨good, hgood, hpart, hflag⟩ := h.1
  exact ⟨⟨good, by rw [System.add, lastConfirmed_touched]; exact hgood, hpart, hflag⟩,
    h.2.touched hp⟩

/-- The calls that leave flag and banks alone. -/
def Aside : IgCall → Prop
  | .mtd_erase part _ _ => part = .bootloader
  | .write part _ _ => part = .bootloader
  | .set_bootflag _ => False
  | _ => True

theorem aside_step {c : IgCall} {r : IgRet c} {w' : System} (hc : Aside c) (h : Good w)
    (hs : bankStep w c r w') : Good w' := by
  have hboot : lastConfirmed w.log ≠ some .bootloader := by
    obtain ⟨good, hgood, hpart, -⟩ := h.1
    rw [hgood]
    rcases hpart with rfl | rfl
    · decide
    · decide
  cases c with
  | mtd_erase part start count =>
    obtain rfl : part = .bootloader := hc
    obtain rfl : w' = w.add (.touched .bootloader) := hs
    exact h.touched hboot
  | write part buf size =>
    obtain rfl : part = .bootloader := hc
    obtain rfl : w' = w.add (.touched .bootloader) := hs
    exact h.touched hboot
  | set_bootflag flag => exact hc.elim
  | read pos len =>
    obtain rfl : w' = w := hs.2
    exact h
  | read_bootflag =>
    obtain rfl : w' = w := hs.2
    exact h
  | f_exists => obtain rfl : w' = w := hs; exact h
  | open_file => obtain rfl : w' = w := hs; exact h
  | fstat => obtain rfl : w' = w := hs; exact h
  | part_open part => obtain rfl : w' = w := hs; exact h
  | bootenv_set name value => obtain rfl : w' = w := hs; exact h
  | mmap pos len => obtain rfl : w' = w := hs; exact h
  | munmap => obtain rfl : w' = w := hs; exact h

/-- Power lost before, during or after such a call. -/
theorem aside_cut {c : IgCall} {w' : System} (hc : Aside c) (h : Good w)
    (hcut : banks.cut w c w') : Good w' := by
  rcases hcut with rfl | ⟨r, hs⟩
  · exact h
  · exact aside_step hc h hs

theorem aside_of_looks (c : IgCall) (h : Looks c) : Aside c := by
  cases c with
  | read pos len => trivial
  | mmap pos len => trivial
  | munmap => trivial
  | _ => exact h.elim

theorem only_scan (cfg : Config) (mem : Bytes) (s : Scan) :
    Prog.Only Aside (scan_body cfg mem s) := by
  rw [scan_body]
  split
  · exact trivial
  · split
    · exact trivial
    · split
      · exact trivial
      · split
        · split
          · exact trivial
          · exact ⟨trivial, fun _ => trivial⟩
        · exact trivial

theorem only_copy (cfg : Config) (s : Copy) : Prog.Only Aside (copy_body cfg s) := by
  rw [copy_body]
  split
  · exact ⟨trivial, fun _ => ⟨rfl, fun _ => trivial⟩⟩
  · exact trivial

theorem only_blocks (cfg : Config) (behind : Bytes) (s : Blocks) :
    Prog.Only Aside (blocks_body cfg behind s) := by
  rw [blocks_body]
  split
  · rw [Prog.ask_bind, Prog.only_call]
    refine ⟨trivial, fun r => ?_⟩
    rw [Prog.iterate_bind, Prog.only_loop]
    refine ⟨fun s => only_scan cfg _ s, fun scan => ?_⟩
    cases scan with
    | none => exact trivial
    | some scan =>
      simp only
      split
      · exact trivial
      · exact trivial
  · exact trivial

theorem only_bootloader (cfg : Config) (buf behind : Bytes) :
    Prog.Only Aside (upgrade_bootloader cfg buf behind) := by
  rw [upgrade_bootloader, Prog.ask_bind, Prog.only_call]
  refine ⟨rfl, fun _ => ?_⟩
  rw [Prog.ask_bind, Prog.only_call]
  refine ⟨trivial, fun bootFd => ?_⟩
  split
  · exact trivial
  · rw [Prog.iterate_bind, Prog.only_loop]
    refine ⟨only_copy cfg, fun copy => ?_⟩
    rw [Prog.iterate_bind, Prog.only_loop]
    refine ⟨only_blocks cfg behind, fun ok => ?_⟩
    split
    · exact trivial
    · exact trivial

end Upgrade

/-! ### The rule for an upgrade -/

section Stages

variable {W : Type} {S : Sem IgRet W} {cfg : Config} {upgrade_boot : Bool} {buf behind : Bytes}
  {I C : W → Prop} {Q : Exit → W → Prop} {w w' : W}

/-- The boot loader leaves by an exit only to fail. -/
theorem bootloader_exit {e : Exit}
    (h : Run S (upgrade_bootloader cfg buf behind) w (some (some e)) w') : e ≠ .success := by
  rw [upgrade_bootloader, Prog.ask_bind, Run.some_call] at h
  obtain ⟨r, w₁, -, h⟩ := h
  rw [Prog.ask_bind, Run.some_call] at h
  obtain ⟨bootFd, w₂, -, h⟩ := h
  split at h
  · cases (Run.some_pure.mp h).1
    decide
  rw [Run.some_bind] at h
  obtain ⟨copy, w₃, -, h⟩ := h
  rw [Run.some_bind] at h
  obtain ⟨ok, w₄, -, h⟩ := h
  split at h
  · cases (Run.some_pure.mp h).1
  · cases (Run.some_pure.mp h).1
    decide

/-- The checks too. -/
theorem check_image_exit {datalen : Int} {e : Exit}
    (h : Run S (check_image cfg datalen) w (some (some e)) w') : e ≠ .success := by
  rw [check_image, Prog.ask_bind, Run.some_call] at h
  obtain ⟨r, w₁, -, h⟩ := h
  cases r with
  | none =>
    cases (Run.some_pure.mp h).1
    decide
  | some d =>
    simp only [check_header] at h
    split at h
    · cases (Run.some_pure.mp h).1
      decide
    split at h
    · cases (Run.some_pure.mp h).1
      decide
    rw [Prog.ask_bind, Run.some_call] at h
    obtain ⟨p_map, w₂, -, h⟩ := h
    cases p_map with
    | none =>
      cases (Run.some_pure.mp h).1
      decide
    | some img_start =>
      simp only at h
      split at h
      · rw [Prog.ask_bind, Run.some_call] at h
        obtain ⟨ret, w₃, -, h⟩ := h
        cases (Run.some_pure.mp h).1
        decide
      split at h
      · rw [Prog.ask_bind, Run.some_call] at h
        obtain ⟨ret, w₃, -, h⟩ := h
        cases (Run.some_pure.mp h).1
        decide
      rw [Prog.ask_bind, Run.some_call] at h
      obtain ⟨ret, w₃, -, h⟩ := h
      split at h
      · cases (Run.some_pure.mp h).1
        decide
      · cases (Run.some_pure.mp h).1

/-- **The rule for an upgrade**: what the calls before the bank keep holds when the bank is
to be written, and at every exit before that. -/
theorem wp_stages (hstep : ∀ w c r w', Aside c → I w → S.step w c r w' → I w')
    (hcut : ∀ w c w', Aside c → I w → S.cut w c w' → I w') (hC : ∀ w, I w → C w)
    (hexit : ∀ e w, e ≠ .success → I w → Q e w)
    (hbank : ∀ {v v' w w' : W} {st_size : Int}, S.step v .fstat st_size v' →
      Run S (check_image cfg (int32 st_size)) w (some none) w' → I w' →
        wp S (write_bank cfg buf) Q C w')
    (hI : I w) : wp S (upgrade_main_board cfg upgrade_boot buf behind) Q C w := by
  have hask : ∀ {c : IgCall} {k : IgRet c → Prog IgRet Exit} {w : W}, Aside c → I w →
      (∀ r w', S.step w c r w' → I w' → wp S (k r) Q C w') → wp S (.call c k) Q C w := by
    intro c k w hc hI hk
    rw [wp_call]
    exact ⟨hC w hI, fun w' hs => hC w' (hcut w c w' hc hI hs),
      fun r w' hs => hk r w' hs (hstep w c r w' hc hI hs)⟩
  have hcheck : ∀ {v v' w : W} {st_size : Int}, S.step v .fstat st_size v' → I w →
      wp S (check_and_write cfg buf (int32 st_size)) Q C w := by
    intro v v' w st_size hsize hI
    have hkept := wp_keeps hstep hcut ((only_check cfg (int32 st_size)).mono aside_of_looks) hI
    refine wp_bind ⟨fun o w' hr => ?_, fun w' hr => hC w' (hkept.2 w' hr)⟩
    have hI' := hkept.1 o w' hr
    cases o with
    | none => exact hbank hsize hr hI'
    | some e => exact wp_pure.mpr ⟨hexit e w' (check_image_exit hr) hI', hC w' hI'⟩
  rw [upgrade_main_board, Prog.ask_bind]
  refine hask trivial hI fun there w₁ _ hI => ?_
  split
  · exact wp_pure.mpr ⟨hexit _ _ (by decide) hI, hC _ hI⟩
  rw [Prog.ask_bind]
  refine hask trivial hI fun imageFd w₂ _ hI => ?_
  split
  · exact wp_pure.mpr ⟨hexit _ _ (by decide) hI, hC _ hI⟩
  rw [Prog.ask_bind]
  refine hask trivial hI fun st_size w₃ hsize hI => ?_
  split
  · have hkept := wp_keeps hstep hcut (only_bootloader cfg buf behind) hI
    refine wp_bind ⟨fun o w' hr => ?_, fun w' hr => hC w' (hkept.2 w' hr)⟩
    have hI' := hkept.1 o w' hr
    cases o with
    | none => exact hcheck hsize hI'
    | some e => exact wp_pure.mpr ⟨hexit e w' (bootloader_exit hr) hI', hC w' hI'⟩
  · exact hcheck hsize hI

end Stages

section Upgrade

variable {cfg : Config} {w : System}

/-- The bank is being written: the flag is still the old one, and the bank was
touched last. -/
def Writing (flag : BitVec 32) (w : System) : Prop :=
  Good w ∧ w.flag = flag ∧ lastTouched w.log = some (target flag)

theorem Writing.touched {flag : BitVec 32} (h : Good w) (hf : w.flag = flag) :
    Writing flag (w.add (.touched (target flag))) := by
  subst hf
  exact ⟨h.touched h.1.target_ne_good, rfl, lastTouched_touched⟩

/-- **The new flag**: it names the bank that was written, and that is not the last
confirmed one. -/
theorem Writing.flagged {flag : BitVec 32} (h : Writing flag w) :
    Good ⟨new_flag flag, w.log ++ [.flagged (new_flag flag)]⟩ := by
  obtain ⟨hgood, rfl, htouched⟩ := h
  have hne := hgood.1.target_ne_good
  obtain ⟨good, hg, hpart, -⟩ := hgood.1
  refine ⟨⟨good, by rw [lastConfirmed_flagged]; exact hg, hpart, ?_⟩, hgood.2.flagged ?_⟩
  · rw [if_neg (cnt_new_flag w.flag), bank_new_flag]
    exact fun he => hne (by rw [hg, he])
  · rw [bank_new_flag]
    exact htouched

theorem wp_write_bank {buf : Bytes} (h : Good w) :
    wp banks (write_bank cfg buf) (fun _ => Good) Good w := by
  rw [write_bank, Prog.ask_bind, wp_call]
  refine ⟨h, fun w' hc => aside_cut (show Aside (.part_open _) from trivial) h hc, fun fd w' hs => ?_⟩
  obtain rfl : w' = w := hs
  by_cases hfd : fd = false
  · rw [if_pos hfd]
    exact wp_pure.mpr ⟨h, h⟩
  rw [if_neg hfd, Prog.ask_bind, wp_call]
  refine ⟨h, fun w'' hc => aside_cut (show Aside .read_bootflag from trivial) h hc, ?_⟩
  rintro bootflag w'' ⟨hflag, rfl⟩
  have hflag : w''.flag = bootflag := hflag.symm
  rw [Prog.ask_bind, wp_call]
  refine ⟨h, ?_, fun r w₁ hs => ?_⟩
  · rintro w₁ (rfl | ⟨r, hs⟩)
    · exact h
    · obtain rfl : w₁ = w''.add (.touched (target bootflag)) := hs
      exact (Writing.touched h hflag).1
  obtain rfl : w₁ = w''.add (.touched (target bootflag)) := hs
  have hw := Writing.touched h hflag
  generalize w''.add (.touched (target bootflag)) = w₁ at hw
  rw [Prog.ask_bind, wp_call]
  refine ⟨hw.1, fun w₂ hc => aside_cut (show Aside (.part_open _) from trivial) hw.1 hc, fun OsFd w₂ hs => ?_⟩
  obtain rfl : w₂ = w₁ := hs
  by_cases hos : OsFd = false
  · rw [if_pos hos]
    exact wp_pure.mpr ⟨hw.1, hw.1⟩
  rw [if_neg hos, Prog.iterate_bind]
  refine wp_loop (fun _ w => Writing bootflag w) hw fun s w₃ hw₃ => ?_
  rw [write_body, Prog.ask_bind, wp_call]
  refine ⟨hw₃.1, fun w₄ hc => aside_cut (show Aside (.read _ _) from trivial) hw₃.1 hc, ?_⟩
  rintro r w₄ ⟨-, rfl⟩
  by_cases hr : moved r = 0
  · -- end of the file: the flag
    rw [if_pos hr]
    refine wp_pure.mpr ⟨?_, hw₃.1⟩
    show wp banks (askIg (.set_bootflag (new_flag bootflag)) >>= _) _ _ _
    rw [Prog.ask_bind, wp_call]
    refine ⟨hw₃.1, ?_, fun err w₅ hs => ?_⟩
    · rintro w₅ (rfl | ⟨r, rfl | rfl⟩)
      · exact hw₃.1
      · exact hw₃.1
      · exact hw₃.flagged
    · have hw₅ : Good w₅ := by
        rcases hs with rfl | rfl
        · exact hw₃.1
        · exact hw₃.flagged
      split
      · exact wp_pure.mpr ⟨hw₅, hw₅⟩
      · exact wp_pure.mpr ⟨hw₅, hw₅⟩
  · rw [if_neg hr, Prog.ask_bind, wp_call]
    have hnext := Writing.touched hw₃.1 hw₃.2.1
    refine ⟨hw₃.1, ?_, fun r' w₅ hs => ?_⟩
    · rintro w₅ (rfl | ⟨r', hs⟩)
      · exact hw₃.1
      · obtain rfl : w₅ = w₄.add (.touched (target bootflag)) := hs
        exact hnext.1
    · obtain rfl : w₅ = w₄.add (.touched (target bootflag)) := hs
      exact wp_pure.mpr ⟨hnext, hnext.1⟩

/-- **One upgrade**, to its end or to any stop, leaves everything good. -/
theorem wp_upgrade {upgrade_boot : Bool} {buf behind : Bytes} (h : Good w) :
    wp banks (upgrade_main_board cfg upgrade_boot buf behind) (fun _ => Good) Good w :=
  wp_stages (fun _ _ _ _ hc hw hs => aside_step hc hw hs)
    (fun _ _ _ hc hw hcut => aside_cut hc hw hcut) (fun _ hw => hw) (fun _ _ _ hw => hw)
    (fun _ _ hw => wp_write_bank hw) h

end Upgrade

/-! ### All histories -/

section History

variable {cfg : Config} {w : System}

theorem bank_cases (flag : BitVec 32) : bank flag = .firstos ∨ bank flag = .secondos := by
  rw [bank]
  split
  · exact Or.inr rfl
  · exact Or.inl rfl

theorem good_start {flag : BitVec 32} (h : cnt flag = 0) : Good (.start flag) := by
  refine ⟨⟨bank flag, rfl, bank_cases flag, by rw [System.start, if_pos h]⟩, ?_⟩
  have hnil : Safe [] := ⟨fun pre post _ h => absurd h (by simp), fun pre post _ h => absurd h (by simp)⟩
  exact hnil.confirmed

theorem good_confirm {flag : BitVec 32} (h : Good w) (hc : cnt flag = 0)
    (hi : flag &&& 0x80000000 = w.flag &&& 0x80000000) :
    Good ⟨flag, w.log ++ [.confirmed (bank w.flag)]⟩ := by
  have hbank : bank flag = bank w.flag := by rw [bank, bank, hi]
  refine ⟨⟨bank w.flag, lastConfirmed_confirmed, bank_cases _, ?_⟩, h.2.confirmed⟩
  rw [if_pos hc]
  exact hbank

theorem good_of_run {p : Prog IgRet Exit} {w' : System} {o : Option Exit}
    (h : wp banks p (fun _ => Good) Good w) (hr : Run banks p w o w') : Good w' := by
  have hwp := h.run hr
  cases o with
  | none => exact hwp
  | some e => exact hwp

theorem good_of_history (h : History cfg w) : Good w := by
  induction h with
  | start hc => exact good_start hc
  | upgrade _ hr ih =>
    exact good_of_run (wp_upgrade ih) hr
  | confirm _ hc hi ih => exact good_confirm ih hc hi

/-- **The last confirmed bank is never touched**, over all histories of upgrades,
stops and confirmations, and every flag that is set names the bank just written. -/
theorem safe_of_history (h : History cfg w) :
    (∀ pre post part, w.log = pre ++ .touched part :: post → lastConfirmed pre ≠ some part) ∧
      ∀ pre post flag, w.log = pre ++ .flagged flag :: post →
        lastTouched pre = some (bank flag) :=
  ⟨(good_of_history h).2.untouched, (good_of_history h).2.named⟩

end History

/-- The header of a tree of 40 bytes, version 17. -/
def tinyHeader : Bytes :=
  [0xd0, 0x0d, 0xfe, 0xed, 0, 0, 0, 40, 0, 0, 0, 0, 0, 0, 0, 0, 0, 0, 0, 0,
   0, 0, 0, 17, 0, 0, 0, 16, 0, 0, 0, 0, 0, 0, 0, 0, 0, 0, 0, 0]

/-- The second bank, erased and written. -/
def tinyWritten : System := ⟨0, [.confirmed .firstos, .touched .secondos, .touched .secondos]⟩

/-- One byte of the image goes to the second bank, and the flag names it. -/
theorem run_write_bank :
    Run banks (write_bank tinyConfig [0]) (.start 0) (some .success)
      ⟨0xfffffffe, tinyWritten.log ++ [.flagged 0xfffffffe]⟩ := by
  have hfirst : Run banks (write_body tinyConfig .secondos (2, [0]))
      ((System.start 0).add (.touched .secondos)) (some (.inl (3, [0xd0]))) tinyWritten := by
    rw [write_body, Prog.ask_bind]
    refine .call (r := some [0xd0]) ⟨⟨[0xd0], rfl, by decide⟩, rfl⟩ ?_
    rw [if_neg (by decide), Prog.ask_bind]
    exact .call (r := (1 : Int)) rfl (.ret _ _)
  have hlast : Run banks (write_body tinyConfig .secondos (3, [0xd0]))
      tinyWritten (some (.inr ())) tinyWritten := by
    rw [write_body, Prog.ask_bind]
    refine .call (r := some []) ⟨⟨[], rfl, by decide⟩, rfl⟩ ?_
    rw [if_pos (by decide)]
    exact .ret _ _
  rw [write_bank, Prog.ask_bind]
  refine .call (r := true) rfl ?_
  rw [if_neg (by decide), Prog.ask_bind]
  have hflag : banks.step (.start 0) .read_bootflag (0 : BitVec 32) (.start 0) := ⟨rfl, rfl⟩
  refine .call hflag ?_
  rw [Prog.ask_bind]
  refine .call (r := (0 : Int)) rfl ?_
  rw [Prog.ask_bind]
  refine .call (r := true) rfl ?_
  rw [if_neg (by decide), Prog.iterate_bind]
  refine .again hfirst (.leave hlast ?_)
  show Run banks (askIg (.set_bootflag 0xfffffffe) >>= _) _ _ _
  rw [Prog.ask_bind]
  refine .call (r := (0 : Int)) (Or.inr rfl) ?_
  rw [if_neg (by decide)]
  exact .ret _ _

/-- The header passes, and so does what the two checks see. -/
theorem run_check_image (w : System) :
    Run banks (check_image tinyConfig 42) w (some none) w := by
  rw [check_image, Prog.ask_bind]
  refine .call (r := some tinyHeader) ⟨⟨_, rfl, by decide⟩, rfl⟩ ?_
  show Run banks (check_header tinyConfig 42 (padded fdtHeaderSize tinyHeader)) w (some none) w
  rw [check_header, if_neg (by decide), if_neg (by decide), Prog.ask_bind]
  refine .call (r := some tinyHeader) rfl ?_
  show Run banks (if _ then _ else _) w (some none) w
  rw [if_neg (by decide), if_neg (by decide), Prog.ask_bind]
  refine .call (r := (0 : Int)) rfl ?_
  rw [if_neg (by decide)]
  exact .ret _ _

theorem run_upgrade :
    Run banks (upgrade_main_board tinyConfig false [0] []) (.start 0) (some .success)
      ⟨0xfffffffe, tinyWritten.log ++ [.flagged 0xfffffffe]⟩ := by
  rw [upgrade_main_board, Prog.ask_bind]
  refine .call (r := true) rfl ?_
  rw [if_neg (by decide), Prog.ask_bind]
  refine .call (r := true) rfl ?_
  rw [if_neg (by decide), Prog.ask_bind]
  refine .call (r := (42 : Int)) rfl ?_
  rw [if_neg (by decide)]
  exact (run_check_image _).bind run_write_bank

/-- The new bank confirmed, after one upgrade. -/
theorem history_confirmed : History tinyConfig
    ⟨0xffffff00, (tinyWritten.log ++ [.flagged 0xfffffffe]) ++ [.confirmed .secondos]⟩ := by
  have hstart : History tinyConfig (.start 0) := .start (by decide)
  exact .confirm (hstart.upgrade run_upgrade) (by decide) (by decide)

theorem safe_of_history_secondos :
    lastConfirmed [.confirmed .firstos, .touched .secondos] ≠ some .secondos ∧
      lastTouched tinyWritten.log = some (bank 0xfffffffe) :=
  ⟨(safe_of_history history_confirmed).1 [.confirmed .firstos, .touched .secondos] _ _ rfl,
    (safe_of_history history_confirmed).2 tinyWritten.log _ _ rfl⟩

end Boxing.Ig9
