import Boxing.Intools.Answers
import Boxing.Uboot.Agree

/-!
# Every writer keeps the block well formed

The three writers clear different amounts of the old data: the two of `uboot.c`
as far as the old list reached, the session of `intools` all of it.  Each leaves a
well formed block well formed (`run_set`, `run_setMulti`, `run_intools`), so a run of
them, of any length and in any order, never leaves another (`Reach.wellFormed`) —
as long as each step stays inside its buffers.  The zeros behind the list are what
the next partial clearing relies on, and they are part of the invariant.

`Op.Sound` says when a step stays inside its buffers.  The single writer always
does, when the list fits.
-/

namespace Boxing.Intools

open C Device Uboot

/-! ### The calls of a session -/

section Session

variable {abi : Abi} {v : Variant} {n : Nat} {es : List Bytes} {stdin : Bytes}
  {env env' : EnvBlock} {r : Int}

theorem run_open_iff {fd : Bool} :
    Run allOk (open_bootenv v) env (some fd) env' ↔ fd = true ∧ env' = env := by
  rw [open_bootenv]
  by_cases hv : v = .IG9
  · rw [if_pos hv]
    simp [Run.some_call, Run.some_pure, allOk, allOkStep, Prog.ask]
  · rw [if_neg hv]
    exact Run.some_pure

theorem run_erase (v : Variant) (env : EnvBlock) :
    Run allOk (erase_bootenv v) env (some (0 : Int)) env.erased := by
  unfold erase_bootenv
  split
  · exact .call (show allOkStep env .partErase (0 : Int) env.erased from ⟨rfl, rfl⟩) (.ret _ _)
  · exact .call (show allOkStep env .flashErase (0 : Int) env.erased from ⟨rfl, rfl⟩) (.ret _ _)

theorem run_radio_iff {buf : Field → Bytes} {u : Unit} :
    Run allOk (tell_radio v buf) env (some u) env' ↔ env' = env := by
  rw [tell_radio]
  by_cases hf : v.factoryMac = true
  · rw [if_pos hf]
    simp [Run.some_call, Run.some_pure, allOk, allOkStep, Prog.ask]
  · rw [if_neg hf]
    by_cases hv : v = .VG9
    · rw [if_pos hv]
      simp [Run.some_call, Run.some_pure, allOk, allOkStep, Prog.ask]
    · rw [if_neg hv]
      exact Run.some_pure.trans (and_iff_right rfl)

/-- The values the prompts show: the wireless address is the one of the factory
partition on the boards that have one. -/
def current (v : Variant) (mac : Option (Vector UInt8 6)) (buf : Field → Bytes) : Field → Bytes :=
  if v.factoryMac then Function.update buf .wlanmac (eeprom_get_wlanmac mac) else buf

/-- The addresses that a run can find in the factory partition. -/
theorem run_factory_iff {buf buf' : Field → Bytes} :
    Run allOk (factory_mac v buf) env (some buf') env' ↔
      env' = env ∧ ∃ mac : Vector UInt8 6, buf' = current v (some mac) buf := by
  rw [factory_mac]
  by_cases hv : v.factoryMac = true
  · rw [if_pos hv, Prog.ask_bind]
    constructor
    · intro h
      obtain ⟨_, w, ⟨⟨mac, rfl⟩, rfl⟩, h'⟩ := Run.some_call.mp h
      obtain ⟨rfl, rfl⟩ := Run.some_pure.mp h'
      exact ⟨rfl, mac, by rw [current, if_pos hv]⟩
    · rintro ⟨rfl, mac, rfl⟩
      rw [current, if_pos hv]
      exact Run.some_call.mpr ⟨some mac, env', ⟨⟨mac, rfl⟩, rfl⟩, .ret _ _⟩
  · rw [if_neg hv]
    constructor
    · intro h
      obtain ⟨rfl, rfl⟩ := Run.some_pure.mp h
      exact ⟨rfl, Vector.replicate 6 0, by rw [current, if_neg hv]⟩
    · rintro ⟨rfl, mac, rfl⟩
      rw [current, if_neg hv]
      exact .ret _ _

/-- The answer to the last question is yes. -/
def Yes (s : Bytes) : Prop := s.head? = some 121 ∨ s.head? = some 89

instance (s : Bytes) : Decidable (Yes s) := inferInstanceAs (Decidable (_ ∨ _))

/-- **The last question**: the block with its new CRC after a yes, and no other after
anything else. -/
theorem run_save_iff {t : Talk (Bytes × Nat)} {s : Bytes}
    (hs : (fgets t.tmpbuf t.stdin).1 = some s) :
    Run allOk (save abi v t) env (some r) env' ↔
      r = 0 ∧ env' = if Yes s then ⟨crc_int abi t.out.1, t.out.1⟩ else env := by
  rw [save, hs]
  simp only
  by_cases hy : s.head? = some 121 ∨ s.head? = some 89
  · rw [if_pos hy, if_pos (show Yes s from hy)]
    constructor
    · intro hr
      obtain ⟨fd, w₁, h₁, hr₁⟩ := Run.some_bind.mp hr
      obtain ⟨rfl, -⟩ := run_open_iff.mp h₁
      rw [if_neg (by simp)] at hr₁
      obtain ⟨_, w₂, -, hr₂⟩ := Run.some_bind.mp hr₁
      simp only [Prog.ask_bind, Run.some_call, allOk, allOkStep] at hr₂
      obtain ⟨_, w₃, ⟨rfl, -⟩, hr₃⟩ := hr₂
      rw [if_neg (by simp)] at hr₃
      simp only [Run.some_call] at hr₃
      obtain ⟨_, w₄, hw₄, hr₄⟩ := hr₃
      obtain ⟨_, w₅, h₅, hr₅⟩ := Run.some_bind.mp hr₄
      obtain ⟨rfl, rfl⟩ := Run.some_pure.mp hr₅
      exact ⟨rfl, by rw [run_radio_iff.mp h₅, hw₄]⟩
    · rintro ⟨rfl, rfl⟩
      refine Run.some_bind.mpr ⟨true, env, run_open_iff.mpr ⟨rfl, rfl⟩, ?_⟩
      rw [if_neg (by simp)]
      refine Run.some_bind.mpr ⟨0, env.erased, run_erase v env, ?_⟩
      rw [Prog.ask_bind]
      refine Run.some_call.mpr ⟨true, env.erased, ⟨rfl, rfl⟩, ?_⟩
      rw [if_neg (by simp), Prog.ask_bind]
      refine Run.some_call.mpr ⟨(), ⟨crc_int abi t.out.1, t.out.1⟩, rfl, ?_⟩
      exact Run.some_bind.mpr ⟨(), _, run_radio_iff.mpr rfl, .ret 0 _⟩
  · rw [if_neg hy, if_neg (show ¬ Yes s from hy)]
    exact Run.some_pure

/-- Saved or cancelled, the last question leaves the old block or the new list. -/
theorem run_save {t : Talk (List Bytes)} (hset : t.tmpbuf ≠ none)
    (hr : Run allOk (save abi v (t.toMem n)) env (some r) env') :
    env' = env ∨ env' = listBlock abi n t.out := by
  obtain ⟨s, hs⟩ : ∃ s, (fgets t.tmpbuf t.stdin).1 = some s := by
    obtain ⟨s, hs⟩ := Option.ne_none_iff_exists'.mp hset
    rw [fgets]
    split
    · exact ⟨s, hs⟩
    · exact ⟨_, rfl⟩
  obtain ⟨-, henv⟩ := (run_save_iff (t := t.toMem n) hs).mp hr
  by_cases hy : Yes s
  · rw [if_pos hy] at henv
    exact Or.inr henv
  · rw [if_neg hy] at henv
    exact Or.inl henv

/-- **A session on a well formed block**, with every prompt answered, the fields
inside their buffers and room for the list: the old block or another well formed
one. -/
theorem run_intools (hes : Entries es) (h : (pack es).length < n)
    (hff : FieldsFit v (cutList es)) (ha : Answered (prompts v es) none stdin)
    (hfit : ∀ mac t, talk v es stdin mac = some t → (pack t.out).length < n)
    (hr : Run allOk (intools_main abi v stdin) (listBlock abi n es) (some r) env') :
    ∃ l, Entries l ∧ (pack l).length < n ∧ env' = listBlock abi n l := by
  have hcrc : load abi v (listBlock abi n es) = some (padded n (pack es)) := by
    rw [load, if_neg (not_not.mpr listBlock_crc), listBlock_data]
  obtain ⟨⟨data, datalen⟩, hcount, hfields⟩ :=
    Option.bind_eq_some_iff.mp (load_fields_list hes h hff)
  simp only [intools_main, Prog.ask_bind, Run.some_call, allOk, allOkStep] at hr
  obtain ⟨_, w₁, ⟨rfl, rfl⟩, hr₁⟩ := hr
  rw [if_neg (by simp)] at hr₁
  simp only [Run.some_call] at hr₁
  obtain ⟨_, w₂, ⟨rfl, rfl⟩, hr₂⟩ := hr₁
  rw [if_neg (by simp)] at hr₂
  simp only [Run.some_call] at hr₂
  obtain ⟨_, w₃, ⟨rfl, rfl⟩, hr₃⟩ := hr₂
  rw [hcrc, hcount] at hr₃
  simp only [Run.some_call] at hr₃
  obtain ⟨_, w₄, ⟨rfl, rfl⟩, hr₄⟩ := hr₃
  rw [if_neg (by simp), hfields] at hr₄
  -- the first prompts do not depend on the factory partition
  obtain ⟨t₀, ht₀, -⟩ := talk_answered hes ha none
  obtain ⟨t₁, ht₁, -⟩ := Option.bind_eq_some_iff.mp ht₀
  have htalk : ∀ mac, talk v es stdin mac =
      (board_prompts putList v { t₁ with
        buf := if v.factoryMac then Function.update t₁.buf .wlanmac (eeprom_get_wlanmac mac)
          else t₁.buf }).bind (asks putList lastFields) := by
    intro mac
    rw [talk, ht₁, Option.bind_some]
  have hmem : asks putMem (firstFields v)
      ⟨(padded n (pack (loaded v (cutList es)).1), (pack (loaded v (cutList es)).1).length), stdin,
        none, (loaded v (cutList es)).2⟩ = some (t₁.toMem n) := by
    obtain ⟨t, ht, -, -⟩ := talk_answered hes ha none
    have hn := (hfit none t ht).le
    rw [htalk] at ht
    have hle := (((board_follows v).comp (asks_follows (n := n) lastFields)) _ _ ht).1
    exact (asks_follows _ _ _ ht₁).2 (hle.trans hn)
  rw [Option.bind_some, hmem] at hr₄
  simp only at hr₄
  obtain ⟨buf, w₅, h₅, hr₅⟩ := Run.some_bind.mp hr₄
  obtain ⟨rfl, mac, rfl⟩ := run_factory_iff.mp h₅
  obtain ⟨t, ht, hclean, hset⟩ := talk_answered hes ha (some mac)
  have hn := hfit (some mac) t ht
  have hrest : (board_prompts putMem v
        { t₁.toMem n with buf := current v (some mac) (t₁.toMem n).buf }).bind
      (asks putMem lastFields) = some (t.toMem n) := by
    rw [htalk] at ht
    exact (((board_follows v).comp (asks_follows (n := n) lastFields)) _ _ ht).2 hn.le
  rw [hrest] at hr₅
  rcases run_save hset hr₅ with rfl | rfl
  · exact ⟨es, hes, h, rfl⟩
  · exact ⟨t.out, hclean.out, hn, rfl⟩

end Session

/-! ### Runs of all three -/

/-- The writers of the environment, with what they are called on. -/
inductive Op
  | set (var value : Bytes)
  | setMulti (ps : List (Bytes × Bytes))
  | session (stdin : Bytes)

/-- The program of a writer. -/
def Op.prog (abi : Abi) (v : Variant) : Op → Prog EnvRet Int
  | .set var value => write_ubootcfg abi var value
  | .setMulti ps => write_multi_ubootcfg abi (request ps)
  | .session stdin => intools_main abi v stdin

/-- The arguments are strings and lists of `name=value` pairs. -/
def Op.Legal : Op → Prop
  | .set var value => 0 ∉ var ∧ 0 ∉ value
  | .setMulti ps => ∀ p ∈ ps, IsPair p
  | .session _ => True

/-- The resulting list fits, with its terminator, into a data area of `n` bytes. -/
def Op.Fits (v : Variant) (n : Nat) (es : List Bytes) : Op → Prop
  | .set var value => (pack (setOne es var value)).length < n
  | .setMulti ps => (pack (setMany es ps)).length < n
  | .session stdin => ∀ mac t, talk v es stdin mac = some t → (pack t.out).length < n

/-- The writer stays inside its buffers. -/
def Op.Sound (v : Variant) (es : List Bytes) : Op → Prop
  | .set _ _ => True
  | .setMulti ps => Writable ps ∧ ∀ e ∈ es, Covered tmpbufSize ps e
  | .session stdin => FieldsFit v (cutList es) ∧ Answered (prompts v es) none stdin

/-- The blocks that runs of the writers reach, each step on a list that fits and
under the condition `P` on the list before it. -/
inductive Reach (abi : Abi) (v : Variant) (P : List Bytes → Op → Prop) (env : EnvBlock) :
    EnvBlock → Prop
  | refl : Reach abi v P env env
  | step {env₁ env₂ : EnvBlock} {es : List Bytes} {r : Int} (op : Op) :
      Reach abi v P env env₁ → split env₁.data = some es → op.Legal →
      op.Fits v env₁.data.length es → P es op →
      Run allOk (op.prog abi v) env₁ (some r) env₂ → Reach abi v P env env₂

section Runs

variable {abi : Abi} {v : Variant} {env env' : EnvBlock} {es : List Bytes}

/-- One step keeps the block well formed. -/
theorem wellFormed_step {op : Op} {r : Int} (hwf : WellFormed abi env)
    (hes : split env.data = some es) (hlegal : op.Legal) (hfit : op.Fits v env.data.length es)
    (hsound : op.Sound v es) (hr : Run allOk (op.prog abi v) env (some r) env') :
    WellFormed abi env' := by
  obtain ⟨es', hes', hlt, henv⟩ := hwf.eq_listBlock
  obtain rfl : es' = es := by
    rw [henv, listBlock_data, split_padded hes' hlt] at hes
    exact Option.some.inj hes
  rw [henv] at hr
  cases op with
  | set var value =>
    obtain ⟨-, rfl⟩ := (run_set hes' hlt hfit).mp hr
    exact wellFormed_listBlock (entries_setOne hes' hlegal.1 hlegal.2) hfit
  | setMulti ps =>
    obtain ⟨-, rfl⟩ := (run_setMulti hes' hlt hlegal hsound.1 hsound.2 hfit).mp hr
    exact wellFormed_listBlock (entries_setMany hes' hlegal) hfit
  | session stdin =>
    obtain ⟨l, hl, hn, rfl⟩ := run_intools hes' hlt hsound.1 hsound.2 hfit hr
    exact wellFormed_listBlock hl hn

/-- **Every writer keeps the block well formed**, over runs of any length and in
any order, as long as each step stays inside its buffers. -/
theorem wellFormed_of_reach (hwf : WellFormed abi env)
    (hr : Reach abi v (fun es op => op.Sound v es) env env') : WellFormed abi env' := by
  induction hr with
  | refl => exact hwf
  | step op _ hes hlegal hfit hsound hrun ih => exact wellFormed_step ih hes hlegal hfit hsound hrun

end Runs

/-- A batch after a single write. -/
theorem wellFormed_after_two :
    WellFormed ⟨true, false⟩
      (listBlock ⟨true, false⟩ 60 [asc "autoload=n", asc "netmask=0", asc "stdin=serial"]) := by
  have hstart : Entries [asc "netmask=1"] := by decide
  have hset : setOne [asc "netmask=1"] (asc "autoload") (asc "n")
      = [asc "netmask=1", asc "autoload=n"] := by decide
  have hmany : setMany [asc "netmask=1", asc "autoload=n"]
      [(asc "netmask", asc "0"), (asc "stdin", asc "serial")]
      = [asc "autoload=n", asc "netmask=0", asc "stdin=serial"] := by decide
  have hdata : ∀ es : List Bytes, (pack es).length < 60 →
      (listBlock ⟨true, false⟩ 60 es).data.length = 60 := fun es h => length_padded h.le
  have hcovered : ∀ e ∈ [asc "netmask=1", asc "autoload=n"],
      Covered tmpbufSize [(asc "netmask", asc "0"), (asc "stdin", asc "serial")] e :=
    fun e _ => Or.inl (by decide)
  have h₁ : Reach ⟨true, false⟩ .other (fun es op => op.Sound .other es)
      (listBlock ⟨true, false⟩ 60 [asc "netmask=1"])
      (listBlock ⟨true, false⟩ 60 [asc "netmask=1", asc "autoload=n"]) := by
    refine .step (.set (asc "autoload") (asc "n")) .refl
      (split_padded hstart (by decide)) ⟨by decide, by decide⟩ ?_ trivial
      ((run_set hstart (by decide) (by decide)).mpr ⟨rfl, by rw [hset]⟩)
    rw [hdata _ (by decide)]
    exact show (pack (setOne _ _ _)).length < 60 by decide
  refine wellFormed_of_reach (wellFormed_listBlock hstart (by decide)) (.step
    (.setMulti [(asc "netmask", asc "0"), (asc "stdin", asc "serial")]) h₁
    (split_padded (by decide) (by decide)) (show ∀ p ∈ _, IsPair p by decide) ?_
    ⟨show ∀ p ∈ _, _ by decide, hcovered⟩
    ((run_setMulti (by decide) (by decide) (by decide) (show ∀ p ∈ _, _ by decide) hcovered
      (by decide)).mpr ⟨rfl, by rw [hmany]⟩))
  rw [hdata _ (by decide)]
  exact show (pack (setMany _ _)).length < 60 by decide

/-- A pair of 602 bytes: the batch writer leaves its buffer, and with it any block. -/
theorem reach_not_wellFormed :
    ¬ ∀ (abi : Abi) (v : Variant) (env env' : EnvBlock), WellFormed abi env →
      Reach abi v (fun _ _ => True) env env' → WellFormed abi env' := by
  intro h
  have hbad : ¬ (Writable [(asc "a", longValue)] ∧
      ∀ e ∈ [], Covered tmpbufSize [(asc "a", longValue)] e) :=
    fun hw => not_writable_longValue hw.1
  have hnone := build_multi_eq_none (n := 700) entries_nil (by decide) isPair_longValue hbad
  have hrun : Run allOk (write_multi_ubootcfg ⟨true, false⟩ (request [(asc "a", longValue)]))
      (listBlock ⟨true, false⟩ 700 []) (some 0) ⟨0, []⟩ :=
    run_revise_none listBlock_crc (countLen_padded entries_nil (by decide)) hnone
  have hsize : (listBlock ⟨true, false⟩ 700 []).data.length = 700 := length_padded (by decide)
  have hfit : (Op.setMulti [(asc "a", longValue)]).Fits .other (listBlock ⟨true, false⟩ 700 []).data.length
      [] := by
    have hlist : setMany [] [(asc "a", longValue)] = [] ++ [entry (asc "a") longValue] := rfl
    show (pack (setMany [] [(asc "a", longValue)])).length < _
    rw [hsize, hlist, length_pack_concat, length_entry_longValue, pack_nil, List.length_nil]
    omega
  have hwf := h ⟨true, false⟩ .other _ _ (wellFormed_listBlock entries_nil (by decide))
    (.step (.setMulti [(asc "a", longValue)]) .refl (split_padded entries_nil (by decide)) isPair_longValue hfit
      trivial hrun)
  obtain ⟨-, es, k, -, hdata⟩ := hwf
  exact absurd hdata (by simp)

end Boxing.Intools
