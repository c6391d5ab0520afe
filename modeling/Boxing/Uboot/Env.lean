import Boxing.C.StrList
import Boxing.Device.Wp
import Boxing.Uboot.Crc32

/-!
# The boot environment and its single writer

The boot loader keeps its variables in one block of flash: four bytes of CRC and
a data area with the entries `name=value`, each closed by a NUL, and an empty
string at the end.  `write_ubootcfg(var, value)` reads the block, drops the old
entry, appends the new one, and writes the block back after an erase.

The two writers of `uboot.c` share everything but the middle: `revise` opens,
reads and checks, hands the data area to a `build`, and saves what comes back.
`build_single` is the middle of `write_ubootcfg`, on the buffers as the code uses
them; `build_single_eq` says what it leaves in the data area: the new list, and
behind it what the clearing of the old list left, which is zeros up to where the
old list ended and the old bytes from there on.
-/

namespace Boxing.Uboot

open C Device

/-! ### The block and the calls -/

/-- The environment in flash: the stored CRC and the data area. -/
@[ext] structure EnvBlock where
  crc : BitVec 32
  data : Bytes
deriving DecidableEq

/-- What the writers ask of the outside; the last calls but one are those of the
boards with an eMMC or with a radio of their own.  `undefined` is not a call: it
stands for an access outside a buffer, after which the program may do anything. -/
inductive EnvCall
  | fopenRead
  | malloc
  | readBlock
  | flashErase
  | fopenWrite
  | writeBlock (env : EnvBlock)
  | partOpen
  | partErase
  | readFactory
  | init_mt7620_eeprom (mac : Bytes)
  | set_wifi_mac (mac_2g mac_5g : Bytes)
  | undefined

/-- The answers: did it open, is there memory, what was read, error codes, and the
address in the factory partition, if that opens. -/
abbrev EnvRet : EnvCall → Type
  | .fopenRead => Bool
  | .malloc => Bool
  | .readBlock => EnvBlock
  | .flashErase => Int
  | .fopenWrite => Bool
  | .writeBlock _ => Unit
  | .partOpen => Bool
  | .partErase => Int
  | .readFactory => Option (Vector UInt8 6)
  | .init_mt7620_eeprom _ => Unit
  | .set_wifi_mac _ _ => Unit
  | .undefined => Int

/-- One call of a writer. -/
abbrev askEnv (c : EnvCall) : Prog EnvRet (EnvRet c) := Prog.ask c

/-- An erased block. -/
def EnvBlock.erased (env : EnvBlock) : EnvBlock :=
  ⟨BitVec.allOnes 32, List.replicate env.data.length 0xff⟩

/-- Every device call succeeds: the block is read as it is, erased, and written in
full. -/
def allOkStep : EnvBlock → (c : EnvCall) → EnvRet c → EnvBlock → Prop
  | env, .fopenRead, r, env' => r = true ∧ env' = env
  | env, .malloc, r, env' => r = true ∧ env' = env
  | env, .readBlock, r, env' => r = env ∧ env' = env
  | env, .flashErase, r, env' => r = (0 : Int) ∧ env' = env.erased
  | env, .fopenWrite, r, env' => r = true ∧ env' = env
  | _, .writeBlock new, _, env' => env' = new
  | env, .partOpen, r, env' => r = true ∧ env' = env
  | env, .partErase, r, env' => r = (0 : Int) ∧ env' = env.erased
  | env, .readFactory, r, env' => (∃ mac, r = some mac) ∧ env' = env
  | env, .init_mt7620_eeprom _, _, env' => env' = env
  | env, .set_wifi_mac _ _, _, env' => env' = env
  | _, .undefined, _, _ => True

def allOk : Sem EnvRet EnvBlock where
  step := allOkStep
  cut := fun _ _ _ => False

/-! ### What the writers share -/

/-- `while (strlen(ptmp) > 0) ptmp += strlen(ptmp) + 1; datalen = ptmp - dataptr`. -/
def countLen (data : Bytes) : Option Nat :=
  walk (fun n e => some (n + e.length + 1)) 0 data

/-- Read the block, check its CRC, count the old list, let `build` make the new
data area out of the old one and its length, and save it. -/
def revise (abi : Abi) (build : Bytes → Nat → Option Bytes) : Prog EnvRet Int := do
  let fp : Bool ← askEnv .fopenRead
  if fp = false then pure (-1) else do
  let envptr : Bool ← askEnv .malloc
  if envptr = false then pure (-1) else do
  let env : EnvBlock ← askEnv .readBlock
  if crc_int abi env.data ≠ env.crc then pure (-1) else do
  match countLen env.data with
  | none => askEnv .undefined
  | some datalen => do
    let p : Bool ← askEnv .malloc
    if p = false then pure (-1) else do
    match build env.data datalen with
    | none => askEnv .undefined
    | some data => do
      let _ ← askEnv .flashErase
      let fp : Bool ← askEnv .fopenWrite
      if fp = false then pure (-1) else do
      let _ ← askEnv (.writeBlock ⟨crc_int abi data, data⟩)
      pure 0

/-- The copy loop of the writers: an entry that `drop` does not name is copied to
`pbuf`; the state is the data area and the place of `pbuf` in it. -/
def keepUnless (drop : Bytes → Option Bool) (st : Bytes × Nat) (ptmp : Bytes) :
    Option (Bytes × Nat) :=
  (drop ptmp).bind fun d =>
    if d then some st
    else (strcpy st.1 st.2 ptmp).map fun data => (data, st.2 + ptmp.length + 1)

/-- `memcpy(p, dataptr, datalen+1); memset(dataptr, 0, datalen+1)` and the copy
loop over `p`. -/
def refill (drop : Bytes → Option Bool) (data : Bytes) (datalen : Nat) : Option (Bytes × Nat) :=
  (store data 0 (List.replicate (datalen + 1) 0)).bind fun cleared =>
    walk (keepUnless drop) (cleared, 0) (data.take (datalen + 1))

/-! ### The single writer -/

/-- The text of an entry. -/
def entry (var value : Bytes) : Bytes := var ++ asc "=" ++ value

/-- The middle of `write_ubootcfg`: `strncmp(ptmp, var, strlen(var)) != 0` keeps an
entry, and `sprintf(pbuf, "%s=%s", var, value)` appends the new one. -/
def build_single (var value data : Bytes) (datalen : Nat) : Option Bytes :=
  (refill (fun ptmp => some (strncmpEq ptmp var var.length)) data datalen).bind fun st =>
    strcpy st.1 st.2 (entry var value)

/-- `write_ubootcfg(var, value)`. -/
def write_ubootcfg (abi : Abi) (var value : Bytes) : Prog EnvRet Int :=
  revise abi (build_single var value)

/-! ### What the shared part does -/

theorem countLen_pack {es : List Bytes} (h : Entries es) (t : Bytes) :
    countLen (pack es ++ 0 :: t) = some (pack es).length := by
  have key : ∀ (es : List Bytes) (n : Nat),
      es.foldlM (fun n e => some (n + e.length + 1)) n = some (n + (pack es).length) := by
    intro es
    induction es with
    | nil => intro n; rfl
    | cons e es ih =>
      intro n
      rw [List.foldlM_cons]
      show es.foldlM _ (n + e.length + 1) = _
      rw [ih, pack_cons, List.length_append, List.length_cons]
      congr 1
      omega
  rw [countLen, walk_pack es _ _ h, key es 0, Nat.zero_add]

theorem strcpy_at (a rest s : Bytes) (h : s.length + 1 ≤ rest.length) :
    strcpy (a ++ rest) a.length s = some (a ++ (s ++ [0]) ++ rest.drop (s.length + 1)) := by
  have hlen : (s ++ [0]).length = (rest.take (s.length + 1)).length := by
    rw [List.length_append, List.length_singleton, List.length_take]
    omega
  have := store_append (a := a) (b := rest.take (s.length + 1)) (c := rest.drop (s.length + 1))
    (s ++ [0]) hlen
  rwa [List.append_assoc, List.take_append_drop] at this

/-- The copy loop behind a list of kept entries: the entries that are not dropped
go behind it, over what was there. -/
theorem foldlM_keepUnless {drop : Bytes → Option Bool} {d : Bytes → Bool} :
    ∀ (es kept : List Bytes) (rest : Bytes), (∀ e ∈ es, drop e = some (d e)) →
    (pack (es.filter fun e => !d e)).length ≤ rest.length →
    es.foldlM (keepUnless drop) (pack kept ++ rest, (pack kept).length)
      = some (pack (kept ++ es.filter fun e => !d e)
          ++ rest.drop (pack (es.filter fun e => !d e)).length,
        (pack (kept ++ es.filter fun e => !d e)).length) := by
  intro es
  induction es with
  | nil => intro kept rest _ _; simp [List.foldlM_nil]
  | cons e es ih =>
    intro kept rest hd hlen
    have hde := hd e (by simp)
    have hd' : ∀ x ∈ es, drop x = some (d x) := fun x hx => hd x (List.mem_cons_of_mem e hx)
    rw [List.foldlM_cons, keepUnless, hde, Option.bind_some]
    cases hdrop : d e with
    | true =>
      rw [if_pos rfl]
      have hf : (e :: es).filter (fun e => !d e) = es.filter fun e => !d e := by
        rw [List.filter_cons_of_neg (by simp [hdrop])]
      rw [hf] at hlen ⊢
      exact ih kept rest hd' hlen
    | false =>
      have hf : (e :: es).filter (fun e => !d e) = e :: es.filter fun e => !d e := by
        rw [List.filter_cons_of_pos (by simp [hdrop])]
      rw [hf, pack_cons, List.length_append, List.length_cons] at hlen
      rw [if_neg (by simp), strcpy_at _ _ _ (by omega)]
      show es.foldlM (keepUnless drop) (pack kept ++ (e ++ [0]) ++ rest.drop (e.length + 1),
        (pack kept).length + e.length + 1) = _
      have hpos : (pack kept).length + e.length + 1 = (pack (kept ++ [e])).length := by
        rw [pack_concat, List.length_append, List.length_append, List.length_singleton]
        omega
      rw [← pack_concat, hpos, ih (kept ++ [e]) (rest.drop (e.length + 1)) hd'
        (by rw [List.length_drop]; omega), hf, List.append_assoc, List.singleton_append,
        List.drop_drop, pack_cons, List.length_append, List.length_cons]
      congr 4
      omega

/-- What the copy loop goes over: the old list, closed. -/
theorem take_closed (es : List Bytes) (tail : Bytes) :
    (pack es ++ 0 :: tail).take ((pack es).length + 1) = pack es ++ 0 :: [] := by
  rw [List.take_append, List.take_of_length_le (by omega)]
  simp

/-- A question about an entry that cannot be answered stops the copy loop. -/
theorem refill_eq_none {drop : Bytes → Option Bool} {es : List Bytes} {e : Bytes}
    (h : Entries es) (tail : Bytes) (he : e ∈ es) (hd : drop e = none) :
    refill drop (pack es ++ 0 :: tail) (pack es).length = none := by
  have key : ∀ (es : List Bytes), e ∈ es → ∀ st, es.foldlM (keepUnless drop) st = none := by
    intro es
    induction es with
    | nil => intro he; exact absurd he List.not_mem_nil
    | cons x es ih =>
      intro he st
      rw [List.foldlM_cons]
      rcases List.mem_cons.mp he with rfl | he
      · rw [keepUnless, hd]
        rfl
      · cases keepUnless drop st x with
        | none => rfl
        | some st' => exact ih he st'
  rw [refill, take_closed]
  cases store (pack es ++ 0 :: tail) 0 (List.replicate ((pack es).length + 1) 0) with
  | none => rfl
  | some cleared => rw [Option.bind_some, walk_pack es _ _ h, key es he]

/-- The data area after the copy loop: the kept entries, then zeros to where the
old list ended, then the old bytes. -/
theorem refill_pack {drop : Bytes → Option Bool} {d : Bytes → Bool} {es : List Bytes}
    (h : Entries es) (tail : Bytes) (hd : ∀ e ∈ es, drop e = some (d e)) :
    refill drop (pack es ++ 0 :: tail) (pack es).length
      = some (pack (es.filter fun e => !d e)
          ++ (List.replicate ((pack es).length + 1) 0 ++ tail).drop
            (pack (es.filter fun e => !d e)).length,
        (pack (es.filter fun e => !d e)).length) := by
  have hsplit : pack es ++ 0 :: tail = [] ++ (pack es ++ [0]) ++ tail := by simp
  have hclear : store (pack es ++ 0 :: tail) 0 (List.replicate ((pack es).length + 1) 0)
      = some (List.replicate ((pack es).length + 1) 0 ++ tail) := by
    rw [hsplit]
    exact store_append (a := []) _ (by simp)
  have hle := length_pack_filter_le (fun e => !d e) es
  have := foldlM_keepUnless es [] (List.replicate ((pack es).length + 1) 0 ++ tail) hd
    (by rw [List.length_append, List.length_replicate]; omega)
  rw [refill, hclear, Option.bind_some, take_closed, walk_pack es _ _ h]
  simpa using this

section Revise

variable {abi : Abi} {build : Bytes → Nat → Option Bytes} {env env' : EnvBlock} {datalen : Nat}
  {r : Int}

/-- When all calls succeed, a block with a good CRC is replaced by what `build`
makes of it. -/
theorem run_revise {data : Bytes} (hcrc : crc_int abi env.data = env.crc)
    (hlen : countLen env.data = some datalen) (hb : build env.data datalen = some data) :
    Run allOk (revise abi build) env (some r) env' ↔
      r = 0 ∧ env' = ⟨crc_int abi data, data⟩ := by
  simp [revise, Run.some_call, Run.some_pure, allOk, allOkStep, hcrc, hlen, hb]

/-- After an access outside a buffer anything can be found. -/
theorem run_undefined : Run allOk (askEnv .undefined) env (some r) env' :=
  .call (show allOkStep env .undefined r env' from trivial) (.ret r env')

/-- When `build` leaves its buffers, so does the program. -/
theorem run_revise_none (hcrc : crc_int abi env.data = env.crc)
    (hlen : countLen env.data = some datalen) (hb : build env.data datalen = none) :
    Run allOk (revise abi build) env (some r) env' := by
  have hu : Run allOk (askEnv .undefined) env (some r) env' := run_undefined
  simpa [revise, Run.some_call, allOk, allOkStep, hcrc, hlen, hb] using hu

end Revise

end Boxing.Uboot
