import Boxing.Intools.TooBig

/-!
# The dialogue in one formula

The prompts of a session interleave reading and writing, and the board's own ones
stand between two rows that all boards share.  But no prompt writes a field that a
later one changes, so a session reads all its answers from the terminal first
(`listen`), sets the fields (`answered`), and writes them (`writes`): `dialogue_eq`.

A `turn` is a stretch of prompts with the fields it writes back, and turns compose
(`turn_turn`).

`run_intools_iff` says what a run of the whole program is: the dialogue with some
address from the factory partition, and the last question (`run_save_iff`).
-/

namespace Boxing.Intools

open C Device Uboot

/-! ### Listening -/

/-- What a prompt makes of the string in `tmpbuf`: the new value, if there is one,
and what `tmpbuf` holds then. -/
def reply (s : Bytes) : Option (Option Bytes × Bytes) :=
  if s = asc "\n" then some (none, s) else if s = [] then none else some (some s.dropLast, s.dropLast)

/-- The answers to `n` prompts, `tmpbuf`, and the rest of the text. -/
def listen : Nat → Option Bytes → Bytes → Option (List (Option Bytes) × Option Bytes × Bytes)
  | 0, tmpbuf, stdin => some ([], tmpbuf, stdin)
  | n + 1, tmpbuf, stdin =>
    ((fgets tmpbuf stdin).1.bind reply).bind fun a =>
      (listen n (some a.2) (fgets tmpbuf stdin).2).map fun r => (a.1 :: r.1, r.2)

/-- A field keeps its value without an answer. -/
def answer (buf : Field → Bytes) (f : Field) (a : Option Bytes) : Field → Bytes :=
  Function.update buf f (a.getD (buf f))

/-- The fields after their answers. -/
def answered (buf : Field → Bytes) : List Field → List (Option Bytes) → Field → Bytes
  | f :: fs, a :: as => answered (answer buf f a) fs as
  | _, _ => buf

section Listen

variable {n : Nat} {tmpbuf : Option Bytes} {stdin : Bytes} {buf : Field → Bytes} {f : Field}
  {fs gs : List Field} {as : List (Option Bytes)} {r : List (Option Bytes) × Option Bytes × Bytes}

theorem length_listen (h : listen n tmpbuf stdin = some r) : r.1.length = n := by
  induction n generalizing tmpbuf stdin r with
  | zero => rw [← Option.some.inj h]; rfl
  | succ n ih =>
    obtain ⟨a, -, ha⟩ := Option.bind_eq_some_iff.mp h
    obtain ⟨q, hq, rfl⟩ := Option.map_eq_some_iff.mp ha
    rw [List.length_cons, ih hq]

theorem listen_add (m n : Nat) (tmpbuf : Option Bytes) (stdin : Bytes) :
    listen (m + n) tmpbuf stdin
      = (listen m tmpbuf stdin).bind fun r =>
          (listen n r.2.1 r.2.2).map fun q => (r.1 ++ q.1, q.2) := by
  induction m generalizing tmpbuf stdin with
  | zero =>
    rw [Nat.zero_add, listen, Option.bind_some]
    exact Option.map_id'.symm
  | succ m ih =>
    rw [Nat.add_right_comm, listen, listen]
    cases (fgets tmpbuf stdin).1.bind reply with
    | none => rfl
    | some a =>
      rw [Option.bind_some, Option.bind_some, ih, Option.map_bind, Option.bind_map]
      cases listen m (some a.2) (fgets tmpbuf stdin).2 with
      | none => rfl
      | some r =>
        rw [Option.bind_some, Option.bind_some, Function.comp_apply, Function.comp_apply,
          Option.map_map]
        rfl

theorem answered_of_not_mem (h : f ∉ fs) : answered buf fs as f = buf f := by
  induction fs generalizing buf as with
  | nil => rfl
  | cons g fs ih =>
    cases as with
    | nil => rfl
    | cons a as =>
      rw [List.mem_cons, not_or] at h
      rw [answered, ih h.2, answer, Function.update_of_ne h.1]

theorem answered_append (h : as.length = fs.length) (bs : List (Option Bytes)) :
    answered buf (fs ++ gs) (as ++ bs) = answered (answered buf fs as) gs bs := by
  induction fs generalizing buf as with
  | nil =>
    obtain rfl := List.length_eq_zero_iff.mp h
    rfl
  | cons f fs ih =>
    cases as with
    | nil => cases h
    | cons a as => exact ih (by simpa using h)

/-- The `k`-th field has the `k`-th answer. -/
theorem answered_getElem (hnd : fs.Nodup) (h : as.length = fs.length) {k : Nat}
    (hk : k < fs.length) :
    answered buf fs as fs[k] = (as[k]?.join).getD (buf fs[k]) := by
  induction fs generalizing buf as k with
  | nil => cases hk
  | cons f fs ih =>
    cases as with
    | nil => cases h
    | cons a as =>
      obtain ⟨hf, hnd⟩ := List.nodup_cons.mp hnd
      cases k with
      | zero =>
        rw [List.getElem_cons_zero, List.getElem?_cons_zero, answered, answered_of_not_mem hf, answer,
          Function.update_self]
        rfl
      | succ k =>
        have hk' : k < fs.length := by simpa using hk
        have hne : fs[k] ≠ f := fun he => hf (he ▸ List.getElem_mem _)
        rw [List.getElem_cons_succ, List.getElem?_cons_succ, answered,
          ih hnd (by simpa using h) hk', answer, Function.update_of_ne hne]

/-- Without answers nothing changes. -/
theorem answered_replicate (buf : Field → Bytes) (fs : List Field) (n : Nat) :
    answered buf fs (List.replicate n none) = buf := by
  induction fs generalizing n with
  | nil => rfl
  | cons f fs ih =>
    cases n with
    | zero => rfl
    | succ n =>
      rw [List.replicate_succ, answered, answer, Option.getD_none, Function.update_eq_self, ih]

theorem fgets_newline (tmpbuf : Option Bytes) (s : Bytes) :
    fgets tmpbuf (10 :: s) = (some (asc "\n"), s) := by
  rw [fgets, if_neg (List.cons_ne_nil _ _), bufLen]
  rfl

/-- Empty lines are no answers. -/
theorem listen_newlines (n : Nat) (tmpbuf : Option Bytes) (s : Bytes) :
    listen n tmpbuf (List.replicate n 10 ++ s)
      = some (List.replicate n none, if n = 0 then tmpbuf else some (asc "\n"), s) := by
  induction n generalizing tmpbuf with
  | zero => rfl
  | succ n ih =>
    have hreply : reply (asc "\n") = some (none, asc "\n") := if_pos rfl
    rw [List.replicate_succ, List.cons_append, listen, fgets_newline, Option.bind_some, hreply,
      Option.bind_some, ih, Option.map_some, if_neg (Nat.succ_ne_zero n), ite_self,
      List.replicate_succ]

end Listen

/-! ### Turns -/

section Turns

variable {σ : Type} (put : σ → Bytes → Bytes → Option σ)

/-- Fields written one behind the other. -/
def writes (fs : List Field) (buf : Field → Bytes) (out : σ) : Option σ :=
  fs.foldlM (fun out f => put out f.name (buf f)) out

/-- The prompts for `asked`, and `told` written back. -/
def turn (asked told : List Field) (t : Talk σ) : Option (Talk σ) :=
  (listen asked.length t.tmpbuf t.stdin).bind fun r =>
    (writes put told (answered t.buf asked r.1) t.out).map fun out =>
      ⟨out, r.2.2, r.2.1, answered t.buf asked r.1⟩

variable {put} {f : Field} {fs gs asked told asked' told' : List Field} {t : Talk σ} {out : σ}
  {buf buf' : Field → Bytes}

theorem writes_append : writes put (fs ++ gs) buf out
    = (writes put fs buf out).bind (writes put gs buf) := List.foldlM_append

theorem writes_congr (h : ∀ f ∈ fs, buf f = buf' f) :
    writes put fs buf out = writes put fs buf' out := by
  induction fs generalizing out with
  | nil => rfl
  | cons f fs ih =>
    rw [writes, writes, List.foldlM_cons, List.foldlM_cons, h f (by simp)]
    congr 1
    funext out
    exact ih fun g hg => h g (by simp [hg])

/-- Two turns in a row, where the second asks for nothing that the first writes. -/
theorem turn_turn (h : ∀ f ∈ told, f ∉ asked') (t : Talk σ) :
    (turn put asked told t).bind (turn put asked' told')
      = turn put (asked ++ asked') (told ++ told') t := by
  rw [turn, turn, List.length_append, listen_add, Option.bind_assoc, Option.bind_assoc]
  cases hl : listen asked.length t.tmpbuf t.stdin with
  | none => rfl
  | some r =>
    rw [Option.bind_some, Option.bind_some, Option.bind_map, Option.bind_map]
    have happ : ∀ q : List (Option Bytes) × Option Bytes × Bytes,
        answered t.buf (asked ++ asked') (r.1 ++ q.1)
          = answered (answered t.buf asked r.1) asked' q.1 :=
      fun q => answered_append (length_listen hl) q.1
    have hold : ∀ q : List (Option Bytes) × Option Bytes × Bytes,
        writes put told (answered (answered t.buf asked r.1) asked' q.1) t.out
          = writes put told (answered t.buf asked r.1) t.out :=
      fun q => writes_congr fun f hf => answered_of_not_mem (h f hf)
    cases hw : writes put told (answered t.buf asked r.1) t.out with
    | none =>
      rw [Option.bind_none]
      cases listen asked'.length r.2.1 r.2.2 with
      | none => rfl
      | some q =>
        rw [Option.bind_some, Function.comp_apply, happ, writes_append, hold, hw]
        rfl
    | some out =>
      rw [Option.bind_some, Function.comp_apply, turn]
      congr 1
      funext q
      rw [Function.comp_apply, happ, writes_append, hold, hw]
      rfl

theorem hear_eq (f : Field) (t : Talk σ) :
    hear f t = ((fgets t.tmpbuf t.stdin).1.bind reply).map fun a =>
      { t with
        stdin := (fgets t.tmpbuf t.stdin).2
        tmpbuf := some a.2
        buf := answer t.buf f a.1 } := by
  rw [hear]
  cases (fgets t.tmpbuf t.stdin).1 with
  | none => rfl
  | some s =>
    rw [Option.bind_some, Option.bind_some, reply]
    by_cases hn : s = asc "\n"
    · rw [if_pos hn, if_pos hn, Option.map_some, answer, Option.getD_none, Function.update_eq_self]
    · rw [if_neg hn, if_neg hn]
      by_cases he : s = []
      · rw [if_pos he, if_pos he]
        rfl
      · rw [if_neg he, if_neg he]
        rfl

theorem ask_eq_turn (f : Field) (t : Talk σ) : ask put f t = turn put [f] [f] t := by
  rw [ask, hear_eq, turn, List.length_singleton, listen, Option.bind_assoc, Option.bind_map]
  cases (fgets t.tmpbuf t.stdin).1.bind reply with
  | none => rfl
  | some a =>
    show tell put f _ = ((put t.out f.name (answer t.buf f a.1 f)).bind some).map _
    rw [Option.bind_fun_some]
    rfl

/-- Prompts in a row are one turn. -/
theorem asks_eq_turn (hnd : fs.Nodup) (t : Talk σ) : asks put fs t = turn put fs fs t := by
  induction fs generalizing t with
  | nil => rfl
  | cons f fs ih =>
    obtain ⟨hf, hnd⟩ := List.nodup_cons.mp hnd
    rw [asks, List.foldlM_cons]
    show (ask put f t).bind (asks put fs) = _
    rw [ask_eq_turn, funext (ih hnd), turn_turn (by simpa using hf)]
    rfl

theorem tells_eq_turn (fs : List Field) (t : Talk σ) : tells put fs t = turn put [] fs t := by
  show tells put fs t = (writes put fs t.buf t.out).map fun out => { t with out := out }
  induction fs generalizing t with
  | nil => rfl
  | cons f fs ih =>
    rw [tells, List.foldlM_cons, writes, List.foldlM_cons]
    show (tell put f t).bind (tells put fs) = _
    rw [tell, Option.bind_map]
    show _ = ((put t.out f.name (t.buf f)).bind (writes put fs t.buf)).map _
    rw [Option.map_bind]
    congr 1
    funext out
    exact ih _

/-- The board's own fields. -/
def boardFields (v : Variant) : List Field :=
  if v = .IG9 then [.re_mac, .re1_mac, .re2_mac] else [.wlanmac] ++ if v = .VG9 then [.wlanmac_5g] else []

/-- The fields a session writes back. -/
def writtenFields (v : Variant) : List Field := firstFields v ++ boardFields v ++ lastFields

/-- The fields a session asks for. -/
def prompted (v : Variant) (buf : Field → Bytes) : List Field :=
  firstFields v ++ (if v = .IG9 ∧ realtime buf = false then [] else boardFields v) ++ lastFields

theorem nodup_written (v : Variant) : (writtenFields v).Nodup := by cases v <;> decide

theorem prompted_sublist (v : Variant) (buf : Field → Bytes) :
    (prompted v buf).Sublist (writtenFields v) := by
  refine List.Sublist.append (List.Sublist.append (List.Sublist.refl _) ?_) (List.Sublist.refl _)
  split
  · exact List.nil_sublist _
  · exact List.Sublist.refl _

theorem nodup_prompted (v : Variant) (buf : Field → Bytes) : (prompted v buf).Nodup :=
  (nodup_written v).sublist (prompted_sublist v buf)

theorem board_eq_turn (v : Variant) (t : Talk σ) :
    board_prompts put v t
      = turn put (if v = .IG9 ∧ realtime t.buf = false then [] else boardFields v) (boardFields v)
          t := by
  rw [board_prompts, boardFields]
  by_cases hv : v = .IG9
  · rw [if_pos hv, if_pos hv]
    by_cases hr : realtime t.buf = true
    · rw [if_pos hr, if_neg (by simp [hr])]
      exact asks_eq_turn (by decide) t
    · rw [if_neg hr, if_pos ⟨hv, by simpa using hr⟩]
      exact tells_eq_turn _ t
  · have hnd : ([Field.wlanmac] ++ if v = .VG9 then [Field.wlanmac_5g] else []).Nodup := by
      split
      · decide
      · decide
    rw [if_neg hv, if_neg hv, if_neg fun h : v = .IG9 ∧ realtime t.buf = false => hv h.1]
    exact asks_eq_turn hnd t

/-! ### The whole dialogue -/

variable (put) in
/-- All prompts of a session. -/
def dialogue (v : Variant) (mac : Option (Vector UInt8 6)) (t : Talk σ) : Option (Talk σ) :=
  (asks put (firstFields v) t).bind fun t =>
    (board_prompts put v { t with buf := current v mac t.buf }).bind (asks put lastFields)

theorem current_of_ne {v : Variant} {mac : Option (Vector UInt8 6)} (hf : f ≠ .wlanmac) :
    current v mac buf f = buf f := by
  rw [current]
  split
  · exact Function.update_of_ne hf _ _
  · rfl

theorem realtime_current (v : Variant) (mac : Option (Vector UInt8 6)) (buf : Field → Bytes) :
    realtime (current v mac buf) = realtime buf := by
  rw [realtime, realtime, current_of_ne (by decide), current_of_ne (by decide)]

theorem realtime_answered {as : List (Option Bytes)} (h : Field.modelname ∉ fs)
    (h' : Field.productnum ∉ fs) : realtime (answered buf fs as) = realtime buf := by
  rw [realtime, realtime, answered_of_not_mem h, answered_of_not_mem h']

/-- The address may as well be fetched before the first prompt. -/
theorem answered_current {v : Variant} {mac : Option (Vector UInt8 6)} {as : List (Option Bytes)}
    (h : Field.wlanmac ∉ fs) :
    answered (current v mac buf) fs as = current v mac (answered buf fs as) := by
  induction fs generalizing buf as with
  | nil => rfl
  | cons f fs ih =>
    cases as with
    | nil => rfl
    | cons a as =>
      rw [List.mem_cons, not_or] at h
      have hstep : answer (current v mac buf) f a = current v mac (answer buf f a) := by
        rw [answer, answer, current_of_ne (Ne.symm h.1), current, current]
        split
        · exact Function.update_comm h.1 _ _ _
        · rfl
      rw [answered, answered, hstep, ih h.2]

/-- **The dialogue**: all answers are read, and then all fields written. -/
theorem dialogue_eq (v : Variant) (mac : Option (Vector UInt8 6)) (t : Talk σ) :
    dialogue put v mac t
      = turn put (prompted v t.buf) (writtenFields v) { t with buf := current v mac t.buf } := by
  have hfirst : Field.wlanmac ∉ firstFields v := by cases v <;> decide
  have hmodel : Field.modelname ∉ firstFields v := by cases v <;> decide
  have hproduct : Field.productnum ∉ firstFields v := by cases v <;> decide
  have hnd : (firstFields v).Nodup := by cases v <;> decide
  have hboard : ∀ f ∈ firstFields v, f ∉ boardFields v := by cases v <;> decide
  have hlast : ∀ f ∈ firstFields v ++ boardFields v, f ∉ lastFields := by cases v <;> decide
  rw [prompted, writtenFields, ← turn_turn hlast, ← turn_turn fun f hf hm => ?_, dialogue,
    asks_eq_turn hnd]
  · rw [Option.bind_assoc]
    rw [turn, turn, Option.bind_assoc, Option.bind_assoc]
    congr 1
    funext r
    have hsame : writes put (firstFields v) (current v mac (answered t.buf (firstFields v) r.1)) t.out
        = writes put (firstFields v) (answered t.buf (firstFields v) r.1) t.out :=
      writes_congr fun f hf => current_of_ne fun he => hfirst (he ▸ hf)
    rw [answered_current hfirst, hsame, Option.bind_map, Option.bind_map]
    congr 1
    funext out
    rw [Function.comp_apply, Function.comp_apply, board_eq_turn, realtime_current,
      realtime_answered hmodel hproduct, funext (asks_eq_turn (by decide))]
  · split at hm
    · cases hm
    · exact hboard f hf hm

end Turns

/-! ### Writing into the data area -/

section Writes

variable {n : Nat} {f : Field} {fs : List Field} {buf : Field → Bytes} {es : List Bytes}

/-- The entry of a field. -/
def entryOf (buf : Field → Bytes) (f : Field) : Bytes := f.name ++ buf f

/-- Behind a list that stays, the fields are written as further entries. -/
theorem writes_pack (h : (pack (es ++ fs.map (entryOf buf))).length ≤ n) :
    writes putMem fs buf (padded n (pack es), (pack es).length)
      = some (padded n (pack (es ++ fs.map (entryOf buf))),
          (pack (es ++ fs.map (entryOf buf))).length) := by
  induction fs generalizing es with
  | nil =>
    rw [List.map_nil, List.append_nil]
    rfl
  | cons f fs ih =>
    rw [List.map_cons, List.append_cons] at h ⊢
    have hone : (pack (es ++ [entryOf buf f])).length ≤ n :=
      (length_pack_sublist (List.sublist_append_left _ _)).trans h
    rw [writes, List.foldlM_cons, putMem_pack hone]
    exact ih h

/-- What the entries of the fields take. -/
def size (fs : List Field) (buf : Field → Bytes) : Nat :=
  (fs.map fun f => (entryOf buf f).length + 1).sum

theorem putMem_some {out out' : Bytes × Nat} {name value : Bytes}
    (h : putMem out name value = some out') :
    out.2 + ((name ++ value).length + 1) ≤ out.1.length ∧ out'.1.length = out.1.length ∧
      out'.2 = out.2 + ((name ++ value).length + 1) := by
  obtain ⟨data, hname, hrest⟩ := Option.bind_eq_some_iff.mp h
  obtain ⟨data', hvalue, rfl⟩ := Option.map_eq_some_iff.mp hrest
  have hlen := (length_of_strcpy hname).2
  obtain ⟨hle, hlen'⟩ := length_of_strcpy hvalue
  rw [List.length_append]
  exact ⟨by omega, hlen'.trans hlen, by simp only; omega⟩

theorem strcpy_of_le {m s : Bytes} {pos : Nat} (h : pos + s.length + 1 ≤ m.length) :
    ∃ m', strcpy m pos s = some m' := by
  refine ⟨_, if_pos ?_⟩
  rw [List.length_append, List.length_singleton]
  exact h

theorem putMem_of_le {out : Bytes × Nat} {name value : Bytes}
    (h : out.2 + ((name ++ value).length + 1) ≤ out.1.length) :
    ∃ out', putMem out name value = some out' := by
  rw [List.length_append] at h
  obtain ⟨data, hname⟩ : ∃ data, strcpy out.1 out.2 name = some data := strcpy_of_le (by omega)
  have hlen := (length_of_strcpy hname).2
  obtain ⟨data', hvalue⟩ : ∃ data', strcpy data (out.2 + name.length) value = some data' :=
    strcpy_of_le (by omega)
  exact ⟨_, by rw [putMem, hname, Option.bind_some, hvalue]; rfl⟩

/-- The fields are written without leaving the data area when their entries fit. -/
theorem writes_iff {out : Bytes × Nat} :
    (∃ out', writes putMem fs buf out = some out') ↔
      fs = [] ∨ out.2 + size fs buf ≤ out.1.length := by
  induction fs generalizing out with
  | nil => simp [writes]
  | cons f fs ih =>
    have hsize : size (f :: fs) buf = (f.name ++ buf f).length + 1 + size fs buf := by
      rw [size, List.map_cons, List.sum_cons]
      rfl
    rw [writes, List.foldlM_cons, hsize]
    constructor
    · rintro ⟨out', h⟩
      obtain ⟨out₁, hput, hrest⟩ := Option.bind_eq_some_iff.mp h
      obtain ⟨hle, hlen, hpos⟩ := putMem_some hput
      right
      rcases ih.mp ⟨out', hrest⟩ with rfl | hle'
      · rw [size, List.map_nil, List.sum_nil]
        omega
      · omega
    · rintro (h | h)
      · cases h
      · obtain ⟨out₁, hput⟩ := putMem_of_le
          (show out.2 + ((f.name ++ buf f).length + 1) ≤ out.1.length by omega)
        obtain ⟨-, hlen, hpos⟩ := putMem_some hput
        obtain ⟨out', hrest⟩ := ih.mpr (Or.inr (show out₁.2 + size fs buf ≤ out₁.1.length by omega))
        refine ⟨out', ?_⟩
        show (putMem out f.name (buf f)).bind _ = _
        rw [hput]
        exact hrest

end Writes

/-! ### Runs -/

section Runs

variable {abi : Abi} {v : Variant} {stdin : Bytes} {env env' : EnvBlock} {r : Int}

/-- The last question looks at one character. -/
theorem yes_fgets {stdin : Bytes} (h : stdin ≠ []) (tmpbuf : Option Bytes) :
    ∃ s, (fgets tmpbuf stdin).1 = some s ∧ (Yes s ↔ Yes stdin) := by
  obtain ⟨c, rest, rfl⟩ := List.exists_cons_of_ne_nil h
  refine ⟨_, by rw [fgets, if_neg h], ?_⟩
  have hline : ∃ l, (line (bufLen - 1) (c :: rest)).1 = c :: l := by
    rw [bufLen, line]
    split
    · exact ⟨_, rfl⟩
    · exact ⟨_, rfl⟩
  obtain ⟨l, hl⟩ := hline
  rw [hl, Yes, Yes, str, List.head?_cons]
  by_cases hc : c = 0
  · rw [List.takeWhile_cons_of_neg (by simpa using hc), hc]
    decide
  · rw [List.takeWhile_cons_of_pos (by simpa using hc), List.head?_cons]

/-- **A run of the program** on a block it can read: the dialogue with some address
from the factory partition, and the last question. -/
theorem run_intools_iff {data : Bytes} {datalen : Nat} {st : (Bytes × Nat) × (Field → Bytes)}
    (hload : ((load abi v env).bind fun data => count_cut data 0) = some (data, datalen))
    (hfields : load_fields v data datalen = some st) :
    Run allOk (intools_main abi v stdin) env (some r) env' ↔
      ∃ mac : Vector UInt8 6, ∀ t, dialogue putMem v (some mac) ⟨st.1, stdin, none, st.2⟩ = some t →
        Run allOk (save abi v t) env (some r) env' := by
  have hmalloc : ∀ (r : EnvRet .malloc) w, allOk.step env .malloc r w ↔ r = true ∧ w = env :=
    fun _ _ => Iff.rfl
  rw [intools_main, Prog.ask_bind]
  refine (Run.some_call_eq fun _ _ => Iff.rfl).trans ?_
  rw [if_neg (by simp), Prog.ask_bind]
  refine (Run.some_call_eq hmalloc).trans ?_
  rw [if_neg (by simp), Prog.ask_bind]
  refine (Run.some_call_eq fun _ _ => Iff.rfl).trans ?_
  simp only [hload, hfields, Option.bind_some]
  rw [Prog.ask_bind]
  refine (Run.some_call_eq hmalloc).trans ?_
  rw [if_neg (by simp)]
  have hdialogue : ∀ mac, dialogue putMem v mac ⟨st.1, stdin, none, st.2⟩
      = (asks putMem (firstFields v) ⟨st.1, stdin, none, st.2⟩).bind fun t =>
          (board_prompts putMem v { t with buf := current v mac t.buf }).bind
            (asks putMem lastFields) := fun _ => rfl
  cases hfirst : asks putMem (firstFields v) ⟨st.1, stdin, none, st.2⟩ with
  | none =>
    refine iff_of_true run_undefined ⟨Vector.replicate 6 0, fun t ht => ?_⟩
    rw [hdialogue, hfirst] at ht
    cases ht
  | some t₁ =>
    have hrest : ∀ mac, dialogue putMem v mac ⟨st.1, stdin, none, st.2⟩
        = (board_prompts putMem v { t₁ with buf := current v mac t₁.buf }).bind
            (asks putMem lastFields) := by
      intro mac
      rw [hdialogue, hfirst, Option.bind_some]
    rw [Run.some_bind]
    constructor
    · rintro ⟨buf, w, hbuf, hr⟩
      obtain ⟨rfl, mac, rfl⟩ := run_factory_iff.mp hbuf
      refine ⟨mac, fun t ht => ?_⟩
      rw [hrest] at ht
      rw [ht] at hr
      exact hr
    · rintro ⟨mac, h⟩
      refine ⟨_, env, run_factory_iff.mpr ⟨rfl, mac, rfl⟩, ?_⟩
      rw [hrest] at h
      cases hd : (board_prompts putMem v { t₁ with buf := current v (some mac) t₁.buf }).bind
          (asks putMem lastFields) with
      | none => exact run_undefined
      | some t => exact h t hd

end Runs

end Boxing.Intools
