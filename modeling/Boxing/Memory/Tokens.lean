import Boxing.C.Lines
import Boxing.Device.Logged
import Boxing.Memory.Check

/-!
# What happens to `revbuf`

`Split` stores a pointer for every field of the line into `revbuf`, and tells its caller how
many there were.  The caller does not look: `revbuf[0]` and `revbuf[2]` are the pid and the size,
whatever the line was.  And the loop of `Split` does not know that `revbuf` has `RECV_NUM`
places.

Here the body of `Check_Fork_Memroy` is written once more, with a log of what it does to
`revbuf`; without the log it is `turn`.  `within_iff` says for which lines it stays within what
there is: those with three fields or more and no more than `RECV_NUM`, and the empty ones.
-/

namespace Boxing.Memory

open C Device

/-! ### The body of the loop, with a log -/

/-- A pointer is stored in `revbuf[i]`, or what `revbuf[i]` points to is used. -/
inductive Access
  | stored (i : Nat)
  | used (i : Nat)
deriving DecidableEq, Repr

abbrev Using := Logged Access

namespace Using

/-- The loop of `Split`, from `revbuf[i]` on. -/
def tokens (delim : UInt8) :
    Nat → List (Option Nat) → Bytes → Nat → Using (Bytes × List (Option Nat))
  | i, [], buf, pos =>
    match strtok delim buf pos with
    | none => pure (buf, [])
    | some _ => do -- behind the array
      Logged.emit (.stored i)
      Logged.lift none
  | i, old :: dest, buf, pos =>
    match strtok delim buf pos with
    | none => pure (buf, old :: dest)
    | some (tok, buf, pos) => do
      Logged.emit (.stored i)
      let r ← tokens delim (i + 1) dest buf pos
      pure (r.1, some tok :: r.2)

def Split (loc : Locals) : Using (Int × Locals) :=
  if str loc.buf = [] then pure (-1, loc)
  else do
    let r ← tokens blank 0 loc.revbuf loc.buf 0
    pure (0, ⟨r.1, r.2⟩)

/-- `revbuf[i]`, where a string is wanted. -/
def use (loc : Locals) (i : Nat) : Using Nat := do
  Logged.emit (.used i)
  Logged.lift (loc.revbuf.getD i none)

/-- `atoi(revbuf[0])`. -/
def read_pid (loc : Locals) : Using Int := do
  let p ← use loc 0
  pure (atoi (str (loc.buf.drop p)))

/-- `strstr(revbuf[2], "m")` and `atoi(revbuf[2])`. -/
def read_size (loc : Locals) : Using (Int × Locals) := do
  let p ← use loc 2
  let text := str (loc.buf.drop p)
  if chM ∈ text then
    let buf := loc.buf.set (p + (text.takeWhile (· ≠ chM)).length) 0
    let p ← use ⟨buf, loc.revbuf⟩ 2
    pure (int32 (atoi (str (buf.drop p)) * 1024), ⟨buf, loc.revbuf⟩)
  else
    let p ← use loc 2
    pure (atoi (str (loc.buf.drop p)), loc)

def Memroy_Check (e : Memory_Check) (log_file : Bool) (loc : Locals) :
    Using (Int × Int × Bytes × Locals) := do
  let r ← read_size loc
  pure (if leak e r.1 ≠ [] ∧ log_file = false then -1 else 0, r.1, leak e r.1, r.2)

/-- `flag == -1 || pid != atoi(revbuf[0])`. -/
def started (e : Memory_Check) (loc : Locals) : Using Bool :=
  if e.flag = -1 then pure true
  else do
    let pid ← read_pid loc
    pure (decide (e.pid ≠ pid))

/-- What follows on `Split`: what has been done, the entry, and what the scan goes on with. -/
def assign (e : Memory_Check) (log_file : Bool) (loc : Locals) :
    Using (Option Action × Memory_Check × Int × Locals) := do
  let new ← started e loc
  if new = true then
    let pid ← read_pid loc
    let r ← read_size loc
    pure (some (.initialised pid r.1), { e with pid := pid, size := r.1, flag := 1 }, 0, r.2)
  else
    let r ← Memroy_Check e log_file loc
    pure (some (.compared e.pid r.2.1 r.2.2.1), e, r.1, r.2.2.2)

/-- The loop's body behind `popen`, with what the pipe delivers. -/
def turn (e : Memory_Check) (out : Bytes) (log_file : Bool) (loc : Locals) :
    Using (Option Action × Memory_Check × Int × Locals) :=
  let loc : Locals := ⟨fgets loc.buf out, loc.revbuf⟩
  if str loc.buf = [] then pure (none, e, 0, loc)
  else do
    let r ← Split loc
    if r.1 ≠ 0 then pure (none, e, -1, r.2) else assign e log_file r.2

end Using

/-- How many pointers have been stored. -/
def stores (log : List Access) : Nat := log.countP fun a =>
  match a with
  | .stored _ => true
  | .used _ => false

/-- No more pointers are stored than `revbuf` has room for, and they are used only where there
are three. -/
structure Within (log : List Access) : Prop where
  stored : stores log ≤ recvNum
  used : ∀ i, .used i ∈ log → 3 ≤ stores log

/-- The locals of a scan: there is a string in `buf`, and `revbuf` is as long as declared. -/
structure Locals.Valid (loc : Locals) : Prop where
  buf : 0 ∈ loc.buf
  revbuf : loc.revbuf.length = recvNum

/-! ### Without the log -/

section

variable {e : Memory_Check} {out : Bytes} {log_file : Bool} {loc : Locals}

theorem result_tokens (delim : UInt8) : ∀ (dest : List (Option Nat)) (i : Nat) (buf : Bytes)
    (pos : Nat), (Using.tokens delim i dest buf pos).result = tokens delim dest buf pos := by
  intro dest
  induction dest with
  | nil =>
    intro i buf pos
    rw [Using.tokens, tokens]
    cases strtok delim buf pos with
    | none => rfl
    | some r => rfl
  | cons old dest ih =>
    intro i buf pos
    rw [Using.tokens, tokens]
    cases strtok delim buf pos with
    | none => rfl
    | some r =>
      dsimp only
      rw [Logged.emit_bind, Logged.result_bind, ih]
      cases tokens delim dest r.2.1 r.2.2 with
      | none => rfl
      | some r => rfl

theorem result_Split (loc : Locals) : (Using.Split loc).result = Split loc := by
  unfold Using.Split Split
  split
  · rfl
  · rw [Logged.result_bind, result_tokens]
    cases tokens blank loc.revbuf loc.buf 0 with
    | none => rfl
    | some r => rfl

theorem result_use (loc : Locals) (i : Nat) :
    (Using.use loc i).result = loc.revbuf.getD i none := rfl

theorem result_read_pid (loc : Locals) : (Using.read_pid loc).result = read_pid loc := by
  rw [Using.read_pid, read_pid, Logged.result_bind, result_use]
  cases loc.revbuf.getD 0 none with
  | none => rfl
  | some p => rfl

theorem result_read_size (loc : Locals) : (Using.read_size loc).result = read_size loc := by
  rw [Using.read_size, read_size, Logged.result_bind, result_use]
  cases h : loc.revbuf.getD 2 none with
  | none => rfl
  | some p =>
    rw [Option.bind_some, Option.map_some]
    dsimp only
    split
    · rw [Logged.result_bind, result_use, h]
      rfl
    · rw [Logged.result_bind, result_use, h]
      rfl

theorem result_Memroy_Check (e : Memory_Check) (log_file : Bool) (loc : Locals) :
    (Using.Memroy_Check e log_file loc).result = Memroy_Check e log_file loc := by
  rw [Using.Memroy_Check, Memroy_Check, Logged.result_bind, result_read_size]
  cases read_size loc with
  | none => rfl
  | some r => rfl

theorem result_started {pid : Int} (hpid : read_pid loc = some pid) :
    (Using.started e loc).result = some (decide (e.flag = -1 ∨ e.pid ≠ pid)) := by
  unfold Using.started
  by_cases hflag : e.flag = -1
  · rw [if_pos hflag, decide_eq_true (Or.inl hflag)]
    rfl
  · rw [if_neg hflag, Logged.result_bind, result_read_pid, hpid, Option.bind_some,
      Logged.result_pure, decide_eq_decide.mpr (or_iff_right hflag)]

theorem result_assign (e : Memory_Check) (table : List Line) (log_file : Bool) (loc : Locals) :
    (Using.assign e log_file loc).result.map (fun r =>
      ((⟨e, table, r.1, r.2.1⟩ : Record), r.2.2.1, r.2.2.2)) = assign e table log_file loc := by
  unfold Using.assign assign
  rw [Logged.result_bind]
  cases hpid : read_pid loc with
  | none =>
    have hnone : (Using.read_pid loc).result = none := (result_read_pid loc).trans hpid
    unfold Using.started
    split
    · rw [Logged.result_pure, Option.bind_some, if_pos rfl, Logged.result_bind, hnone]
      rfl
    · rw [Logged.result_bind, hnone]
      rfl
  | some pid =>
    rw [result_started hpid, Option.bind_some, Option.bind_some]
    by_cases hnew : e.flag = -1 ∨ e.pid ≠ pid
    · rw [if_pos (decide_eq_true hnew), if_pos hnew, Logged.result_bind, result_read_pid, hpid,
        Option.bind_some, Logged.result_bind, result_read_size]
      cases read_size loc with
      | none => rfl
      | some r => rfl
    · rw [if_neg (by rw [decide_eq_true_iff]; exact hnew), if_neg hnew, Logged.result_bind,
        result_Memroy_Check, not_not.mp (not_or.mp hnew).2]
      cases Memroy_Check e log_file loc with
      | none => rfl
      | some r => rfl

/-- **Without the log** it is the body as it was. -/
theorem result_turn (grep : Bytes → Bytes → Bool) (e : Memory_Check) (table : List Line)
    (log_file : Bool) (loc : Locals) :
    (Using.turn e (output grep e.name table) log_file loc).result.map (fun r =>
      ((⟨e, table, r.1, r.2.1⟩ : Record), r.2.2.1, r.2.2.2)) = turn grep e table log_file loc := by
  unfold Using.turn turn
  dsimp only
  split
  · rfl
  · rw [Logged.result_bind, result_Split]
    cases Split ⟨fgets loc.buf (output grep e.name table), loc.revbuf⟩ with
    | none => rfl
    | some r =>
      rw [Option.bind_some, Option.bind_some]
      split
      · rfl
      · exact result_assign e table log_file r.2

end

/-! ### The log -/

theorem stores_append (a b : List Access) : stores (a ++ b) = stores a + stores b :=
  List.countP_append

theorem stores_stored (is : List Nat) : stores (is.map .stored) = is.length := by
  rw [stores, List.countP_map]
  exact List.countP_eq_length.mpr fun _ _ => rfl

/-- **The loop of `Split`** stores a pointer for every field, and stops behind the array. -/
theorem log_tokens {delim : UInt8} (hd : delim ≠ 0) : ∀ (dest : List (Option Nat)) (i : Nat)
    {pre s post : Bytes}, 0 ∉ s →
    (Using.tokens delim i dest (pre ++ (s ++ 0 :: post)) pre.length).log
      = (List.range' i (min (fields delim s).length (dest.length + 1))).map .stored := by
  intro dest
  induction dest with
  | nil =>
    intro i pre s post h0
    rcases strtok_spec hd h0 pre post with ⟨hf, hone⟩ | ⟨t, s', m, place, hcut⟩
    · rw [Using.tokens, hone, hf]
      rfl
    · rw [Using.tokens, hcut.call, hcut.fields, List.length_cons, List.length_nil,
        Nat.min_eq_right (by omega)]
      rfl
  | cons old dest ih =>
    intro i pre s post h0
    rcases strtok_spec hd h0 pre post with ⟨hf, hone⟩ | ⟨t, s', m, place, hcut⟩
    · rw [Using.tokens, hone, hf, List.length_nil, Nat.zero_min]
      rfl
    · have hrest := @ih (i + 1) (pre ++ m) s' post hcut.zero
      rw [Using.tokens, hcut.call, hcut.fields, List.length_cons, List.length_cons,
        Nat.add_min_add_right, List.range'_succ, List.map_cons, ← hrest]
      dsimp only
      rw [Logged.emit_bind, Logged.log_bind_pure]

/-- What `atoi`, `strstr` and the comparisons do is to use pointers, and store none. -/
def OnlyUses (log : List Access) : Prop := ∀ a ∈ log, ∃ i, a = .used i

theorem OnlyUses.stores {log : List Access} (h : OnlyUses log) : stores log = 0 := by
  refine List.countP_eq_zero.mpr fun a ha => ?_
  obtain ⟨i, rfl⟩ := h a ha
  exact Bool.noConfusion

section

variable (e : Memory_Check) (log_file : Bool) (loc : Locals)

theorem log_read_pid : (Using.read_pid loc).log = [.used 0] := Logged.log_bind_pure _ _

theorem onlyUses_use (i : Nat) : OnlyUses (Using.use loc i).log := by
  intro a ha
  exact ⟨i, List.mem_singleton.mp ha⟩

theorem onlyUses_read_pid : OnlyUses (Using.read_pid loc).log := by
  rw [log_read_pid]
  exact onlyUses_use loc 0

theorem onlyUses_read_size : OnlyUses (Using.read_size loc).log := by
  refine Logged.forall_log_bind (onlyUses_use loc 2) fun p => ?_
  dsimp only
  split
  · rw [Logged.log_bind_pure]
    exact onlyUses_use _ 2
  · rw [Logged.log_bind_pure]
    exact onlyUses_use _ 2

theorem onlyUses_assign : OnlyUses (Using.assign e log_file loc).log := by
  refine Logged.forall_log_bind ?_ fun new => ?_
  · unfold Using.started
    split
    · exact fun a ha => absurd ha List.not_mem_nil
    · rw [Logged.log_bind_pure]
      exact onlyUses_read_pid loc
  · split
    · refine Logged.forall_log_bind (onlyUses_read_pid loc) fun pid => ?_
      rw [Logged.log_bind_pure]
      exact onlyUses_read_size loc
    · rw [Logged.log_bind_pure, Using.Memroy_Check, Logged.log_bind_pure]
      exact onlyUses_read_size loc

/-- The pid is looked at, whatever the entry is. -/
theorem used_assign : .used 0 ∈ (Using.assign e log_file loc).log := by
  have hpid : Access.used 0 ∈ (Using.read_pid loc).log := by
    rw [log_read_pid]
    exact List.mem_singleton_self _
  unfold Using.assign Using.started
  by_cases hflag : e.flag = -1
  · rw [if_pos hflag, Logged.pure_bind, if_pos rfl]
    exact (Logged.log_prefix_bind _ _).subset hpid
  · rw [if_neg hflag]
    refine (Logged.log_prefix_bind _ _).subset ?_
    rw [Logged.log_bind_pure]
    exact hpid

end

/-! ### The lines -/

section

variable {e : Memory_Check} {out : Bytes} {log_file : Bool} {loc loc' : Locals}

theorem fgets_valid (h : loc.Valid) (out : Bytes) :
    (⟨fgets loc.buf out, loc.revbuf⟩ : Locals).Valid := by
  refine ⟨?_, h.revbuf⟩
  unfold fgets
  split
  · exact h.buf
  · exact List.mem_append_right _ List.mem_cons_self

/-- **`Split`**, with room for the fields and without. -/
theorem Split_valid (h : loc.Valid) (hne : str loc.buf ≠ [])
    (hle : (fields blank (str loc.buf)).length ≤ recvNum) :
    ∃ loc', Split loc = some (0, loc') ∧ loc'.Valid := by
  obtain ⟨s, post, hbuf, h0⟩ := List.eq_append_cons_of_mem h.buf
  unfold Split
  rw [if_neg hne]
  rw [hbuf, str_append_zero s post h0] at hle
  obtain ⟨m, places, htok, -, -, -, -, hfor⟩ :=
    @tokens_spec blank (by decide) loc.revbuf [] s post h0 (hle.trans (Nat.le_of_eq h.revbuf.symm))
  rw [List.nil_append, List.nil_append, List.length_nil, ← hbuf] at htok
  rw [htok]
  refine ⟨_, rfl, List.mem_append_right _ List.mem_cons_self, ?_⟩
  have hplaces := hfor.length_eq
  have hroom := h.revbuf
  rw [List.length_append, List.length_map, List.length_drop]
  omega

theorem Split_overflow (h : loc.Valid) (hne : str loc.buf ≠ [])
    (hlt : recvNum < (fields blank (str loc.buf)).length) : Split loc = none := by
  obtain ⟨s, post, hbuf, h0⟩ := List.eq_append_cons_of_mem h.buf
  unfold Split
  rw [if_neg hne]
  rw [hbuf, str_append_zero s post h0, ← h.revbuf] at hlt
  have htok := @tokens_eq_none blank (by decide) loc.revbuf [] s post h0 hlt
  rw [List.nil_append, List.length_nil, ← hbuf] at htok
  rw [htok]
  rfl

theorem stores_Split (h : loc.Valid) (hne : str loc.buf ≠ []) :
    stores (Using.Split loc).log = min (fields blank (str loc.buf)).length (recvNum + 1) := by
  obtain ⟨s, post, hbuf, h0⟩ := List.eq_append_cons_of_mem h.buf
  have hlog := @log_tokens blank (by decide) loc.revbuf 0 [] s post h0
  rw [List.nil_append, List.length_nil, ← hbuf] at hlog
  unfold Using.Split
  rw [if_neg hne, Logged.log_bind_pure, hlog, stores_stored, List.length_range', h.revbuf, hbuf,
    str_append_zero s post h0]

theorem set_valid (h : loc.Valid) (i : Nat) : (⟨loc.buf.set i 0, loc.revbuf⟩ : Locals).Valid := by
  refine ⟨?_, h.revbuf⟩
  rcases Nat.lt_or_ge i loc.buf.length with hlt | hge
  · exact List.mem_set hlt 0
  · dsimp only
    rw [List.set_eq_of_length_le hge]
    exact h.buf

theorem read_size_valid (h : loc.Valid) {size : Int} (hsize : read_size loc = some (size, loc')) :
    loc'.Valid := by
  obtain ⟨p, -, hp⟩ := Option.map_eq_some_iff.mp hsize
  dsimp only at hp
  split at hp
  · obtain ⟨-, rfl⟩ := Prod.mk.inj hp
    exact set_valid h _
  · obtain ⟨-, rfl⟩ := Prod.mk.inj hp
    exact h

theorem assign_valid (h : loc.Valid) {table : List Line} {r : Record} {ret : Int}
    (hassign : assign e table log_file loc = some (r, ret, loc')) : loc'.Valid := by
  obtain ⟨pid, -, hassign⟩ := Option.bind_eq_some_iff.mp hassign
  split at hassign
  · obtain ⟨⟨size, loc₁⟩, hsize, heq⟩ := Option.map_eq_some_iff.mp hassign
    obtain ⟨-, hrest⟩ := Prod.mk.inj heq
    obtain ⟨-, rfl⟩ := Prod.mk.inj hrest
    exact read_size_valid h hsize
  · obtain ⟨x, hcheck, heq⟩ := Option.map_eq_some_iff.mp hassign
    obtain ⟨-, hrest⟩ := Prod.mk.inj heq
    obtain ⟨-, rfl⟩ := Prod.mk.inj hrest
    obtain ⟨⟨size, loc₁⟩, hsize, rfl⟩ := Option.map_eq_some_iff.mp hcheck
    exact read_size_valid h hsize

/-- **One entry** leaves the locals so that they are right for the next one. -/
theorem turn_valid (h : loc.Valid) {action : Option Action} {after : Memory_Check} {ret : Int}
    (hturn : (Using.turn e out log_file loc).result = some (action, after, ret, loc')) :
    loc'.Valid := by
  have hvalid := fgets_valid h out
  unfold Using.turn at hturn
  dsimp only at hturn
  split at hturn
  · obtain ⟨-, hrest⟩ := Prod.mk.inj (Option.some.inj hturn)
    obtain ⟨-, hrest⟩ := Prod.mk.inj hrest
    obtain ⟨-, rfl⟩ := Prod.mk.inj hrest
    exact hvalid
  · rename_i hne
    rw [Logged.result_bind, result_Split] at hturn
    rcases Nat.lt_or_ge recvNum (fields blank (str (fgets loc.buf out))).length with hlt | hle
    · rw [Split_overflow hvalid hne hlt] at hturn
      cases hturn
    · obtain ⟨loc₁, hsplit, hvalid₁⟩ := Split_valid hvalid hne hle
      rw [hsplit, Option.bind_some, if_neg (fun hret => hret rfl)] at hturn
      have hassign := result_assign e [] log_file loc₁
      rw [hturn] at hassign
      exact assign_valid hvalid₁ hassign.symm

theorem start_valid : Locals.start.Valid :=
  ⟨List.mem_replicate.mpr ⟨by decide, rfl⟩, List.length_replicate⟩

/-- What happens to `revbuf` for a line with fields. -/
theorem log_turn (e : Memory_Check) (log_file : Bool) (h : loc.Valid)
    (hne : str (fgets loc.buf out) ≠ []) :
    stores (Using.turn e out log_file loc).log
        = min (fields blank (str (fgets loc.buf out))).length (recvNum + 1) ∧
      ((fields blank (str (fgets loc.buf out))).length ≤ recvNum →
        .used 0 ∈ (Using.turn e out log_file loc).log) := by
  have hvalid := fgets_valid h out
  have hstores := stores_Split hvalid hne
  unfold Using.turn
  dsimp only
  rw [if_neg hne]
  rcases Nat.lt_or_ge recvNum (fields blank (str (fgets loc.buf out))).length with hlt | hle
  · have hnone := (result_Split _).trans (Split_overflow hvalid hne hlt)
    rw [Logged.log_bind_none hnone]
    exact ⟨hstores, fun hle => absurd hle (Nat.not_le.mpr hlt)⟩
  · obtain ⟨loc', hsplit, -⟩ := Split_valid hvalid hne hle
    rw [Logged.log_bind_some ((result_Split _).trans hsplit), if_neg (fun hret => hret rfl),
      stores_append, (onlyUses_assign e log_file loc').stores, hstores]
    exact ⟨rfl, fun _ => List.mem_append_right _ (used_assign e log_file loc')⟩

/-- The lines that `revbuf` is right for. -/
theorem within_of_valid (e : Memory_Check) (out : Bytes) (log_file : Bool) (h : loc.Valid) :
    Within (Using.turn e out log_file loc).log ↔
      str (fgets loc.buf out) = [] ∨ 3 ≤ (fields blank (str (fgets loc.buf out))).length ∧
        (fields blank (str (fgets loc.buf out))).length ≤ recvNum := by
  by_cases hne : str (fgets loc.buf out) = []
  · refine iff_of_true ?_ (Or.inl hne)
    unfold Using.turn
    dsimp only
    rw [if_pos hne]
    exact ⟨Nat.zero_le _, fun i hi => absurd hi List.not_mem_nil⟩
  · obtain ⟨hstores, hused⟩ := log_turn e log_file h hne
    rw [or_iff_right hne]
    constructor
    · intro hw
      have hle := hw.stored
      rw [hstores] at hle
      have hfit : (fields blank (str (fgets loc.buf out))).length ≤ recvNum := by omega
      have hthree := hw.used 0 (hused hfit)
      rw [hstores] at hthree
      exact ⟨by omega, hfit⟩
    · rintro ⟨hthree, hfit⟩
      have hall : stores (Using.turn e out log_file loc).log
          = (fields blank (str (fgets loc.buf out))).length := by
        rw [hstores]
        omega
      refine ⟨?_, fun i hi => ?_⟩
      · rw [hall]
        exact hfit
      · rw [hall]
        exact hthree

end

/-- The locals as an entry of a scan finds them. -/
inductive Locals.Reached : Locals → Prop
  | start : Reached .start
  | next {loc loc' : Locals} {e after : Memory_Check} {out : Bytes} {log_file : Bool}
      {action : Option Action} (h : Reached loc)
      (hturn : (Using.turn e out log_file loc).result = some (action, after, 0, loc')) :
      Reached loc'

theorem Locals.Reached.valid {loc : Locals} (h : loc.Reached) : loc.Valid := by
  induction h with
  | start => exact start_valid
  | next _ hturn ih => exact turn_valid ih hturn

/-- **`revbuf` in a scan.**  Whatever an entry finds in `buf`, no more pointers are stored than
there is room for, and they are used only where there are three, exactly when it is nothing or
has three fields or more and no more than `RECV_NUM`. -/
theorem within_iff (e : Memory_Check) (out : Bytes) (log_file : Bool) (loc : Locals)
    (h : loc.Reached) : Within (Using.turn e out log_file loc).log ↔
      str (fgets loc.buf out) = [] ∨ 3 ≤ (fields blank (str (fgets loc.buf out))).length ∧
        (fields blank (str (fgets loc.buf out))).length ≤ recvNum :=
  within_of_valid e out log_file h.valid

/-- A line that is shorter than `buf` is read as it is. -/
theorem str_fgets {text : Bytes} (h10 : 10 ∉ text) (h0 : 0 ∉ text)
    (hlen : text.length < bufSize - 1) (buf rest : Bytes) :
    str (fgets buf (text ++ 10 :: rest)) = text ++ [10] := by
  rw [fgets, if_neg (by simp), gets_line h10 hlen]
  refine str_append_zero _ _ fun hmem => ?_
  rcases List.mem_append.mp hmem with hmem | hmem
  · exact h0 hmem
  · cases List.mem_singleton.mp hmem

/-- The line of `init`, and the one it has with sixty arguments. -/
def init_line : Bytes := asc "    1 root      1588 S    init"

def init_arguments : Bytes := init_line ++ (List.replicate 60 (asc " a")).flatten

theorem within_iff_init :
    Within (Using.turn ⟨asc "init", -1, 0, -1⟩ (init_line ++ [10]) true .start).log := by
  refine (within_iff ⟨asc "init", -1, 0, -1⟩ (init_line ++ [10]) true .start .start).mpr (Or.inr ?_)
  rw [str_fgets (by decide +kernel) (by decide +kernel) (by decide +kernel)]
  decide +kernel

/-- The sixty-fifth pointer is stored behind `revbuf`. -/
theorem init_arguments_overflow :
    ¬ ∀ (e : Memory_Check) (out : Bytes) (log_file : Bool) (loc : Locals), loc.Reached → out ≠ [] →
      Within (Using.turn e out log_file loc).log := by
  intro hall
  have hwithin := hall ⟨asc "init", -1, 0, -1⟩ (init_arguments ++ [10]) true .start .start (by simp)
  have hfields := (within_of_valid _ _ _ start_valid).mp hwithin
  rw [str_fgets (by decide +kernel) (by decide +kernel) (by decide +kernel)] at hfields
  exact absurd hfields (by decide +kernel)

end Boxing.Memory
