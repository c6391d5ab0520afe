import Boxing.C.Num
import Boxing.Event.MinHeap

/-!
# Timeouts

What `event.c` does with the heap of timeouts: an event is given a timeout, loses it, is activated
when its time has come, and every time is moved when the clock has been set back.  The events here
wait for nothing else: no descriptors and no signals, and timeouts that are neither common ones nor
absolute.

What this is for needs no heap: each event may have a deadline (`Deadlines`).  `Step` says what a
call does to the deadlines, and which events `timeout_process` activates.  The sums and differences
of times wrap, and carry once, so this is right only where the times are normal and the deadlines
stay in the range of a `long` (`AllFit`).  There every run of calls is a run of such steps
(`timers_of_run`), and at its end the library's own assertions hold (`assert_ok_of_run`).
-/

namespace Boxing.Event

open C.BinaryHeap

set_option linter.style.nameCheck false

/-- `evutil_timeradd(t, u, v)`. -/
def evutil_timeradd (t u : Timeval) : Timeval :=
  let tv_sec := t.tv_sec + u.tv_sec
  let tv_usec := t.tv_usec + u.tv_usec
  if tv_usec ≥ 1000000 then ⟨tv_sec + 1, tv_usec - 1000000⟩ else ⟨tv_sec, tv_usec⟩

/-- `evutil_timersub(t, u, v)`. -/
def evutil_timersub (t u : Timeval) : Timeval :=
  let tv_sec := t.tv_sec - u.tv_sec
  let tv_usec := t.tv_usec - u.tv_usec
  if tv_usec < 0 then ⟨tv_sec - 1, tv_usec + 1000000⟩ else ⟨tv_sec, tv_usec⟩

/-- `evutil_timerclear(t)`. -/
def evutil_timerclear : Timeval := ⟨0, 0⟩

/-! ### Microseconds -/

/-- The time in microseconds. -/
def Timeval.micros (t : Timeval) : Int := t.tv_sec.toInt * 1000000 + t.tv_usec.toInt

/-- The microseconds are less than a second. -/
structure Timeval.Normal (t : Timeval) : Prop where
  nonneg : 0 ≤ t.tv_usec.toInt
  lt : t.tv_usec.toInt < 1000000

instance (t : Timeval) : Decidable t.Normal :=
  decidable_of_iff (0 ≤ t.tv_usec.toInt ∧ t.tv_usec.toInt < 1000000)
    ⟨fun h => ⟨h.1, h.2⟩, fun h => ⟨h.1, h.2⟩⟩

/-- The seconds of a time fit into a `long`. -/
def InLong (m : Int) : Prop := -2147483648000000 ≤ m ∧ m < 2147483648000000

instance (m : Int) : Decidable (InLong m) := inferInstanceAs (Decidable (_ ∧ _))

theorem toInt_bmod {x : Int} (h : -2147483648 ≤ x) (h' : x < 2147483648) :
    x.bmod (2 ^ 32) = x := C.int32_of_lt h h'

theorem lex_lt_iff {t u : Timeval} (ht : t.Normal) (hu : u.Normal) :
    t.lex < u.lex ↔ t.micros < u.micros := by
  have ht' := ht.lt
  have hu' := hu.lt
  have ht0 := ht.nonneg
  have hu0 := hu.nonneg
  rw [Timeval.lex, Timeval.lex, Prod.Lex.toLex_lt_toLex, Timeval.micros, Timeval.micros]
  dsimp only
  omega

theorem lex_le_iff {t u : Timeval} (ht : t.Normal) (hu : u.Normal) :
    t.lex ≤ u.lex ↔ t.micros ≤ u.micros := by
  rw [← not_lt, lex_lt_iff hu ht, not_lt]

/-- **Adding** normal times. -/
theorem timeradd_spec {t u : Timeval} (ht : t.Normal) (hu : u.Normal)
    (h : InLong (t.micros + u.micros)) :
    (evutil_timeradd t u).Normal ∧ (evutil_timeradd t u).micros = t.micros + u.micros := by
  have ht' := ht.lt
  have hu' := hu.lt
  have ht0 := ht.nonneg
  have hu0 := hu.nonneg
  obtain ⟨hlo, hhi⟩ := h
  simp only [Timeval.micros] at hlo hhi ⊢
  have husec : (t.tv_usec + u.tv_usec).toInt = t.tv_usec.toInt + u.tv_usec.toInt := by
    rw [Int32.toInt_add, toInt_bmod (by omega) (by omega)]
  have hmillion : (1000000 : Int32).toInt = 1000000 := by decide
  have hone : (1 : Int32).toInt = 1 := by decide
  rw [evutil_timeradd]
  split
  · rename_i hcarry
    rw [ge_iff_le, Int32.le_iff_toInt_le, husec, hmillion] at hcarry
    have hsec : (t.tv_sec + u.tv_sec + 1).toInt = t.tv_sec.toInt + u.tv_sec.toInt + 1 := by
      rw [Int32.toInt_add, Int32.toInt_add, hone, Int.bmod_add_bmod,
        toInt_bmod (by omega) (by omega)]
    have hrest : (t.tv_usec + u.tv_usec - 1000000).toInt =
        t.tv_usec.toInt + u.tv_usec.toInt - 1000000 := by
      rw [Int32.toInt_sub, husec, hmillion, toInt_bmod (by omega) (by omega)]
    refine ⟨⟨?_, ?_⟩, ?_⟩ <;> dsimp only <;> omega
  · rename_i hcarry
    rw [ge_iff_le, Int32.le_iff_toInt_le, husec, hmillion] at hcarry
    have hsec : (t.tv_sec + u.tv_sec).toInt = t.tv_sec.toInt + u.tv_sec.toInt := by
      rw [Int32.toInt_add, toInt_bmod (by omega) (by omega)]
    refine ⟨⟨?_, ?_⟩, ?_⟩ <;> dsimp only <;> omega

/-- **Subtracting** them. -/
theorem timersub_spec {t u : Timeval} (ht : t.Normal) (hu : u.Normal)
    (h : InLong (t.micros - u.micros)) :
    (evutil_timersub t u).Normal ∧ (evutil_timersub t u).micros = t.micros - u.micros := by
  have ht' := ht.lt
  have hu' := hu.lt
  have ht0 := ht.nonneg
  have hu0 := hu.nonneg
  obtain ⟨hlo, hhi⟩ := h
  simp only [Timeval.micros] at hlo hhi ⊢
  have husec : (t.tv_usec - u.tv_usec).toInt = t.tv_usec.toInt - u.tv_usec.toInt := by
    rw [Int32.toInt_sub, toInt_bmod (by omega) (by omega)]
  have hmillion : (1000000 : Int32).toInt = 1000000 := by decide
  have hone : (1 : Int32).toInt = 1 := by decide
  have hzero : (0 : Int32).toInt = 0 := by decide
  rw [evutil_timersub]
  split
  · rename_i hborrow
    rw [Int32.lt_iff_toInt_lt, husec, hzero] at hborrow
    have hsec : (t.tv_sec - u.tv_sec - 1).toInt = t.tv_sec.toInt - u.tv_sec.toInt - 1 := by
      rw [Int32.toInt_sub, Int32.toInt_sub, hone, Int.bmod_sub_bmod,
        toInt_bmod (by omega) (by omega)]
    have hrest : (t.tv_usec - u.tv_usec + 1000000).toInt =
        t.tv_usec.toInt - u.tv_usec.toInt + 1000000 := by
      rw [Int32.toInt_add, husec, hmillion, toInt_bmod (by omega) (by omega)]
    refine ⟨⟨?_, ?_⟩, ?_⟩ <;> dsimp only <;> omega
  · rename_i hborrow
    rw [Int32.lt_iff_toInt_lt, husec, hzero] at hborrow
    have hsec : (t.tv_sec - u.tv_sec).toInt = t.tv_sec.toInt - u.tv_sec.toInt := by
      rw [Int32.toInt_sub, toInt_bmod (by omega) (by omega)]
    refine ⟨⟨?_, ?_⟩, ?_⟩ <;> dsimp only <;> omega

/-! ### The base -/

/-- What an event base knows of timeouts, and the fields of the events. -/
structure Base (α : Type) where
  timeheap : MinHeap α
  ev_timeout : α → Timeval
  EVLIST_TIMEOUT : α → Bool
  event_tv : Timeval

variable {α : Type} [DecidableEq α]

/-- `event_queue_remove(base, ev, EVLIST_TIMEOUT)`; none if the program is ended. -/
def event_queue_remove (ev : α) (base : Base α) : Option (Base α) :=
  if base.EVLIST_TIMEOUT ev then
    some { base with
      EVLIST_TIMEOUT := Function.update base.EVLIST_TIMEOUT ev false
      timeheap := (min_heap_erase base.ev_timeout ev base.timeheap).getD base.timeheap }
  else none

/-- `event_queue_insert(base, ev, EVLIST_TIMEOUT)`, which does not look at what the push returns. -/
def event_queue_insert (realloc : Bool) (ev : α) (base : Base α) : Option (Base α) :=
  if base.EVLIST_TIMEOUT ev then none
  else
    some { base with
      EVLIST_TIMEOUT := Function.update base.EVLIST_TIMEOUT ev true
      timeheap := (min_heap_push base.ev_timeout realloc ev base.timeheap).getD base.timeheap }

/-- `event_add_internal(ev, tv, 0)`: room first, then the old timeout goes, then the new one. -/
def event_add_internal (ev : α) (tv now : Timeval) (realloc realloc' : Bool) (base : Base α) :
    Option (Int × Base α) :=
  let reserved :=
    if base.EVLIST_TIMEOUT ev then some base
    else (min_heap_reserve realloc (1 + base.timeheap.n) base.timeheap).map fun heap =>
      { base with timeheap := heap }
  reserved.elim (some (-1, base)) fun base =>
    (if base.EVLIST_TIMEOUT ev then event_queue_remove ev base else some base).bind fun base =>
      (event_queue_insert realloc' ev { base with
        ev_timeout := Function.update base.ev_timeout ev (evutil_timeradd now tv) }).map (0, ·)

/-- `event_del_internal(ev)`. -/
def event_del_internal (ev : α) (base : Base α) : Option (Base α) :=
  if base.EVLIST_TIMEOUT ev then event_queue_remove ev base else some base

/-- The loop of `timeout_process(base)`, with the events it activates. -/
def timeout_process_loop (now : Timeval) : Nat → Base α → Option (List α × Base α)
  | 0, _ => none
  | k + 1, base =>
    (min_heap_top base.timeheap).elim (some ([], base)) fun ev =>
      if evutil_timercmp (base.ev_timeout ev) now (· > ·) then some ([], base)
      else (event_del_internal ev base).bind fun base =>
        (timeout_process_loop now k base).map fun r => (ev :: r.1, r.2)

/-- `timeout_process(base)`. -/
def timeout_process (now : Timeval) (base : Base α) : Option (List α × Base α) :=
  if base.timeheap.n = 0 then some ([], base)
  else timeout_process_loop now (base.timeheap.n + 1) base

/-- `timeout_next(base, &tv)`; none to wait for input only. -/
def timeout_next (now : Timeval) (base : Base α) : Option Timeval :=
  (min_heap_top base.timeheap).map fun ev =>
    if evutil_timercmp (base.ev_timeout ev) now (· ≤ ·) then evutil_timerclear
    else evutil_timersub (base.ev_timeout ev) now

/-- The loop of `timeout_correct` over the heap. -/
def correct_loop (off : Timeval) (p : Nat → α) : Nat → (α → Timeval) → α → Timeval
  | 0, ev_timeout => ev_timeout
  | n + 1, ev_timeout =>
    let ev_timeout := correct_loop off p n ev_timeout
    Function.update ev_timeout (p n) (evutil_timersub (ev_timeout (p n)) off)

/-- `timeout_correct(base, tv)`. -/
def timeout_correct (tv : Timeval) (base : Base α) : Base α :=
  if evutil_timercmp tv base.event_tv (· ≥ ·) then { base with event_tv := tv }
  else
    let off := evutil_timersub base.event_tv tv
    { base with
      ev_timeout := correct_loop off base.timeheap.p base.timeheap.n base.ev_timeout
      event_tv := tv }

/-- `event_base_assert_ok(base)`: the heap property. -/
def event_base_assert_ok (base : Base α) : Bool :=
  let p := base.timeheap.p
  (List.range base.timeheap.n).all fun i => i = 0 ∨
    base.EVLIST_TIMEOUT (p i) ∧
      evutil_timercmp (base.ev_timeout (p ((i - 1) / 2))) (base.ev_timeout (p i)) (· ≤ ·) ∧
      base.timeheap.min_heap_idx (p i) = i

/-- A new base. -/
def event_base_new (junk : Nat → α) (ev_timeout : α → Timeval) (event_tv : Timeval) : Base α :=
  ⟨min_heap_ctor junk, ev_timeout, fun _ => false, event_tv⟩

/-! ### Calls -/

/-- A call, with the clock and what `realloc` does. -/
inductive Call (α : Type)
  | event_add (ev : α) (tv now : Timeval) (realloc realloc' : Bool)
  | event_del (ev : α)
  | timeout_process (now : Timeval)
  | timeout_correct (tv : Timeval)

/-- What a call returns, and the events it activates. -/
structure Answer (α : Type) where
  ret : Int
  active : List α

/-- What it does. -/
def Call.exec : Call α → Base α → Option (Answer α × Base α)
  | .event_add ev tv now realloc realloc', base =>
    (event_add_internal ev tv now realloc realloc' base).map fun r => (⟨r.1, []⟩, r.2)
  | .event_del ev, base => (event_del_internal ev base).map fun base => (⟨0, []⟩, base)
  | .timeout_process now, base =>
    (Event.timeout_process now base).map fun r => (⟨0, r.1⟩, r.2)
  | .timeout_correct tv, base => some (⟨0, []⟩, Event.timeout_correct tv base)

/-- A run. -/
def exec_all : List (Call α) → Base α → Option (List (Answer α) × Base α)
  | [], base => some ([], base)
  | c :: cs, base => (c.exec base).bind fun r =>
    (exec_all cs r.2).map fun rs => (r.1 :: rs.1, rs.2)

/-- When events are due, and the last time that was seen; in microseconds. -/
structure Deadlines (α : Type) where
  due : α → Option Int
  seen : Int

/-- What a call is for. -/
inductive Step : Call α → Answer α → Deadlines α → Deadlines α → Prop
  | add (ev : α) (tv now : Timeval) (r r' : Bool) (d : Deadlines α) :
      Step (.event_add ev tv now r r') ⟨0, []⟩ d
        { d with due := Function.update d.due ev (some (now.micros + tv.micros)) }
  | add_fails (ev : α) (tv now : Timeval) (r' : Bool) (d : Deadlines α) (h : d.due ev = none) :
      Step (.event_add ev tv now false r') ⟨-1, []⟩ d d
  | del (ev : α) (d : Deadlines α) :
      Step (.event_del ev) ⟨0, []⟩ d { d with due := Function.update d.due ev none }
  | process (now : Timeval) (d : Deadlines α) (l : List α) (hl : l.Nodup)
      (hmem : ∀ x, x ∈ l ↔ ∃ t, d.due x = some t ∧ t ≤ now.micros)
      (hsorted : l.Pairwise fun x y => (d.due x).getD 0 ≤ (d.due y).getD 0) :
      Step (.timeout_process now) ⟨0, l⟩ d
        { d with due := fun x => (d.due x).filter fun t => now.micros < t }
  | correct (tv : Timeval) (d : Deadlines α) (h : d.seen ≤ tv.micros) :
      Step (.timeout_correct tv) ⟨0, []⟩ d { d with seen := tv.micros }
  | correct_back (tv : Timeval) (d : Deadlines α) (h : tv.micros < d.seen) :
      Step (.timeout_correct tv) ⟨0, []⟩ d
        ⟨fun x => (d.due x).map (· - (d.seen - tv.micros)), tv.micros⟩

/-- The times of a call are normal, and no time it comes to leaves the range of a `long`. -/
def Call.Fits : Call α → Deadlines α → Prop
  | .event_add _ tv now _ _, _ => tv.Normal ∧ now.Normal ∧ InLong (now.micros + tv.micros)
  | .event_del _, _ => True
  | .timeout_process now, _ => now.Normal
  | .timeout_correct tv, d => tv.Normal ∧ (tv.micros < d.seen →
      InLong (d.seen - tv.micros) ∧ ∀ x t, d.due x = some t → InLong (t - (d.seen - tv.micros)))

/-- It is so for every call of a run. -/
def AllFit : List (Call α) → Deadlines α → Prop
  | [], _ => True
  | c :: cs, d => c.Fits d ∧ ∀ a d', Step c a d d' → AllFit cs d'

/-- A run of steps. -/
inductive Steps : List (Call α) → List (Answer α) → Deadlines α → Deadlines α → Prop
  | nil (d : Deadlines α) : Steps [] [] d d
  | cons {c : Call α} {a : Answer α} {cs : List (Call α)} {as : List (Answer α)}
      {d d₁ d' : Deadlines α} (h : Step c a d d₁) (hs : Steps cs as d₁ d') :
      Steps (c :: cs) (a :: as) d d'

/-- The base knows the deadlines. -/
structure Agree (base : Base α) (d : Deadlines α) : Prop where
  sound : Sound base.ev_timeout base.timeheap fun x => (d.due x).isSome
  flag : ∀ x, base.EVLIST_TIMEOUT x = (d.due x).isSome
  time : ∀ x t, d.due x = some t → (base.ev_timeout x).Normal ∧ (base.ev_timeout x).micros = t
  seen : base.event_tv.Normal ∧ base.event_tv.micros = d.seen

/-! ### Every call is a step -/

variable {base base' : Base α} {d d' : Deadlines α} {ev x : α} {now tv : Timeval}
  {s : MinHeap α} {S S' : α → Prop} {f g : α → Timeval}

omit [DecidableEq α] in
/-- Only the order of the times in the heap matters. -/
theorem Sound.rekey (hs : Sound f s S)
    (h : ∀ x y, S x → S y → key f x ≤ key f y → key g x ≤ key g y) : Sound g s S := by
  refine ⟨⟨fun i h0 hi => ?_, hs.place, hs.inside, hs.room⟩, hs.outside⟩
  exact h _ _ (hs.place _ (Nat.lt_trans (parent_lt h0) hi)).1 (hs.place i hi).1
    (hs.ordered i h0 hi)

omit [DecidableEq α] in
theorem Sound.congr (hs : Sound f s S) (h : ∀ x, S x ↔ S' x) : Sound f s S' := by
  have heq : S = S' := funext fun x => propext (h x)
  exact heq ▸ hs

/-- An event loses its deadline. -/
theorem Agree.remove (h : Agree base d) (hev : (d.due ev).isSome) :
    ∃ base', event_queue_remove ev base = some base' ∧
      base'.timeheap.n + 1 = base.timeheap.n ∧ base'.timeheap.a = base.timeheap.a ∧
      base'.ev_timeout = base.ev_timeout ∧
      Agree base' { d with due := Function.update d.due ev none } := by
  obtain ⟨heap, herase, hn, ha, hsound⟩ := min_heap_erase_spec h.sound hev
  refine ⟨_, if_pos ((h.flag ev).trans hev), ?_⟩
  rw [herase, Option.getD_some]
  refine ⟨hn, ha, rfl, hsound.congr fun x => ?_, fun x => ?_, fun x t hx => ?_, h.seen⟩
  · by_cases hx : x = ev
    · subst hx
      simp
    · simp [hx]
  · by_cases hx : x = ev
    · subst hx
      simp
    · simp [hx, h.flag]
  · by_cases hxe : x = ev
    · subst hxe
      simp at hx
    · exact h.time x t (by simpa [hxe] using hx)

/-- An event that has none is given one. -/
theorem Agree.insert (realloc : Bool) (h : Agree base d) (hev : d.due ev = none)
    (hroom : base.timeheap.n + 1 ≤ base.timeheap.a) {t : Timeval} (ht : t.Normal) :
    ∃ base', event_queue_insert realloc ev
        { base with ev_timeout := Function.update base.ev_timeout ev t } = some base' ∧
      Agree base' { d with due := Function.update d.due ev (some t.micros) } := by
  have hne : ∀ x, (d.due x).isSome → x ≠ ev := fun x hx hxe => by simp [hxe, hev] at hx
  have hs : Sound (Function.update base.ev_timeout ev t) base.timeheap
      fun x => (d.due x).isSome := by
    refine h.sound.rekey fun x y hx hy hle => ?_
    simpa [key, hne x hx, hne y hy] using hle
  have hout : ¬ (d.due ev).isSome := by simp [hev]
  obtain ⟨heap, hpush, hsound⟩ := @min_heap_push_spec _ _ _ _ _ _ realloc hs hout hroom
  refine ⟨_, if_neg (by simp [h.flag, hev]), ?_⟩
  dsimp only
  rw [hpush, Option.getD_some]
  refine ⟨hsound.congr fun x => ?_, fun x => ?_, fun x t' hx => ?_, h.seen⟩
  · by_cases hx : x = ev
    · subst hx
      simp
    · simp [hx]
  · by_cases hx : x = ev
    · subst hx
      simp
    · simp [hx, h.flag]
  · by_cases hxe : x = ev
    · subst hxe
      dsimp only at hx ⊢
      rw [Function.update_self] at hx ⊢
      exact ⟨ht, Option.some.inj hx⟩
    · dsimp only at hx ⊢
      rw [Function.update_of_ne hxe] at hx ⊢
      exact h.time x t' hx

omit [DecidableEq α] in
theorem Agree.reserve {realloc : Bool} {n : Nat} (h : Agree base d)
    (hr : min_heap_reserve realloc n base.timeheap = some s) :
    Agree { base with timeheap := s } d ∧ s.n = base.timeheap.n ∧ n ≤ s.a := by
  obtain ⟨hsound, hn, ha⟩ := min_heap_reserve_spec h.sound hr
  exact ⟨⟨hsound, h.flag, h.time, h.seen⟩, hn, ha⟩

/-- **Adding a timeout**: without room nothing changes, and a new timeout replaces the old one. -/
theorem event_add_step (h : Agree base d) (tv now : Timeval) (r r' : Bool)
    (hfit : (Call.event_add ev tv now r r').Fits d) :
    ∃ a base' d', (Call.event_add ev tv now r r').exec base = some (a, base') ∧
      Step (.event_add ev tv now r r') a d d' ∧ Agree base' d' := by
  obtain ⟨htv, hnow, hlong⟩ := hfit
  obtain ⟨hnormal, hmicros⟩ := timeradd_spec hnow htv hlong
  cases hev : d.due ev with
  | none =>
    have hflag : base.EVLIST_TIMEOUT ev = false := by rw [h.flag, hev]; rfl
    cases hr : min_heap_reserve r (1 + base.timeheap.n) base.timeheap with
    | none =>
      have hfail : r = false := by
        rw [min_heap_reserve] at hr
        split at hr
        · simpa using hr
        · cases hr
      subst hfail
      refine ⟨⟨-1, []⟩, base, d, ?_, .add_fails ev tv now r' d hev, h⟩
      rw [Call.exec, event_add_internal, hflag, hr]
      rfl
    | some s =>
      obtain ⟨hs, hn, ha⟩ := h.reserve hr
      obtain ⟨base', hinsert, h'⟩ := hs.insert r' hev (by dsimp only; omega) hnormal
      refine ⟨⟨0, []⟩, base', _, ?_, .add ev tv now r r' d, hmicros ▸ h'⟩
      rw [Call.exec, event_add_internal, hflag, hr]
      simp only [Bool.false_eq_true, if_false, Option.map_some, Option.elim_some, hflag,
        Option.bind_some, hinsert]
  | some t =>
    have hflag : base.EVLIST_TIMEOUT ev = true := by rw [h.flag, hev]; rfl
    obtain ⟨base₁, hremove, hn, ha, htime, h₁⟩ := @Agree.remove _ _ _ _ ev h (by rw [hev]; rfl)
    have hroom := h.sound.room
    obtain ⟨base', hinsert, h'⟩ := h₁.insert r' (Function.update_self ev none d.due) (by omega)
      hnormal
    have heq : (Deadlines.mk (Function.update (Function.update d.due ev none) ev
        (some (evutil_timeradd now tv).micros)) d.seen) =
        ⟨Function.update d.due ev (some (now.micros + tv.micros)), d.seen⟩ := by
      rw [Function.update_idem, hmicros]
    refine ⟨⟨0, []⟩, base', _, ?_, .add ev tv now r r' d, heq ▸ h'⟩
    rw [Call.exec, event_add_internal, hflag]
    simp only [if_true, Option.elim_some, hflag, hremove, Option.bind_some, hinsert,
      Option.map_some]

/-- **Deleting**: an event without a timeout is left as it is. -/
theorem Agree.del (h : Agree base d) (ev : α) :
    ∃ base', event_del_internal ev base = some base' ∧
      (d.due ev ≠ none → base'.timeheap.n < base.timeheap.n) ∧
      Agree base' { d with due := Function.update d.due ev none } := by
  rw [event_del_internal, h.flag]
  cases hev : d.due ev with
  | none =>
    refine ⟨base, rfl, fun hne => absurd rfl hne, ?_⟩
    rwa [← hev, Function.update_eq_self]
  | some t =>
    obtain ⟨base', hremove, hn, -, -, h'⟩ := @Agree.remove _ _ _ _ ev h (by rw [hev]; rfl)
    exact ⟨base', hremove, fun _ => by omega, h'⟩

omit [DecidableEq α] in
/-- The first event is the one that is due first. -/
theorem Agree.top (h : Agree base d) :
    (min_heap_top base.timeheap = none ∧ ∀ x, d.due x = none) ∨
      ∃ ev t, min_heap_top base.timeheap = some ev ∧ d.due ev = some t ∧
        (base.ev_timeout ev).Normal ∧ (base.ev_timeout ev).micros = t ∧
          ∀ x u, d.due x = some u → t ≤ u := by
  rcases min_heap_top_eq h.sound with ⟨htop, hnone⟩ | ⟨ev, htop, hev, hmin⟩
  · exact Or.inl ⟨htop, fun x => Option.not_isSome_iff_eq_none.mp (hnone x)⟩
  · obtain ⟨t, ht⟩ := Option.isSome_iff_exists.mp hev
    obtain ⟨hnormal, htime⟩ := h.time ev t ht
    refine Or.inr ⟨ev, t, htop, ht, hnormal, htime, fun x u hx => ?_⟩
    obtain ⟨hnormal', htime'⟩ := h.time x u hx
    have hle := (lex_le_iff hnormal hnormal').mp (hmin x (by rw [hx]; rfl))
    rwa [htime, htime'] at hle

/-- What is left when all that is due is gone. -/
def Deadlines.after (d : Deadlines α) (now : Timeval) : Deadlines α :=
  { d with due := fun x => (d.due x).filter fun t => now.micros < t }

omit [DecidableEq α] in
theorem Deadlines.after_eq (h : ∀ x t, d.due x = some t → now.micros < t) :
    d.after now = d := by
  have hdue : (d.after now).due = d.due := funext fun x => by
    show (d.due x).filter _ = d.due x
    cases hx : d.due x with
    | none => rfl
    | some t => simp [h x t hx]
  cases d
  exact congrArg (Deadlines.mk · _) hdue

/-- The loop takes the events out in the order in which they are due. -/
theorem process_loop (hnow : now.Normal) {k : Nat} (h : Agree base d) (hk : base.timeheap.n < k) :
    ∃ l base', timeout_process_loop now k base = some (l, base') ∧ l.Nodup ∧
      (∀ x, x ∈ l ↔ ∃ t, d.due x = some t ∧ t ≤ now.micros) ∧
      (l.Pairwise fun x y => (d.due x).getD 0 ≤ (d.due y).getD 0) ∧
      Agree base' (d.after now) := by
  induction k generalizing base d with
  | zero => exact absurd hk (Nat.not_lt_zero _)
  | succ k ih =>
    rw [timeout_process_loop]
    rcases h.top with ⟨htop, hnone⟩ | ⟨ev, t, htop, hev, hnormal, htime, hmin⟩
    · rw [htop]
      refine ⟨[], base, rfl, List.nodup_nil, fun x => ?_, List.Pairwise.nil, ?_⟩
      · simp [hnone x]
      · rwa [Deadlines.after_eq fun x t hx => by simp [hnone x] at hx]
    · rw [htop, Option.elim_some]
      split
      · rename_i hlate
        rw [timercmp_gt_iff, lex_lt_iff hnow hnormal, htime] at hlate
        have hall : ∀ x u, d.due x = some u → now.micros < u := fun x u hx => by
          have hle := hmin x u hx
          omega
        refine ⟨[], base, rfl, List.nodup_nil, fun x => ?_, List.Pairwise.nil, ?_⟩
        · refine ⟨fun hx => absurd hx List.not_mem_nil, fun ⟨u, hu, hle⟩ => ?_⟩
          have hlt := hall x u hu
          omega
        · rwa [Deadlines.after_eq hall]
      · rename_i hlate
        rw [timercmp_gt_iff, lex_lt_iff hnow hnormal, htime] at hlate
        obtain ⟨base₁, hdel, hn, h₁⟩ := h.del ev
        have hlt := hn (by simp [hev])
        obtain ⟨l, base', hloop, hnodup, hmem, hsorted, h'⟩ := ih h₁ (by omega)
        have hother : ∀ x ∈ l, x ≠ ev ∧ d.due x ≠ none := fun x hx => by
          obtain ⟨u, hu, -⟩ := (hmem x).mp hx
          by_cases hxe : x = ev
          · simp [hxe] at hu
          · simp only [Function.update_of_ne hxe] at hu
            simp [hxe, hu]
        refine ⟨ev :: l, base', by rw [hdel, Option.bind_some, hloop]; rfl,
          List.nodup_cons.mpr ⟨fun hev => (hother ev hev).1 rfl, hnodup⟩, fun x => ?_,
          List.pairwise_cons.mpr ⟨fun x hx => ?_, ?_⟩, ?_⟩
        · rw [List.mem_cons, hmem]
          by_cases hxe : x = ev
          · subst hxe
            simp [hev, Int.not_lt.mp hlate]
          · simp [hxe]
        · obtain ⟨u, hu⟩ := Option.ne_none_iff_exists'.mp (hother x hx).2
          rw [hev, hu]
          exact hmin x u hu
        · refine hsorted.imp_of_mem fun {x y} hx hy hle => ?_
          simpa [(hother x hx).1, (hother y hy).1] using hle
        · have heq : (Deadlines.after { d with due := Function.update d.due ev none } now) =
              d.after now := by
            refine congrArg (Deadlines.mk · d.seen) (funext fun x => ?_)
            by_cases hxe : x = ev
            · subst hxe
              simp [hev, Option.filter, hlate]
            · simp [hxe]
          rwa [heq] at h'

/-- **Processing timeouts.** -/
theorem timeout_process_step (h : Agree base d) (hnow : now.Normal) :
    ∃ a base' d', (Call.timeout_process now).exec base = some (a, base') ∧
      Step (.timeout_process now) a d d' ∧ Agree base' d' := by
  obtain ⟨l, base', hloop, hnodup, hmem, hsorted, h'⟩ := process_loop hnow h
    (Nat.lt_succ_self _)
  refine ⟨⟨0, l⟩, base', d.after now, ?_, .process now d l hnodup hmem hsorted, h'⟩
  have hprocess : timeout_process now base = some (l, base') := by
    rw [timeout_process]
    split
    · rename_i hn
      rw [timeout_process_loop, min_heap_top, if_pos hn] at hloop
      exact hloop
    · exact hloop
  rw [Call.exec, hprocess]
  rfl

theorem correct_loop_eq {off : Timeval} {p : Nat → α} {n : Nat}
    (hp : ∀ i < n, ∀ j < n, p i = p j → i = j) :
    (∀ i < n, correct_loop off p n f (p i) = evutil_timersub (f (p i)) off) ∧
      ∀ x, (∀ i < n, p i ≠ x) → correct_loop off p n f x = f x := by
  induction n with
  | zero => exact ⟨fun i hi => absurd hi (Nat.not_lt_zero i), fun x _ => rfl⟩
  | succ n ih =>
    obtain ⟨ihin, ihout⟩ := ih fun i hi j hj => hp i (by omega) j (by omega)
    have hn : correct_loop off p n f (p n) = f (p n) := ihout _ fun i hi heq =>
      absurd (hp i (by omega) n (by omega) heq) (Nat.ne_of_lt hi)
    refine ⟨fun i hi => ?_, fun x hx => ?_⟩
    · rw [correct_loop]
      by_cases hin : i = n
      · rw [hin, Function.update_self, hn]
      · have hne : p i ≠ p n := fun heq => hin (hp i hi n (by omega) heq)
        rw [Function.update_of_ne hne]
        exact ihin i (by omega)
    · rw [correct_loop, Function.update_of_ne (hx n (by omega)).symm]
      exact ihout x fun i hi => hx i (by omega)

/-- **Setting the clock back** moves every deadline by as much, and the heap is still one. -/
theorem timeout_correct_step (h : Agree base d) (hfit : (Call.timeout_correct tv).Fits d) :
    ∃ a base' d', (Call.timeout_correct tv).exec base = some (a, base') ∧
      Step (.timeout_correct tv) a d d' ∧ Agree base' d' := by
  obtain ⟨htv, hlong⟩ := hfit
  obtain ⟨hnormal, hseen⟩ := h.seen
  have hge := @timercmp_ge_iff tv base.event_tv
  rw [lex_le_iff hnormal htv, hseen] at hge
  by_cases hback : evutil_timercmp tv base.event_tv (· ≥ ·) = true
  · refine ⟨⟨0, []⟩, _, _, rfl, .correct tv d (hge.mp hback), ?_⟩
    rw [timeout_correct, if_pos hback]
    exact ⟨h.sound, h.flag, h.time, htv, rfl⟩
  · have hlt := Int.not_le.mp (mt hge.mpr hback)
    obtain ⟨hlong, hdue⟩ := hlong hlt
    refine ⟨⟨0, []⟩, _, _, rfl, .correct_back tv d hlt, ?_⟩
    rw [timeout_correct, if_neg hback]
    rw [← hseen] at hlong
    obtain ⟨hoff, hoffset⟩ := timersub_spec hnormal htv hlong
    rw [hseen] at hoffset
    have hinj : ∀ i < base.timeheap.n, ∀ j < base.timeheap.n,
        base.timeheap.p i = base.timeheap.p j → i = j := fun i hi j hj => h.sound.inj hi hj
    have hloop : ∀ x t, d.due x = some t →
        (correct_loop (evutil_timersub base.event_tv tv) base.timeheap.p base.timeheap.n
          base.ev_timeout x).Normal ∧
        (correct_loop (evutil_timersub base.event_tv tv) base.timeheap.p base.timeheap.n
          base.ev_timeout x).micros = t - (d.seen - tv.micros) := fun x t hx => by
      obtain ⟨i, hi, rfl⟩ := h.sound.inside x (by rw [hx]; rfl)
      obtain ⟨htimes, rfl⟩ := h.time _ t hx
      rw [(correct_loop_eq hinj).1 i hi, ← hoffset]
      exact timersub_spec htimes hoff (hoffset ▸ hdue _ _ hx)
    refine ⟨(h.sound.rekey fun x y hx hy hle => ?_).congr fun x => ?_, fun x => ?_,
      fun x t hx => ?_, htv, rfl⟩
    · obtain ⟨t, ht⟩ := Option.isSome_iff_exists.mp hx
      obtain ⟨u, hu⟩ := Option.isSome_iff_exists.mp hy
      obtain ⟨hx₁, hx₂⟩ := h.time x t ht
      obtain ⟨hy₁, hy₂⟩ := h.time y u hu
      have hle' := (lex_le_iff hx₁ hy₁).mp hle
      refine (lex_le_iff (hloop x t ht).1 (hloop y u hu).1).mpr ?_
      rw [(hloop x t ht).2, (hloop y u hu).2]
      omega
    · rw [Option.isSome_map]
    · rw [Option.isSome_map]
      exact h.flag x
    · obtain ⟨u, hu, rfl⟩ := Option.map_eq_some_iff.mp hx
      exact hloop x u hu

theorem exec_step (h : Agree base d) (c : Call α) (hfit : c.Fits d) :
    ∃ a base' d', c.exec base = some (a, base') ∧ Step c a d d' ∧ Agree base' d' := by
  cases c with
  | event_add ev tv now r r' => exact event_add_step h tv now r r' hfit
  | event_del ev =>
    obtain ⟨base', hdel, -, h'⟩ := h.del ev
    exact ⟨⟨0, []⟩, base', _, by rw [Call.exec, hdel]; rfl, .del ev d, h'⟩
  | timeout_process now => exact timeout_process_step h hfit
  | timeout_correct tv => exact timeout_correct_step h hfit

/-! ### Runs -/

/-- No deadlines. -/
def Deadlines.none (seen : Int) : Deadlines α := ⟨fun _ => Option.none, seen⟩

omit [DecidableEq α] in
theorem agree_new (junk : Nat → α) (ev_timeout : α → Timeval) {event_tv : Timeval}
    (htv : event_tv.Normal) :
    Agree (event_base_new junk ev_timeout event_tv) (.none event_tv.micros) := by
  refine ⟨(min_heap_ctor_sound junk).congr fun x => ?_, fun _ => rfl, fun x t hx => ?_, htv, rfl⟩
  · simp [Deadlines.none]
  · cases hx

theorem exec_all_steps (h : Agree base d) (cs : List (Call α)) (hfit : AllFit cs d) :
    ∃ as base' d', exec_all cs base = some (as, base') ∧ Steps cs as d d' ∧ Agree base' d' := by
  induction cs generalizing base d with
  | nil => exact ⟨[], base, d, rfl, .nil d, h⟩
  | cons c cs ih =>
    obtain ⟨a, base₁, d₁, hexec, hstep, h₁⟩ := exec_step h c hfit.1
    obtain ⟨as, base', d', hall, hsteps, h'⟩ := ih h₁ (hfit.2 a d₁ hstep)
    exact ⟨a :: as, base', d', by rw [exec_all, hexec, Option.bind_some, hall]; rfl,
      .cons hstep hsteps, h'⟩

omit [DecidableEq α] in
/-- How long to wait: until the first deadline. -/
theorem Agree.next (h : Agree base d) (hnow : now.Normal) :
    (timeout_next now base = none ∧ ∀ x, d.due x = Option.none) ∨
      ∃ w x t, timeout_next now base = some w ∧ d.due x = some t ∧
        (∀ y u, d.due y = some u → t ≤ u) ∧
          (InLong (t - now.micros) → w.micros = max 0 (t - now.micros)) := by
  rw [timeout_next]
  rcases h.top with ⟨htop, hnone⟩ | ⟨ev, t, htop, hev, hnormal, htime, hmin⟩
  · exact Or.inl ⟨by rw [htop]; rfl, hnone⟩
  · refine Or.inr ⟨_, ev, t, by rw [htop]; rfl, hev, hmin, fun hlong => ?_⟩
    dsimp only
    split
    · rename_i hle
      rw [timercmp_le_iff, lex_le_iff hnormal hnow, htime] at hle
      have hzero : evutil_timerclear.micros = 0 := by decide
      omega
    · rename_i hle
      rw [timercmp_le_iff, lex_le_iff hnormal hnow, htime] at hle
      rw [← htime] at hlong
      rw [(timersub_spec hnormal hnow hlong).2, htime]
      omega

/-- **Timeouts over runs.**  No run of calls ends the program, whatever `realloc` does and however
the clock is set, while the times are normal and fit.  Every call does to the deadlines what it is
for; `timeout_process` activates exactly what is due, in the order in which it is due; and the time
to wait is that to the first deadline. -/
theorem timers_of_run (junk : Nat → α) (ev_timeout : α → Timeval) (event_tv : Timeval)
    (cs : List (Call α)) (htv : event_tv.Normal) (hfit : AllFit cs (.none event_tv.micros)) :
    ∃ as base' d', exec_all cs (event_base_new junk ev_timeout event_tv) = some (as, base') ∧
      Steps cs as (.none event_tv.micros) d' ∧
      ∀ now : Timeval, now.Normal →
        (timeout_next now base' = none ∧ ∀ x, d'.due x = Option.none) ∨
        ∃ w x t, timeout_next now base' = some w ∧ d'.due x = some t ∧
          (∀ y u, d'.due y = some u → t ≤ u) ∧
            (InLong (t - now.micros) → w.micros = max 0 (t - now.micros)) := by
  obtain ⟨as, base', d', hexec, hsteps, h'⟩ :=
    exec_all_steps (agree_new junk ev_timeout htv) cs hfit
  exact ⟨as, base', d', hexec, hsteps, fun now hnow => h'.next hnow⟩

/-- Two timeouts, and the clock goes back by ten seconds before they are processed. -/
def clock_back : List (Call Bool) :=
  [.event_add true ⟨5, 0⟩ ⟨100, 600000⟩ true true,
    .event_add false ⟨2, 500000⟩ ⟨100, 700000⟩ true true,
    .timeout_correct ⟨90, 0⟩,
    .timeout_process ⟨94, 0⟩]

theorem allFit_clock_back : AllFit clock_back (.none (Timeval.mk 100 0).micros) := by
  refine ⟨⟨by decide, by decide, by decide⟩, fun a d h => ?_⟩
  cases h
  refine ⟨⟨by decide, by decide, by decide⟩, fun a d h => ?_⟩
  cases h
  refine ⟨⟨by decide, fun _ => ⟨by decide, fun x t hx => ?_⟩⟩, fun a d h => ?_⟩
  · cases x <;> cases hx <;> decide
  · cases h <;> exact ⟨(by decide : (Timeval.mk 94 0).Normal), fun _ _ _ => trivial⟩

theorem timers_of_run_back : ∃ as base' d',
    exec_all clock_back (event_base_new (fun _ => true) (fun _ => ⟨0, 0⟩) ⟨100, 0⟩) =
      some (as, base') ∧
    Steps clock_back as (.none (Timeval.mk 100 0).micros) d' ∧
      ∀ now : Timeval, now.Normal →
        (timeout_next now base' = none ∧ ∀ x, d'.due x = Option.none) ∨
        ∃ w x t, timeout_next now base' = some w ∧ d'.due x = some t ∧
          (∀ y u, d'.due y = some u → t ≤ u) ∧
            (InLong (t - now.micros) → w.micros = max 0 (t - now.micros)) :=
  timers_of_run _ _ _ _ (by decide) allFit_clock_back

/-- **The library's own check of the heap** does not fail in such a run. -/
theorem assert_ok_of_run (junk : Nat → α) (ev_timeout : α → Timeval) (event_tv : Timeval)
    (cs : List (Call α)) (htv : event_tv.Normal) (hfit : AllFit cs (.none event_tv.micros)) :
    (exec_all cs (event_base_new junk ev_timeout event_tv)).map (fun r => event_base_assert_ok r.2) =
      some true := by
  obtain ⟨as, base', d', hexec, -, h'⟩ :=
    exec_all_steps (agree_new junk ev_timeout htv) cs hfit
  rw [hexec, Option.map_some, event_base_assert_ok]
  refine congrArg some (List.all_eq_true.mpr fun i hi => decide_eq_true ?_)
  rcases Nat.eq_zero_or_pos i with h0 | h0
  · exact Or.inl h0
  · have hn := List.mem_range.mp hi
    obtain ⟨hdue, hidx⟩ := h'.sound.place i hn
    exact Or.inr ⟨(h'.flag _).trans hdue, timercmp_le_iff.mpr (h'.sound.ordered i h0 hn), hidx⟩

theorem assert_ok_of_run_back :
    (exec_all clock_back (event_base_new (fun _ => true) (fun _ => ⟨0, 0⟩) ⟨100, 0⟩)).map
      (fun r => event_base_assert_ok r.2) = some true :=
  assert_ok_of_run _ _ _ _ (by decide) allFit_clock_back

end Boxing.Event
