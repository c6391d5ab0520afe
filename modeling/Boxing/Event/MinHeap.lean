import Boxing.C.BinaryHeap
import Mathlib.Data.Int.Order.Basic
import Mathlib.Data.Prod.Lex

/-!
# The heap of timeouts

`minheap-internal.h` keeps the events that wait for a timeout in a binary heap, and each event knows
its place in it, so that it can be taken out from the middle.  `Sound` is what holds between two
calls: the heap is ordered by the timeouts, every event in it is where it believes to be, and every
other event has the index -1.  Timeouts are compared by their seconds first, which is an order
whatever the fields hold.

Both loops carry an event to its place through a hole (`Loose`), and end in a heap that is sound but
for the events that are not in it (`Sifted`).
-/

namespace Boxing.Event

open C.BinaryHeap

set_option linter.style.nameCheck false

/-- `struct timeval`; `_EVENT_SIZEOF_LONG` is 4. -/
structure Timeval where
  tv_sec : Int32
  tv_usec : Int32
deriving DecidableEq

/-- `evutil_timercmp(t, u, cmp)`. -/
def evutil_timercmp (t u : Timeval) (cmp : Int32 → Int32 → Bool) : Bool :=
  if t.tv_sec = u.tv_sec then cmp t.tv_usec u.tv_usec else cmp t.tv_sec u.tv_sec

/-- The seconds, and then the microseconds. -/
def Timeval.lex (t : Timeval) : Int ×ₗ Int := toLex (t.tv_sec.toInt, t.tv_usec.toInt)

theorem timercmp_gt_iff {t u : Timeval} :
    evutil_timercmp t u (· > ·) = true ↔ u.lex < t.lex := by
  rw [evutil_timercmp, Timeval.lex, Timeval.lex, Prod.Lex.toLex_lt_toLex]
  by_cases hsec : t.tv_sec = u.tv_sec
  · simp [hsec, Int32.lt_iff_toInt_lt]
  · have hne := mt Int32.toInt_inj.mp hsec
    rw [if_neg hsec, decide_eq_true_iff, gt_iff_lt, Int32.lt_iff_toInt_lt]
    omega

theorem timercmp_le_iff {t u : Timeval} :
    evutil_timercmp t u (· ≤ ·) = true ↔ t.lex ≤ u.lex := by
  rw [evutil_timercmp, Timeval.lex, Timeval.lex, Prod.Lex.toLex_le_toLex]
  by_cases hsec : t.tv_sec = u.tv_sec
  · simp [hsec, Int32.le_iff_toInt_le]
  · have hne := mt Int32.toInt_inj.mp hsec
    rw [if_neg hsec, decide_eq_true_iff, Int32.le_iff_toInt_le]
    omega

theorem timercmp_ge_iff {t u : Timeval} :
    evutil_timercmp t u (· ≥ ·) = true ↔ u.lex ≤ t.lex := by
  rw [← timercmp_le_iff, evutil_timercmp, evutil_timercmp]
  simp only [eq_comm (a := t.tv_sec), ge_iff_le]

/-- A heap, and `min_heap_idx` of each event.  `n` and `a` count what there is memory for, and do not
wrap. -/
structure MinHeap (α : Type) where
  p : Nat → α
  n : Nat
  a : Nat
  min_heap_idx : α → Int

variable {α : Type} [DecidableEq α]

/-- `(s->p[i] = e)->ev_timeout_pos.min_heap_idx = i;`. -/
def MinHeap.store (s : MinHeap α) (i : Nat) (e : α) : MinHeap α :=
  { s with p := Function.update s.p i e, min_heap_idx := Function.update s.min_heap_idx e i }

@[simp] theorem MinHeap.store_n (s : MinHeap α) (i : Nat) (e : α) : (s.store i e).n = s.n := rfl

@[simp] theorem MinHeap.store_a (s : MinHeap α) (i : Nat) (e : α) : (s.store i e).a = s.a := rfl

@[simp] theorem MinHeap.store_p (s : MinHeap α) (i : Nat) (e : α) :
    (s.store i e).p = Function.update s.p i e := rfl

@[simp] theorem MinHeap.store_idx (s : MinHeap α) (i : Nat) (e : α) :
    (s.store i e).min_heap_idx = Function.update s.min_heap_idx e i := rfl

/-- `min_heap_elem_greater(a, b)`. -/
def min_heap_elem_greater (ev_timeout : α → Timeval) (a b : α) : Bool :=
  evutil_timercmp (ev_timeout a) (ev_timeout b) (· > ·)

/-- `min_heap_shift_up_(s, hole_index, e)`. -/
def min_heap_shift_up_ (ev_timeout : α → Timeval) (s : MinHeap α) (hole_index : Nat) (e : α) :
    MinHeap α :=
  if h : 0 < hole_index ∧ min_heap_elem_greater ev_timeout (s.p (parent hole_index)) e = true then
    have := parent_lt h.1
    min_heap_shift_up_ ev_timeout (s.store hole_index (s.p (parent hole_index)))
      (parent hole_index) e
  else s.store hole_index e
termination_by hole_index

/-- The child that comes first, where there is one. -/
def min_child (ev_timeout : α → Timeval) (s : MinHeap α) (hole_index : Nat) : Nat :=
  let min_child := 2 * (hole_index + 1)
  if min_child = s.n ∨ min_heap_elem_greater ev_timeout (s.p min_child) (s.p (min_child - 1)) then
    min_child - 1
  else min_child

omit [DecidableEq α] in
theorem min_child_bounds {ev_timeout : α → Timeval} {s : MinHeap α} {hole_index : Nat}
    (h : 2 * (hole_index + 1) ≤ s.n) :
    hole_index < min_child ev_timeout s hole_index ∧ min_child ev_timeout s hole_index < s.n ∧
      parent (min_child ev_timeout s hole_index) = hole_index := by
  rw [min_child, parent]
  split
  · omega
  · omega

/-- `min_heap_shift_down_(s, hole_index, e)`. -/
def min_heap_shift_down_ (ev_timeout : α → Timeval) (s : MinHeap α) (hole_index : Nat) (e : α) :
    MinHeap α :=
  if h : 2 * (hole_index + 1) ≤ s.n then
    let c := min_child ev_timeout s hole_index
    if min_heap_elem_greater ev_timeout e (s.p c) then
      have : s.n - c < s.n - hole_index := by
        have hc := @min_child_bounds _ ev_timeout s hole_index h
        omega
      min_heap_shift_down_ ev_timeout (s.store hole_index (s.p c)) c e
    else s.store hole_index e
  else s.store hole_index e
termination_by s.n - hole_index

/-- `min_heap_ctor(s)`, with every event initialised by `min_heap_elem_init`. -/
def min_heap_ctor (junk : Nat → α) : MinHeap α := ⟨junk, 0, 0, fun _ => -1⟩

/-- `min_heap_top(s)`. -/
def min_heap_top (s : MinHeap α) : Option α := if s.n = 0 then none else some (s.p 0)

/-- `min_heap_reserve(s, n)`; `realloc` may fail. -/
def min_heap_reserve (realloc : Bool) (n : Nat) (s : MinHeap α) : Option (MinHeap α) :=
  if s.a < n then
    let a := if s.a ≠ 0 then s.a * 2 else 8
    let a := if a < n then n else a
    if realloc then some { s with a := a } else none
  else some s

/-- `min_heap_push(s, e)`. -/
def min_heap_push (ev_timeout : α → Timeval) (realloc : Bool) (e : α) (s : MinHeap α) :
    Option (MinHeap α) :=
  (min_heap_reserve realloc (s.n + 1) s).map fun s =>
    min_heap_shift_up_ ev_timeout { s with n := s.n + 1 } s.n e

/-- `e->ev_timeout_pos.min_heap_idx = -1;`. -/
def MinHeap.leave (s : MinHeap α) (e : α) : MinHeap α :=
  { s with min_heap_idx := Function.update s.min_heap_idx e (-1) }

/-- `min_heap_pop(s)`. -/
def min_heap_pop (ev_timeout : α → Timeval) (s : MinHeap α) : Option (α × MinHeap α) :=
  if s.n = 0 then none
  else
    let e := s.p 0
    let last := s.p (s.n - 1)
    some (e, (min_heap_shift_down_ ev_timeout { s with n := s.n - 1 } 0 last).leave e)

/-- `min_heap_erase(s, e)`. -/
def min_heap_erase (ev_timeout : α → Timeval) (e : α) (s : MinHeap α) : Option (MinHeap α) :=
  if s.min_heap_idx e = -1 then none
  else
    let last := s.p (s.n - 1)
    let i := (s.min_heap_idx e).toNat
    let s := { s with n := s.n - 1 }
    some <| MinHeap.leave (e := e) <|
      if 0 < i ∧ min_heap_elem_greater ev_timeout (s.p (parent i)) last = true then
        min_heap_shift_up_ ev_timeout s i last
      else min_heap_shift_down_ ev_timeout s i last

/-! ### What holds between two calls -/

variable {ev_timeout : α → Timeval} {s s' : MinHeap α} {S : α → Prop} {h i : Nat} {e x : α}

/-- What the heap is ordered by. -/
def key (ev_timeout : α → Timeval) (e : α) : Int ×ₗ Int := (ev_timeout e).lex

omit [DecidableEq α] in
theorem greater_iff {a b : α} :
    min_heap_elem_greater ev_timeout a b = true ↔ key ev_timeout b < key ev_timeout a :=
  timercmp_gt_iff

/-- The events `S` are in the heap, each where it believes to be. -/
structure Arranged (ev_timeout : α → Timeval) (s : MinHeap α) (S : α → Prop) : Prop where
  ordered : Ordered (key ev_timeout) s.p s.n
  place : ∀ i < s.n, S (s.p i) ∧ s.min_heap_idx (s.p i) = i
  inside : ∀ x, S x → ∃ i, i < s.n ∧ s.p i = x
  room : s.n ≤ s.a

/-- And no other event believes to be in it. -/
structure Sound (ev_timeout : α → Timeval) (s : MinHeap α) (S : α → Prop) : Prop
    extends Arranged ev_timeout s S where
  outside : ∀ x, ¬ S x → s.min_heap_idx x = -1

/-- The same while `e` is on its way: the place `h` is free. -/
structure Loose (s : MinHeap α) (S : α → Prop) (h : Nat) (e : α) : Prop where
  place : ∀ i < s.n, i ≠ h → S (s.p i) ∧ s.p i ≠ e ∧ s.min_heap_idx (s.p i) = i
  inside : ∀ x, S x → x ≠ e → ∃ i, i < s.n ∧ i ≠ h ∧ s.p i = x
  room : s.n ≤ s.a
  free : h < s.n
  mem : S e

/-- What a loop leaves. -/
structure Sifted (ev_timeout : α → Timeval) (s s' : MinHeap α) (S : α → Prop) : Prop where
  arranged : Arranged ev_timeout s' S
  n : s'.n = s.n
  a : s'.a = s.a
  frame : ∀ x, ¬ S x → s'.min_heap_idx x = s.min_heap_idx x

/-- Another element comes to the free place, and leaves its own. -/
theorem Loose.move (hl : Loose s S h e) (hi : i < s.n) (hih : i ≠ h) :
    Loose (s.store h (s.p i)) S i e := by
  obtain ⟨hSi, hie, hidx⟩ := hl.place i hi hih
  refine ⟨fun j hj hji => ?_, fun x hx hxe => ?_, hl.room, hi, hl.mem⟩
  · rw [MinHeap.store_p, MinHeap.store_idx]
    by_cases hjh : j = h
    · subst hjh
      rw [Function.update_self, Function.update_self]
      exact ⟨hSi, hie, rfl⟩
    · obtain ⟨hSj, hje, hjdx⟩ := hl.place j hj hjh
      have hne : s.p j ≠ s.p i := fun heq => by
        rw [heq, hidx] at hjdx
        omega
      rw [Function.update_of_ne hjh, Function.update_of_ne hne]
      exact ⟨hSj, hje, hjdx⟩
  · obtain ⟨j, hj, hjh, rfl⟩ := hl.inside x hx hxe
    by_cases hji : j = i
    · subst hji
      exact ⟨h, hl.free, hih.symm, Function.update_self ..⟩
    · exact ⟨j, hj, hji, Function.update_of_ne hjh ..⟩

/-- Only the events in the heap learn of it. -/
theorem Loose.frame (hl : Loose s S h e) (hi : i < s.n) (hih : i ≠ h) (hx : ¬ S x) :
    (s.store h (s.p i)).min_heap_idx x = s.min_heap_idx x := by
  refine Function.update_of_ne (fun hxi => hx ?_) ..
  rw [hxi]
  exact (hl.place i hi hih).1

/-- The element comes to its place. -/
theorem Loose.settle (hl : Loose s S h e) (hp : Hole (key ev_timeout) s.p s.n h)
    (habove : 0 < h → key ev_timeout (s.p (parent h)) ≤ key ev_timeout e)
    (hbelow : ∀ i, 0 < i → i < s.n → parent i = h → key ev_timeout e ≤ key ev_timeout (s.p i)) :
    Sifted ev_timeout s (s.store h e) S := by
  refine ⟨⟨hp.fill habove hbelow, fun i hi => ?_, fun x hx => ?_, hl.room⟩, rfl, rfl,
    fun x hx => Function.update_of_ne (fun hxe : x = e => hx (hxe ▸ hl.mem)) ..⟩
  · rw [MinHeap.store_p, MinHeap.store_idx]
    by_cases hih : i = h
    · subst hih
      rw [Function.update_self, Function.update_self]
      exact ⟨hl.mem, rfl⟩
    · obtain ⟨hSi, hie, hidx⟩ := hl.place i hi hih
      rw [Function.update_of_ne hih, Function.update_of_ne hie]
      exact ⟨hSi, hidx⟩
  · by_cases hxe : x = e
    · exact ⟨h, hl.free, by rw [MinHeap.store_p, Function.update_self, hxe]⟩
    · obtain ⟨i, hi, hih, rfl⟩ := hl.inside x hx hxe
      exact ⟨i, hi, Function.update_of_ne hih ..⟩

omit [DecidableEq α] in
theorem Sifted.step {s₁ : MinHeap α} (hs : Sifted ev_timeout s₁ s' S) (hn : s₁.n = s.n)
    (ha : s₁.a = s.a) (hframe : ∀ x, ¬ S x → s₁.min_heap_idx x = s.min_heap_idx x) :
    Sifted ev_timeout s s' S :=
  ⟨hs.arranged, hs.n.trans hn, hs.a.trans ha, fun x hx => (hs.frame x hx).trans (hframe x hx)⟩

/-- **Shifting up**: nothing below the hole may be before the element. -/
theorem shift_up_spec (hl : Loose s S h e) (hp : Hole (key ev_timeout) s.p s.n h)
    (hbelow : ∀ i, 0 < i → i < s.n → parent i = h → key ev_timeout e ≤ key ev_timeout (s.p i)) :
    Sifted ev_timeout s (min_heap_shift_up_ ev_timeout s h e) S := by
  induction h using Nat.strongRecOn generalizing s with
  | ind h ih =>
    rw [min_heap_shift_up_]
    split
    · rename_i hgt
      have hlt := parent_lt hgt.1
      have hup := Nat.lt_trans hlt hl.free
      have hle : key ev_timeout e ≤ key ev_timeout (s.p (parent h)) :=
        le_of_lt (greater_iff.mp hgt.2)
      refine Sifted.step (ih _ hlt (hl.move hup (Nat.ne_of_lt hlt)) (hp.up hgt.1 hl.free) ?_) rfl
        rfl fun x hx => hl.frame hup (Nat.ne_of_lt hlt) hx
      exact fun i hi0 hi hpi => hp.up_below hgt.1 hle hi0 hi hpi
    · rename_i hgt
      refine hl.settle hp (fun h0 => ?_) hbelow
      exact not_lt.mp fun hlt => hgt ⟨h0, greater_iff.mpr hlt⟩

omit [DecidableEq α] in
/-- The child that is taken comes before the other. -/
theorem min_child_first (hi0 : 0 < i) (hi : i < s.n)
    (hpi : parent i = h) :
    key ev_timeout (s.p (min_child ev_timeout s h)) ≤ key ev_timeout (s.p i) := by
  have hi' : i = 2 * (h + 1) - 1 ∨ i = 2 * (h + 1) := by
    rw [parent] at hpi
    omega
  rw [min_child]
  split
  · rename_i hor
    rcases hi' with rfl | rfl
    · exact le_refl _
    · rcases hor with hn | hgt
      · omega
      · exact le_of_lt (greater_iff.mp hgt)
  · rename_i hor
    rcases hi' with rfl | rfl
    · exact not_lt.mp fun hlt => hor (Or.inr (greater_iff.mpr hlt))
    · exact le_refl _

/-- **Shifting down**: nothing above the hole may be behind the element. -/
theorem shift_down_spec (hl : Loose s S h e) (hp : Hole (key ev_timeout) s.p s.n h)
    (habove : 0 < h → key ev_timeout (s.p (parent h)) ≤ key ev_timeout e) :
    Sifted ev_timeout s (min_heap_shift_down_ ev_timeout s h e) S := by
  induction hk : s.n - h using Nat.strongRecOn generalizing s h with
  | ind k ih =>
    rw [min_heap_shift_down_]
    split
    · rename_i hh
      obtain ⟨hlt, hc, hpc⟩ := @min_child_bounds _ ev_timeout s h hh
      have hc0 := Nat.zero_lt_of_lt hlt
      have hfirst := fun i => @min_child_first _ ev_timeout s h i
      dsimp only
      split
      · rename_i hgt
        have hle := le_of_lt (greater_iff.mp hgt)
        refine Sifted.step (ih _ ?_ (hl.move hc (Nat.ne_of_gt hlt)) (hp.down hc0 hc hpc hfirst)
          (fun _ => ?_) rfl) rfl rfl fun x hx => hl.frame hc (Nat.ne_of_gt hlt) hx
        · rw [MinHeap.store_n]
          omega
        · rw [hpc, MinHeap.store_p, Function.update_self]
          exact hle
      · rename_i hgt
        refine hl.settle hp habove fun i hi0 hi hpi => ?_
        exact (not_lt.mp (mt greater_iff.mpr hgt)).trans (hfirst i hi0 hi hpi)
    · rename_i hh
      refine hl.settle hp habove fun i hi0 hi hpi => ?_
      rw [parent] at hpi
      omega

/-! ### The operations -/

omit [DecidableEq α] in
theorem min_heap_ctor_sound (junk : Nat → α) :
    Sound ev_timeout (min_heap_ctor junk) fun _ => False :=
  ⟨⟨fun _ _ hi => absurd hi (Nat.not_lt_zero _), fun _ hi => absurd hi (Nat.not_lt_zero _),
    fun _ hx => hx.elim, Nat.le_refl _⟩, fun _ _ => rfl⟩

omit [DecidableEq α] in
theorem Arranged.congr {s' : MinHeap α} (hs : Arranged ev_timeout s S) (hp : s'.p = s.p)
    (hn : s'.n = s.n) (ha : s.n ≤ s'.a)
    (hidx : ∀ x, S x → s'.min_heap_idx x = s.min_heap_idx x) : Arranged ev_timeout s' S := by
  refine ⟨by rw [hp, hn]; exact hs.ordered, fun i hi => ?_, fun x hx => ?_, hn ▸ ha⟩
  · rw [hn] at hi
    obtain ⟨hSi, hi'⟩ := hs.place i hi
    rw [hp]
    exact ⟨hSi, (hidx _ hSi).trans hi'⟩
  · rw [hp, hn]
    exact hs.inside x hx

omit [DecidableEq α] in
/-- More room: nothing else changes. -/
theorem min_heap_reserve_spec {realloc : Bool} {n : Nat} (hs : Sound ev_timeout s S)
    (h : min_heap_reserve realloc n s = some s') : Sound ev_timeout s' S ∧ s'.n = s.n ∧ n ≤ s'.a := by
  rw [min_heap_reserve] at h
  split at h
  · rename_i hlt
    dsimp only at h
    split at h
    · cases h
      have ha : ∀ a, n ≤ if a < n then n else a := fun a => by
        split <;> omega
      refine ⟨⟨hs.toArranged.congr rfl rfl ?_ fun _ _ => rfl, hs.outside⟩, rfl, ha _⟩
      exact Nat.le_trans hs.room (Nat.le_trans (Nat.le_of_lt hlt) (ha _))
    · cases h
  · cases h
    exact ⟨hs, rfl, by omega⟩

/-- **Pushing** an event that is not in the heap, when there is room. -/
theorem min_heap_push_spec {realloc : Bool} (hs : Sound ev_timeout s S) (he : ¬ S e)
    (ha : s.n + 1 ≤ s.a) :
    ∃ s', min_heap_push ev_timeout realloc e s = some s' ∧
      Sound ev_timeout s' fun x => x = e ∨ S x := by
  have hreserve : min_heap_reserve realloc (s.n + 1) s = some s := if_neg (by omega)
  refine ⟨_, by rw [min_heap_push, hreserve]; rfl, ?_⟩
  have hl : Loose { s with n := s.n + 1 } (fun x => x = e ∨ S x) s.n e := by
    refine ⟨fun i hi hin => ?_, fun x hx hxe => ?_, ha, Nat.lt_succ_self _, Or.inl rfl⟩
    · obtain ⟨hSi, hidx⟩ := hs.place i (Nat.lt_of_le_of_ne (Nat.le_of_lt_succ hi) hin)
      exact ⟨Or.inr hSi, fun heq => he (heq ▸ hSi), hidx⟩
    · obtain ⟨i, hi, hpi⟩ := hs.inside x (hx.resolve_left hxe)
      exact ⟨i, Nat.lt_succ_of_lt hi, Nat.ne_of_lt hi, hpi⟩
  have hsift := shift_up_spec hl hs.ordered.hole_end fun i hi0 hi hpi => by
    have hlt := parent_lt hi0
    dsimp only at hi
    omega
  refine ⟨hsift.arranged, fun x hx => ?_⟩
  rw [hsift.frame x hx]
  exact hs.outside x fun hSx => hx (Or.inr hSx)

theorem leave_sound (hs : Arranged ev_timeout s S) (he : ¬ S e)
    (hout : ∀ x, ¬ S x → x ≠ e → s.min_heap_idx x = -1) : Sound ev_timeout (s.leave e) S := by
  refine ⟨hs.congr rfl rfl hs.room fun x hx => ?_, fun x hx => ?_⟩
  · exact Function.update_of_ne (fun hxe : x = e => he (hxe ▸ hx)) ..
  · by_cases hxe : x = e
    · exact hxe ▸ Function.update_self ..
    · exact (Function.update_of_ne hxe ..).trans (hout x hx hxe)

omit [DecidableEq α] in
theorem Arranged.inj {j : Nat} (hs : Arranged ev_timeout s S) (hi : i < s.n) (hj : j < s.n)
    (h : s.p i = s.p j) : i = j := by
  have hidx := (hs.place i hi).2
  rw [h, (hs.place j hj).2] at hidx
  omega

omit [DecidableEq α] in
/-- Without its last place, the heap has a hole where an event is taken out. -/
theorem Arranged.loose (hs : Arranged ev_timeout s S) (hi : i < s.n - 1) :
    Loose { s with n := s.n - 1 } (fun x => S x ∧ x ≠ s.p i) i (s.p (s.n - 1)) := by
  refine ⟨fun j hj hji => ?_, fun x hx hxl => ?_, Nat.le_trans (Nat.sub_le ..) hs.room, hi,
    (hs.place _ (by omega)).1, fun h => ?_⟩
  · have hj' : j < s.n - 1 := hj
    obtain ⟨hSj, hjdx⟩ := hs.place j (by omega)
    refine ⟨⟨hSj, fun h => hji (hs.inj (by omega) (by omega) h)⟩, fun h => ?_, hjdx⟩
    exact absurd (hs.inj (by omega) (by omega) h) (Nat.ne_of_lt hj')
  · obtain ⟨j, hj, rfl⟩ := hs.inside x hx.1
    have hjl : j ≠ s.n - 1 := fun h => hxl (h ▸ rfl)
    exact ⟨j, show j < s.n - 1 by omega, fun h => hx.2 (h ▸ rfl), rfl⟩
  · exact absurd (hs.inj (by omega) (by omega) h) (Nat.ne_of_gt hi)

/-- The last element goes, and is written where it was. -/
theorem Arranged.store_end (hs : Arranged ev_timeout s S) :
    Arranged ev_timeout (MinHeap.store { s with n := s.n - 1 } (s.n - 1) (s.p (s.n - 1)))
      fun x => S x ∧ x ≠ s.p (s.n - 1) := by
  have hshort : Ordered (key ev_timeout) s.p (s.n - 1) := hs.ordered.mono (Nat.sub_le ..)
  refine ⟨hshort.congr fun j hj => Function.update_of_ne (Nat.ne_of_lt hj) .., fun j hj => ?_,
    fun x hx => ?_, Nat.le_trans (Nat.sub_le ..) hs.room⟩
  · have hj' : j < s.n - 1 := hj
    obtain ⟨hSj, hjdx⟩ := hs.place j (by omega)
    have hne : s.p j ≠ s.p (s.n - 1) := fun h =>
      absurd (hs.inj (by omega) (by omega) h) (Nat.ne_of_lt hj')
    rw [MinHeap.store_p, MinHeap.store_idx, Function.update_of_ne (Nat.ne_of_lt hj'),
      Function.update_of_ne hne]
    exact ⟨⟨hSj, hne⟩, hjdx⟩
  · obtain ⟨j, hj, rfl⟩ := hs.inside x hx.1
    have hjl : j ≠ s.n - 1 := fun h => hx.2 (h ▸ rfl)
    exact ⟨j, show j < s.n - 1 by omega, Function.update_of_ne hjl ..⟩

/-- The last element goes to the place that is free, up or down. -/
theorem Arranged.sift (hs : Arranged ev_timeout s S) (hi : i < s.n - 1) :
    Sifted ev_timeout { s with n := s.n - 1 }
      (if 0 < i ∧ min_heap_elem_greater ev_timeout (s.p (parent i)) (s.p (s.n - 1)) = true then
        min_heap_shift_up_ ev_timeout { s with n := s.n - 1 } i (s.p (s.n - 1))
      else min_heap_shift_down_ ev_timeout { s with n := s.n - 1 } i (s.p (s.n - 1)))
      fun x => S x ∧ x ≠ s.p i := by
  have hhole := (hs.ordered.mono (Nat.sub_le ..)).hole hi
  split
  · rename_i hgt
    refine shift_up_spec (hs.loose hi) hhole fun j hj0 hj hpj => ?_
    exact (le_of_lt (greater_iff.mp hgt.2)).trans (hhole.across hgt.1 j hj0 hj hpj)
  · rename_i hgt
    refine shift_down_spec (hs.loose hi) hhole fun h0 => ?_
    exact not_lt.mp fun hlt => hgt ⟨h0, greater_iff.mpr hlt⟩

/-- **Taking an event out**, from wherever it is. -/
theorem min_heap_erase_spec (hs : Sound ev_timeout s S) (he : S e) :
    ∃ s', min_heap_erase ev_timeout e s = some s' ∧ s'.n + 1 = s.n ∧ s'.a = s.a ∧
      Sound ev_timeout s' fun x => S x ∧ x ≠ e := by
  obtain ⟨i, hi, rfl⟩ := hs.inside e he
  have hidx : s.min_heap_idx (s.p i) = i := (hs.place i hi).2
  refine ⟨_, by rw [min_heap_erase, if_neg (by omega)], ?_⟩
  rw [hidx, Int.toNat_natCast]
  have hsub : s.n - 1 + 1 = s.n := by omega
  have hout : ∀ x, ¬ (S x ∧ x ≠ s.p i) → x ≠ s.p i → s.min_heap_idx x = -1 := fun x hx hxe =>
    hs.outside x fun hSx => hx ⟨hSx, hxe⟩
  by_cases hlast : i = s.n - 1
  · subst hlast
    have hng : ¬ (0 < s.n - 1 ∧ min_heap_elem_greater ev_timeout (s.p (parent (s.n - 1)))
        (s.p (s.n - 1)) = true) := fun h =>
      absurd (greater_iff.mp h.2) (not_lt.mpr (hs.ordered _ h.1 hi))
    rw [if_neg hng, min_heap_shift_down_, dif_neg (by dsimp only; omega)]
    refine ⟨hsub, rfl, leave_sound hs.toArranged.store_end (fun h => h.2 rfl) fun x hx hxe => ?_⟩
    rw [MinHeap.store_idx, Function.update_of_ne hxe]
    exact hout x hx hxe
  · have hsift := hs.toArranged.sift (i := i) (by omega)
    refine ⟨(congrArg (· + 1) hsift.n).trans hsub, hsift.a,
      leave_sound hsift.arranged (fun h => h.2 rfl) fun x hx hxe => ?_⟩
    rw [hsift.frame x hx]
    exact hout x hx hxe

omit [DecidableEq α] in
theorem min_heap_top_eq (hs : Sound ev_timeout s S) :
    (min_heap_top s = none ∧ ∀ x, ¬ S x) ∨
      ∃ e, min_heap_top s = some e ∧ S e ∧ ∀ x, S x → key ev_timeout e ≤ key ev_timeout x := by
  rw [min_heap_top]
  split
  · rename_i hn
    refine Or.inl ⟨rfl, fun x hx => ?_⟩
    obtain ⟨i, hi, -⟩ := hs.inside x hx
    omega
  · rename_i hn
    refine Or.inr ⟨_, rfl, (hs.place 0 (by omega)).1, fun x hx => ?_⟩
    obtain ⟨i, hi, rfl⟩ := hs.inside x hx
    exact hs.ordered.top hi

/-- **Popping** takes out the top. -/
theorem min_heap_pop_eq (hs : Sound ev_timeout s S) :
    min_heap_pop ev_timeout s =
      (min_heap_top s).bind fun e => (min_heap_erase ev_timeout e s).map fun s => (e, s) := by
  rw [min_heap_pop, min_heap_top]
  split
  · rfl
  · rename_i hn
    have hidx : s.min_heap_idx (s.p 0) = (0 : Nat) := (hs.place 0 (by omega)).2
    rw [Option.bind_some, min_heap_erase, if_neg (by omega), hidx, Int.toNat_natCast]
    rfl

end Boxing.Event
