import Mathlib.Order.Lattice
import Mathlib.Logic.Function.Basic

/-!
# Binary heaps with a hole

A heap is an array `p` in which no element of the first `n` is before the one above it
(`Ordered`).  While an element is on its way through it, one place is free: a `Hole`.  Nothing that
is around the hole may be out of order, so the hole can be moved up (`Hole.up`) or down
(`Hole.down`), and an element that fits can be put into it (`Hole.fill`).
-/

namespace Boxing.C.BinaryHeap

variable {α K : Type} [LinearOrder K] {key : α → K} {p : Nat → α} {n h m i : Nat} {e : α}

/-- The place above. -/
def parent (i : Nat) : Nat := (i - 1) / 2

theorem parent_lt (hi : 0 < i) : parent i < i := by
  rw [parent]
  omega

theorem parent_ne (hi : 0 < i) : parent i ≠ i := Nat.ne_of_lt (parent_lt hi)

/-- No element is before the one above it. -/
def Ordered (key : α → K) (p : Nat → α) (n : Nat) : Prop :=
  ∀ i, 0 < i → i < n → key (p (parent i)) ≤ key (p i)

/-- **The top** is before every other element. -/
theorem Ordered.top (hp : Ordered key p n) (hi : i < n) : key (p 0) ≤ key (p i) := by
  induction i using Nat.strongRecOn with
  | ind i ih =>
    rcases Nat.eq_zero_or_pos i with rfl | h0
    · exact le_refl _
    · have hlt := parent_lt h0
      exact (ih (parent i) hlt (Nat.lt_trans hlt hi)).trans (hp i h0 hi)

theorem Ordered.mono (hp : Ordered key p n) (hm : m ≤ n) : Ordered key p m :=
  fun i h0 hi => hp i h0 (Nat.lt_of_lt_of_le hi hm)

theorem Ordered.congr {p' : Nat → α} (hp : Ordered key p n) (hsame : ∀ i < n, p' i = p i) :
    Ordered key p' n := by
  intro i h0 hi
  rw [hsame i hi, hsame _ (Nat.lt_trans (parent_lt h0) hi)]
  exact hp i h0 hi

/-- The place `h` is free, and what is below it is not before what is above it. -/
structure Hole (key : α → K) (p : Nat → α) (n h : Nat) : Prop where
  rest : ∀ i, 0 < i → i < n → i ≠ h → parent i ≠ h → key (p (parent i)) ≤ key (p i)
  across : 0 < h → ∀ i, 0 < i → i < n → parent i = h → key (p (parent h)) ≤ key (p i)

theorem Ordered.hole (hp : Ordered key p n) (hh : h < n) : Hole key p n h := by
  refine ⟨fun i h0 hi _ _ => hp i h0 hi, fun h0 i hi0 hi hpi => ?_⟩
  have hstep := hp i hi0 hi
  rw [hpi] at hstep
  exact (hp h h0 hh).trans hstep

/-- A place at the end. -/
theorem Ordered.hole_end (hp : Ordered key p n) : Hole key p (n + 1) n := by
  refine ⟨fun i h0 hi hne _ => hp i h0 (by omega), fun _ i hi0 hi hpi => ?_⟩
  have hlt := parent_lt hi0
  omega

/-- **An element that fits** is put into the hole. -/
theorem Hole.fill (hp : Hole key p n h) (habove : 0 < h → key (p (parent h)) ≤ key e)
    (hbelow : ∀ i, 0 < i → i < n → parent i = h → key e ≤ key (p i)) :
    Ordered key (Function.update p h e) n := by
  intro i h0 hi
  by_cases hih : i = h
  · subst hih
    rw [Function.update_self, Function.update_of_ne (parent_ne h0)]
    exact habove h0
  · rw [Function.update_of_ne hih]
    by_cases hpi : parent i = h
    · rw [hpi, Function.update_self]
      exact hbelow i h0 hi hpi
    · rw [Function.update_of_ne hpi]
      exact hp.rest i h0 hi hih hpi

/-- The element above comes down. -/
theorem Hole.up (hp : Hole key p n h) (h0 : 0 < h) (hh : h < n) :
    Hole key (Function.update p h (p (parent h))) n (parent h) := by
  have hlt := parent_lt h0
  have habove : 0 < parent h → key (p (parent (parent h))) ≤ key (p (parent h)) := fun hp0 =>
    hp.rest _ hp0 (Nat.lt_trans hlt hh) (Nat.ne_of_lt hlt)
      (Nat.ne_of_lt (Nat.lt_trans (parent_lt hp0) hlt))
  refine ⟨fun i hi0 hi hne hpne => ?_, fun hp0 i hi0 hi hpi => ?_⟩
  · have hih : i ≠ h := fun heq => hpne (heq ▸ rfl)
    rw [Function.update_of_ne hih]
    by_cases hpi : parent i = h
    · rw [hpi, Function.update_self]
      exact hp.across h0 i hi0 hi hpi
    · rw [Function.update_of_ne hpi]
      exact hp.rest i hi0 hi hih hpi
  · rw [Function.update_of_ne (Nat.ne_of_lt (Nat.lt_trans (parent_lt hp0) hlt))]
    by_cases hih : i = h
    · rw [hih, Function.update_self]
      exact habove hp0
    · rw [Function.update_of_ne hih]
      have hside := hp.rest i hi0 hi hih (by rw [hpi]; exact Nat.ne_of_lt hlt)
      rw [hpi] at hside
      exact (habove hp0).trans hside

/-- What was not before the hole's parent is not before what is now below the hole. -/
theorem Hole.up_below (hp : Hole key p n h) (h0 : 0 < h)
    (he : key e ≤ key (p (parent h))) (hi0 : 0 < i) (hi : i < n) (hpi : parent i = parent h) :
    key e ≤ key (Function.update p h (p (parent h)) i) := by
  by_cases hih : i = h
  · rw [hih, Function.update_self]
    exact he
  · rw [Function.update_of_ne hih]
    have hside := hp.rest i hi0 hi hih (by rw [hpi]; exact Nat.ne_of_lt (parent_lt h0))
    rw [hpi] at hside
    exact he.trans hside

/-- The first of the elements below comes up. -/
theorem Hole.down (hp : Hole key p n h) (hm0 : 0 < m) (hm : m < n) (hpm : parent m = h)
    (hfirst : ∀ i, 0 < i → i < n → parent i = h → key (p m) ≤ key (p i)) :
    Hole key (Function.update p h (p m)) n m := by
  have hlt : h < m := hpm ▸ parent_lt hm0
  refine ⟨fun i hi0 hi hne hpne => ?_, fun _ i hi0 hi hpi => ?_⟩
  · by_cases hih : i = h
    · subst hih
      rw [Function.update_self, Function.update_of_ne (parent_ne hi0)]
      exact hp.across hi0 m hm0 hm hpm
    · rw [Function.update_of_ne hih]
      by_cases hpi : parent i = h
      · rw [hpi, Function.update_self]
        exact hfirst i hi0 hi hpi
      · rw [Function.update_of_ne hpi]
        exact hp.rest i hi0 hi hih hpi
  · have hmi := parent_lt hi0
    rw [hpm, Function.update_self, Function.update_of_ne (by omega)]
    have hside := hp.rest i hi0 hi (by omega) (by omega)
    rwa [hpi] at hside

end Boxing.C.BinaryHeap
