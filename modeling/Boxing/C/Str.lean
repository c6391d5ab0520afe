import Mathlib.Algebra.Ring.Int.Defs
import Mathlib.Algebra.Ring.Nat
import Mathlib.Data.List.Basic
import Mathlib.Data.List.TakeWhile
import Mathlib.Data.List.Infix

/-!
# C strings in bounded memory

A buffer is a list of bytes, a pointer into it is the list from there on, and
the `<string.h>` functions are partial: `none` is an access outside the buffer.
A *string* is a list of bytes without a NUL; what a buffer holds at a place is
the string up to the first NUL, and `strlen` is its length — if there is a NUL.

`padded n s` is a buffer of `n` bytes that holds `s` and zeros to its end.  It is
what `strncpy` and `memset` leave, and `strncat` keeps the form, so code that
only ever writes its buffer with these can be read on the strings alone.
-/

namespace Boxing.C

/-- A buffer, or what a pointer into one sees. -/
abbrev Bytes := List UInt8

/-- The bytes of an ASCII text. -/
def asc (s : String) : Bytes := s.toList.map fun c => c.toNat.toUInt8

/-- The string at the start of a buffer. -/
def str (m : Bytes) : Bytes := m.takeWhile (· ≠ 0)

/-- Its length; `none` when the buffer ends before a NUL does. -/
def strlen : Bytes → Option Nat
  | [] => none
  | c :: m => if c = 0 then some 0 else (strlen m).map (· + 1)

/-- Put `s` into the buffer at `pos`, if it fits. -/
def store (m : Bytes) (pos : Nat) (s : Bytes) : Option Bytes :=
  if pos + s.length ≤ m.length then some (m.take pos ++ s ++ m.drop (pos + s.length)) else none

/-- `strcpy(m + pos, s)`. -/
def strcpy (m : Bytes) (pos : Nat) (s : Bytes) : Option Bytes := store m pos (s ++ [0])

/-- `strncpy(m, s, n)`: exactly `n` bytes are written, zeros after the string. -/
def strncpy (m s : Bytes) (n : Nat) : Option Bytes :=
  store m 0 ((s ++ List.replicate n 0).take n)

/-- `strncat(m, s, n)`: at most `n` characters and a NUL behind the string in `m`. -/
def strncat (m s : Bytes) (n : Nat) : Option Bytes :=
  (strlen m).bind fun k => store m k (s.take n ++ [0])

/-- `strncmp(a, b, n) == 0` on two strings. -/
def strncmpEq (a b : Bytes) (n : Nat) : Bool := (a ++ [0]).take n == (b ++ [0]).take n

/-- `strstr(s, t)`: from the first place in `s` where `t` stands. -/
def strstr : Bytes → Bytes → Option Bytes
  | [], t => if t = [] then some [] else none
  | c :: s, t => if t.isPrefixOf (c :: s) then some (c :: s) else strstr s t

/-- `index(s, c)`: from the first `c` on. -/
def index (s : Bytes) (c : UInt8) : Option Bytes :=
  if c ∈ s then some (s.dropWhile (· ≠ c)) else none

/-- A buffer of `n` bytes holding `s` and then zeros. -/
def padded (n : Nat) (s : Bytes) : Bytes := s ++ List.replicate (n - s.length) 0

/-! ### `read` -/

/-- What a `read` into `buf` leaves there. -/
def take_in (buf : Bytes) (r : Option Bytes) : Bytes :=
  match r with
  | none => buf
  | some d => d ++ buf.drop d.length

/-- What a `read` returns, as an `unsigned int`. -/
def size_of (r : Option Bytes) : Nat :=
  match r with
  | none => 2 ^ 32 - 1
  | some d => d.length

/-- How far a `read` moves the file position. -/
def moved (r : Option Bytes) : Nat :=
  match r with
  | none => 0
  | some d => d.length

/-- What `fgets` takes of a stream: its first line, as far as `n` bytes reach. -/
def gets : Nat → Bytes → Bytes
  | 0, _ => []
  | _ + 1, [] => []
  | n + 1, c :: s => if c = 10 then [c] else c :: gets n s

theorem gets_append {text : Bytes} (h : 10 ∉ text) : ∀ (n : Nat) (rest : Bytes),
    gets n (text ++ 10 :: rest) = (text ++ [10]).take n := by
  induction text with
  | nil =>
    intro n rest
    cases n with
    | zero => rfl
    | succ n =>
      rw [List.nil_append, gets, if_pos rfl]
      simp
  | cons c text ih =>
    intro n rest
    obtain ⟨hc, ht⟩ := List.ne_and_not_mem_of_not_mem_cons h
    cases n with
    | zero => rfl
    | succ n =>
      rw [List.cons_append, gets, if_neg (Ne.symm hc), ih ht, List.cons_append, List.take_succ_cons]

/-! ### Lengths and strings -/

theorem strlen_append_zero : ∀ (s m : Bytes), 0 ∉ s → strlen (s ++ 0 :: m) = some s.length := by
  intro s m
  induction s with
  | nil => intro _; rfl
  | cons c s ih =>
    intro h
    obtain ⟨hc, hs⟩ := List.ne_and_not_mem_of_not_mem_cons h
    rw [List.cons_append, strlen, if_neg (Ne.symm hc), ih hs]
    rfl

theorem str_append_zero (s m : Bytes) (h : 0 ∉ s) : str (s ++ 0 :: m) = s := by
  induction s with
  | nil => rfl
  | cons c s ih =>
    obtain ⟨hc, hs⟩ := List.ne_and_not_mem_of_not_mem_cons h
    rw [List.cons_append, str, List.takeWhile_cons_of_pos (by simpa using Ne.symm hc)]
    exact congrArg (c :: ·) (ih hs)

theorem str_of_not_mem (s : Bytes) (h : 0 ∉ s) : str s = s := by
  refine List.takeWhile_eq_self_iff.mpr fun x hx => ?_
  simp only [ne_eq, decide_eq_true_eq]
  exact fun h0 => h (h0 ▸ hx)

theorem zero_not_mem_str (m : Bytes) : 0 ∉ str m := by
  intro h
  have := List.mem_takeWhile_imp h
  simp at this

/-- Every buffer that `strlen` can read is a string, a NUL and the rest. -/
theorem eq_append_of_strlen : ∀ (m : Bytes) (n : Nat), strlen m = some n →
    ∃ s t, m = s ++ 0 :: t ∧ 0 ∉ s ∧ s.length = n := by
  intro m
  induction m with
  | nil => intro n h; cases h
  | cons c m ih =>
    intro n h
    rw [strlen] at h
    by_cases hc : c = 0
    · rw [if_pos hc] at h
      exact ⟨[], m, by rw [hc]; rfl, by simp, by simpa using h⟩
    · rw [if_neg hc] at h
      obtain ⟨k, hk, rfl⟩ := Option.map_eq_some_iff.mp h
      obtain ⟨s, t, rfl, hs, rfl⟩ := ih k hk
      exact ⟨c :: s, t, rfl, by simp [Ne.symm hc, hs], rfl⟩

theorem strlen_eq_none {m : Bytes} (h : 0 ∉ m) : strlen m = none := by
  induction m with
  | nil => rfl
  | cons c m ih =>
    obtain ⟨hc, hm⟩ := List.ne_and_not_mem_of_not_mem_cons h
    rw [strlen, if_neg (Ne.symm hc), ih hm]
    rfl

theorem lt_length_of_strlen {m : Bytes} {n : Nat} (h : strlen m = some n) : n < m.length := by
  obtain ⟨s, t, rfl, -, rfl⟩ := eq_append_of_strlen m n h
  rw [List.length_append, List.length_cons]
  omega

/-! ### Writing -/

theorem store_append {a b c : Bytes} (s : Bytes) (h : s.length = b.length) :
    store (a ++ b ++ c) a.length s = some (a ++ s ++ c) := by
  have hle : a.length + s.length ≤ (a ++ b ++ c).length := by
    simp only [List.length_append]
    omega
  rw [store, if_pos hle, h, List.append_assoc a b c, List.take_left, ← List.append_assoc,
    ← List.length_append, List.drop_left]

/-- At the start of the buffer. -/
theorem store_zero {m s : Bytes} (h : s.length ≤ m.length) :
    store m 0 s = some (s ++ m.drop s.length) := by
  rw [store, if_pos (by omega), List.take_zero, List.nil_append, Nat.zero_add]

/-- The buffer stays as long as it is. -/
theorem length_store {m m' s : Bytes} {pos : Nat} (h : store m pos s = some m') :
    m'.length = m.length := by
  unfold store at h
  split at h
  · rename_i hle
    rw [← Option.some.inj h, List.length_append, List.length_append, List.length_take,
      List.length_drop]
    omega
  · cases h

/-! ### Comparing -/

/-- `strncmp(a, b, strlen(b)) == 0` asks whether `b` begins `a`. -/
theorem strncmpEq_iff {a b : Bytes} (hb : 0 ∉ b) : strncmpEq a b b.length = true ↔ b <+: a := by
  rw [strncmpEq, List.take_left, beq_iff_eq]
  constructor
  · intro h
    have hpre : b <+: a ++ [0] := h ▸ List.take_prefix _ _
    rcases Nat.lt_or_ge a.length b.length with hlt | hge
    · -- then `b` is all of `a ++ [0]`, and contains the NUL
      exfalso
      have hlen := hpre.length_le
      rw [List.length_append, List.length_singleton] at hlen
      have heq : b = a ++ [0] := hpre.eq_of_length (by
        rw [List.length_append, List.length_singleton]; omega)
      exact hb (by rw [heq]; simp)
    · rw [List.take_append_of_le_length hge] at h
      exact h ▸ List.take_prefix _ _
  · rintro ⟨t, rfl⟩
    rw [List.append_assoc, List.take_left]

/-- `strstr` asks whether `t` stands anywhere in `s`. -/
theorem strstr_isSome_iff : ∀ {s t : Bytes}, (strstr s t).isSome = true ↔ t <:+: s := by
  intro s t
  induction s with
  | nil =>
    rw [strstr, List.infix_nil]
    split
    · simp [*]
    · simp [*]
  | cons c s ih =>
    rw [strstr, List.infix_cons_iff]
    by_cases h : t.isPrefixOf (c :: s) = true
    · rw [if_pos h]
      exact iff_of_true rfl (Or.inl (List.isPrefixOf_iff_prefix.mp h))
    · rw [if_neg h, ih]
      constructor
      · exact fun hs => Or.inr hs
      · rintro (hp | hs)
        · exact absurd (List.isPrefixOf_iff_prefix.mpr hp) h
        · exact hs

/-! ### Buffers that are zero behind their string -/

@[simp] theorem length_padded {n : Nat} {s : Bytes} (h : s.length ≤ n) :
    (padded n s).length = n := by
  rw [padded, List.length_append, List.length_replicate]
  omega

theorem padded_nil (n : Nat) : padded n [] = List.replicate n 0 := by simp [padded]

theorem padded_eq {n : Nat} {s : Bytes} (h : s.length < n) :
    padded n s = s ++ 0 :: List.replicate (n - s.length - 1) 0 := by
  rw [padded, ← List.replicate_succ]
  congr 2
  omega

theorem strlen_padded {n : Nat} {s : Bytes} (h : s.length < n) (hs : 0 ∉ s) :
    strlen (padded n s) = some s.length := by rw [padded_eq h, strlen_append_zero s _ hs]

theorem str_padded {n : Nat} {s : Bytes} (h : s.length < n) (hs : 0 ∉ s) :
    str (padded n s) = s := by rw [padded_eq h, str_append_zero s _ hs]

/-- Writing behind the string of a padded buffer lengthens the string. -/
theorem store_padded {n : Nat} {s : Bytes} (t z : Bytes) (hz : ∀ c ∈ z, c = 0)
    (h : s.length + t.length + z.length ≤ n) :
    store (padded n s) s.length (t ++ z) = some (padded n (s ++ t)) := by
  have hz' : z = List.replicate z.length 0 := List.eq_replicate_iff.mpr ⟨rfl, hz⟩
  have hsplit : padded n s
      = s ++ List.replicate (t ++ z).length 0
        ++ List.replicate (n - (s ++ t).length - z.length) 0 := by
    rw [padded, List.append_assoc, List.replicate_append_replicate]
    congr 2
    simp only [List.length_append]
    omega
  rw [hsplit, store_append _ (by rw [List.length_replicate]), padded]
  refine congrArg some ?_
  rw [← List.append_assoc s t z, List.append_assoc (s ++ t) z]
  congr 1
  conv_lhs => rw [hz', List.replicate_append_replicate]
  congr 1
  simp only [List.length_append, List.length_replicate]
  omega

theorem strncat_padded {n k : Nat} {s t : Bytes} (hs : 0 ∉ s) (hk : t.length ≤ k)
    (h : s.length + t.length < n) : strncat (padded n s) t k = some (padded n (s ++ t)) := by
  rw [strncat, strlen_padded (by omega) hs, Option.bind_some, List.take_of_length_le hk]
  exact store_padded t [0] (by simp) (by rw [List.length_singleton]; omega)

theorem strncpy_full {n : Nat} {m s : Bytes} (hm : m.length = n) (h : s.length ≤ n) :
    strncpy m s n = some (padded n s) := by
  have htake : (s ++ List.replicate n (0 : UInt8)).take n = padded n s := by
    rw [List.take_append, List.take_of_length_le h, List.take_replicate, padded]
    congr 2
    omega
  have := store_append (a := []) (b := m) (c := []) (padded n s) (by rw [length_padded h, hm])
  rw [strncpy, htake]
  simpa using this

end Boxing.C
