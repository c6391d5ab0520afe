import Boxing.C.Str

/-!
# The lines of a text

`lines` parts a text at its newlines; what stands behind the last one is a line as
well, unless there is nothing.  `gets` takes one line with its newline when it has
the room, and a piece of it otherwise: `text_cases` says which of the two the
beginning of a text is.
-/

namespace Boxing.C

/-- The lines, without their newlines. -/
def lines : Bytes → List Bytes
  | [] => []
  | c :: s =>
    if c = 10 then [] :: lines s
    else
      match lines s with
      | [] => [[c]]
      | l :: ls => (c :: l) :: ls

/-- The text ends in a newline. -/
def Closed (text : Bytes) : Prop := text.getLast? = some 10

section Lines

variable {l s : Bytes} {n : Nat}

@[simp] theorem lines_nil : lines [] = [] := rfl

theorem lines_open (hl : 10 ∉ l) (hne : l ≠ []) : lines l = [l] := by
  induction l with
  | nil => exact absurd rfl hne
  | cons c l ih =>
    obtain ⟨hc, hrest⟩ := List.ne_and_not_mem_of_not_mem_cons hl
    rw [lines, if_neg (Ne.symm hc)]
    by_cases h : l = []
    · rw [h, lines_nil]
    · rw [ih hrest h]

theorem lines_append (hl : 10 ∉ l) (s : Bytes) : lines (l ++ 10 :: s) = l :: lines s := by
  induction l with
  | nil => rw [List.nil_append, lines, if_pos rfl]
  | cons c l ih =>
    obtain ⟨hc, hrest⟩ := List.ne_and_not_mem_of_not_mem_cons hl
    rw [List.cons_append, lines, if_neg (Ne.symm hc), ih hrest]

theorem lines_ne_nil (h : s ≠ []) : lines s ≠ [] := by
  cases s with
  | nil => exact absurd rfl h
  | cons c s =>
    rw [lines]
    split
    · exact List.cons_ne_nil _ _
    · split
      · exact List.cons_ne_nil _ _
      · exact List.cons_ne_nil _ _

/-- The first line begins the text. -/
theorem head_lines {c : UInt8} (hc : c ≠ 10) (s : Bytes) :
    ∃ l ls, lines (c :: s) = (c :: l) :: ls := by
  rw [lines, if_neg hc]
  split
  · exact ⟨[], [], rfl⟩
  · exact ⟨_, _, rfl⟩

theorem closed_cons {c : UInt8} (h : s ≠ []) : Closed (c :: s) ↔ Closed s := by
  rw [Closed, Closed, List.getLast?_cons_of_ne_nil h]

theorem closed_append (h : s ≠ []) (l : Bytes) : Closed (l ++ s) ↔ Closed s := by
  rw [Closed, Closed, List.getLast?_append_of_ne_nil l h]

theorem not_closed (hl : 10 ∉ l) : ¬ Closed l := fun h => hl (List.mem_of_getLast? h)

/-- A text begins with a line and its newline, or it is without one. -/
theorem text_cases (s : Bytes) : 10 ∉ s ∨ ∃ l rest, s = l ++ 10 :: rest ∧ 10 ∉ l := by
  by_cases h : (10 : UInt8) ∈ s
  · obtain ⟨l, rest, hs, hl⟩ := List.eq_append_cons_of_mem h
    exact Or.inr ⟨l, rest, hs, hl⟩
  · exact Or.inl h

/-- A text has one first line. -/
theorem first_line {l' s' : Bytes} (hl : 10 ∉ l) (hl' : 10 ∉ l')
    (h : l ++ 10 :: s = l' ++ 10 :: s') : l = l' ∧ s = s' := by
  rcases List.append_eq_append_iff.mp h with ⟨t, rfl, ht⟩ | ⟨t, rfl, ht⟩
  · cases t with
    | nil => exact ⟨(List.append_nil l).symm, (List.cons.inj ht).2⟩
    | cons c t =>
      obtain ⟨rfl, -⟩ := List.cons.inj ht
      exact absurd (by simp) hl'
  · cases t with
    | nil => exact ⟨List.append_nil l', (List.cons.inj ht).2.symm⟩
    | cons c t =>
      obtain ⟨rfl, -⟩ := List.cons.inj ht
      exact absurd (by simp) hl

/-- A line that `gets` has no room for is taken in pieces. -/
theorem gets_of_not_mem (h : 10 ∉ s.take n) : gets n s = s.take n := by
  induction s generalizing n with
  | nil => cases n <;> rfl
  | cons c s ih =>
    cases n with
    | zero => rfl
    | succ n =>
      rw [List.take_succ_cons] at h ⊢
      obtain ⟨hc, hrest⟩ := List.ne_and_not_mem_of_not_mem_cons h
      rw [gets, if_neg (Ne.symm hc), ih hrest]

theorem gets_line (hl : 10 ∉ l) (h : l.length < n) (s : Bytes) :
    gets n (l ++ 10 :: s) = l ++ [10] := by
  rw [gets_append hl, List.take_of_length_le]
  rw [List.length_append, List.length_singleton]
  omega

end Lines

end Boxing.C
