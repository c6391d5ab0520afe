import Boxing.Unix.Path

/-!
# `rm` and the shell

A shell parts a plain command at its blanks and hands the words over.  What it makes of the
other characters is not said here: such a command may do anything, also when it is an error of
syntax and nothing is run at all.

`rm -rf` does not take an operand whose last name is `.` or `..`, and it does not remove the
root.  Everything at and below the path of another one may go; it is not said that it does.
-/

namespace Boxing.Unix

open C

/-- The characters with a meaning of their own, and the end of the text.  Braces are names of
commands, and characters like others in an argument. -/
def special : Bytes := 0 :: asc "\n|&;<>()$\\\"'*?[" ++ [96]

/-- A blank or a tab. -/
def isBlank (c : UInt8) : Bool := c = 32 || c = 9

/-- The words of a text. -/
def words (text : Bytes) : List Bytes := (text.splitOnP isBlank).filter (· ≠ [])

/-- The words behind the first two of them. -/
def operands (text : Bytes) : List Bytes := (words text).drop 2

/-- A shell hands the words over as they are, and they are no options. -/
structure Plain (text : Bytes) : Prop where
  chars : ∀ c ∈ text, c ∉ special
  words : ∀ word ∈ operands text, word.head? ≠ some 45 ∧ word.head? ≠ some 35 ∧ word.head? ≠ some 126

/-- `rm` does not take it: it is made of slashes, or its last name is a dot or two. -/
def Refused (operand : Bytes) : Prop :=
  names operand = [] ∨ (names operand).getLast? = some dot ∨ (names operand).getLast? = some dotdot

/-- What a removal takes with it. -/
def Reach : (deep : Bool) → Path → Path → Prop
  | true, q, p => q <+: p
  | false, q, p => p = q

/-- An operand of `rm -rf`, or, not deep, the argument of `remove`.  Whether a directory is
empty is not looked at. -/
def Rm (deep : Bool) (cwd : Path) (operand : Bytes) (fs fs' : Fs) : Prop :=
  fs' = fs ∨ ¬ Refused operand ∧
    ∃ q, resolve fs cwd operand = some q ∧ q ≠ [] ∧ Lost (Reach deep q) fs fs'

/-- The operands, one after the other. -/
def RmAll (cwd : Path) : List Bytes → Fs → Fs → Prop
  | [], fs, fs' => fs' = fs
  | operand :: rest, fs, fs' => ∃ fs₁, Rm true cwd operand fs fs₁ ∧ RmAll cwd rest fs₁ fs'

/-- `system` of `rm -rf` and its operands. -/
def ShellRm (cwd : Path) (text : Bytes) (fs fs' : Fs) : Prop :=
  Plain text → RmAll cwd (operands text) fs fs'

section Removal

variable {cwd : Path} {text : Bytes} {fs fs' : Fs} {operand : Bytes} {rest : List Bytes} {deep : Bool}

/-- The test for both, character by character. -/
theorem chars_iff_all : (text.all fun c => !special.contains c && !isBlank c) = true ↔
    ∀ c ∈ text, c ∉ special ∧ isBlank c = false := by
  simp

theorem words_append (s t : Bytes) : words (s ++ 32 :: t) = words s ++ words t := by
  rw [words, List.splitOnP_append_cons s t (by decide), List.filter_append]
  rfl

/-- A text without blanks is one word. -/
theorem words_eq_singleton (h : ∀ c ∈ text, isBlank c = false) (hne : text ≠ []) :
    words text = [text] := by
  rw [words, List.splitOnP_eq_singleton h, List.filter_cons_of_pos (by simpa using hne)]
  rfl

/-- No word has a blank in it. -/
theorem not_isBlank_of_mem_words {word : Bytes} {c : UInt8} (h : word ∈ words text) (hc : c ∈ word) :
    isBlank c = false := by
  have hsplit := (List.mem_filter.mp h).1
  clear h
  induction text generalizing word with
  | nil =>
    rw [List.splitOnP_nil, List.mem_singleton] at hsplit
    rw [hsplit] at hc
    cases hc
  | cons x text ih =>
    rw [List.splitOnP_cons_eq_if_modifyHead] at hsplit
    split at hsplit
    · rcases List.mem_cons.mp hsplit with rfl | h
      · cases hc
      · exact ih hc h
    · rename_i hx
      obtain ⟨first, others, hs⟩ := List.exists_cons_of_ne_nil (List.splitOnP_ne_nil isBlank text)
      rw [hs] at ih hsplit
      rw [List.modifyHead_cons] at hsplit
      rcases List.mem_cons.mp hsplit with rfl | h
      · rcases List.mem_cons.mp hc with rfl | hc
        · simpa using hx
        · exact ih hc List.mem_cons_self
      · exact ih hc (List.mem_cons_of_mem _ h)

/-- Every operand may be left alone. -/
theorem RmAll.refl (cwd : Path) (rest : List Bytes) (fs : Fs) : RmAll cwd rest fs fs := by
  induction rest with
  | nil => rfl
  | cons operand rest ih => exact ⟨fs, Or.inl rfl, ih⟩

/-- One operand is dealt with, and the others are left alone. -/
theorem rmAll_of_mem (h : operand ∈ rest) (hrm : Rm true cwd operand fs fs') :
    RmAll cwd rest fs fs' := by
  induction rest with
  | nil => cases h
  | cons x rest ih =>
    rcases List.mem_cons.mp h with rfl | h
    · exact ⟨fs', hrm, RmAll.refl cwd rest fs'⟩
    · exact ⟨fs, Or.inl rfl, ih h⟩

/-- The files at and below a path go. -/
def without (deep : Bool) (q : Path) (fs : Fs) [DecidablePred (Reach deep q)] : Fs :=
  fun p => if Reach deep q p then none else fs p

instance (deep : Bool) (q : Path) : DecidablePred (Reach deep q) := fun p =>
  match deep with
  | true => inferInstanceAs (Decidable (q <+: p))
  | false => inferInstanceAs (Decidable (p = q))

theorem Reach.refl (deep : Bool) (q : Path) : Reach deep q q := by
  cases deep
  · exact rfl
  · exact List.prefix_rfl

theorem Reach.below {deep : Bool} {q p : Path} (h : Reach deep q p) : q <+: p := by
  cases deep
  · obtain rfl : p = q := h
    exact List.prefix_rfl
  · exact h

theorem rm_without {q : Path} (hr : ¬ Refused operand) (hq : resolve fs cwd operand = some q)
    (hne : q ≠ []) : Rm deep cwd operand fs (without deep q fs) := by
  refine Or.inr ⟨hr, q, hq, hne, fun p => ?_⟩
  by_cases hp : Reach deep q p
  · exact Or.inr ⟨if_pos hp, hp⟩
  · exact Or.inl (if_neg hp)

/-- What is not refused is not the root, where there are no links. -/
theorem go_parts_ne_nil (cur : Path) (hr : ¬ Refused operand) : go cur (parts operand) ≠ [] := by
  rw [Refused, not_or, not_or] at hr
  obtain ⟨hne, hdot, hdotdot⟩ := hr
  rw [List.getLast?_eq_some_getLast hne] at hdot hdotdot
  have hplain : ∀ d ∈ [(names operand).getLast hne], d ≠ dot ∧ d ≠ dotdot := by
    intro d hd
    obtain rfl := List.mem_singleton.mp hd
    exact ⟨fun h => hdot (congrArg some h), fun h => hdotdot (congrArg some h)⟩
  rw [go_parts, ← List.dropLast_append_getLast hne, go_append, go_plain hplain]
  exact List.append_ne_nil_of_right_ne_nil _ (List.cons_ne_nil _ _)

/-- With directories everywhere, what is not refused can be removed. -/
theorem rm_dirs (deep : Bool) (cwd : Path) (hr : ¬ Refused operand) :
    Rm deep cwd operand (fun _ => some .dir)
      (without deep (go (origin cwd operand) (parts operand)) fun _ => some .dir) :=
  rm_without hr (walk_dirs _ _ _) (go_parts_ne_nil _ hr)

end Removal

end Boxing.Unix
