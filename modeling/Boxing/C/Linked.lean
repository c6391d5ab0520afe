import Mathlib.Data.List.Nodup
import Mathlib.Logic.Function.Basic

/-!
# Linked lists

A node holds a pointer to the next one, and a list is kept by its first and its last node.
What the last node points at does not count, nor what any node points at that is not in the
list.

`Segment next p l q` is the way from `p` to `q`, and `l` are the nodes on it.  A node is taken
off at its beginning (`Segment.pop`) and put behind its end (`Segment.push`), by one write
each; both need the nodes to be different.
-/

namespace Boxing.C

variable {α : Type} {next : α → Option α} {p q : α} {l : List α}

/-- The way from `p` to `q` along `next`. -/
inductive Segment (next : α → Option α) : α → List α → α → Prop
  | last (q : α) : Segment next q [q] q
  | cons {p p' q : α} {l : List α} (hnext : next p = some p') (h : Segment next p' l q) :
      Segment next p (p :: l) q

theorem Segment.last_mem (h : Segment next p l q) : q ∈ l := by
  induction h with
  | last q => exact List.mem_singleton_self q
  | cons _ _ ih => exact List.mem_cons_of_mem _ ih

/-- **Taking the first node off.** -/
theorem Segment.pop {p' : α} (h : Segment next p (p :: p' :: l) q) (hl : (p :: p' :: l).Nodup) :
    p ≠ q ∧ next p = some p' ∧ Segment next p' (p' :: l) q := by
  cases h with
  | cons hnext h =>
    have hne : p ≠ q := ne_of_mem_of_not_mem h.last_mem (List.nodup_cons.mp hl).1 |>.symm
    cases h with
    | last => exact ⟨hne, hnext, .last _⟩
    | cons hnext' h => exact ⟨hne, hnext, .cons hnext' h⟩

/-- **Putting a node behind the last one.**  The pointer of the last node is written, and of the
others none. -/
theorem Segment.push [DecidableEq α] (h : Segment next p l q) (hl : l.Nodup) (c : α) :
    Segment (Function.update next q (some c)) p (l ++ [c]) c := by
  induction h with
  | last q => exact .cons (Function.update_self q (some c) next) (.last c)
  | @cons p p' q l hnext h ih =>
    obtain ⟨hp, hl⟩ := List.nodup_cons.mp hl
    have hne : p ≠ q := (ne_of_mem_of_not_mem h.last_mem hp).symm
    exact .cons (by rw [Function.update_of_ne hne, hnext]) (ih hl)

end Boxing.C
