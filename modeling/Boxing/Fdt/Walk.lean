import Mathlib.Logic.Relation
import Boxing.Fdt.Memory

/-!
# Reading the tags from memory

`Reads` is what `fdt_next_tag` reports from a place on: the tags, each with its name and its
value, and how they stop.  It is the list that `Boxing.Fdt.Tags` walks.  A property whose length
wraps has no value, and there is no list then; in any other blob there is one
(`exists_reads_iff`), since every tag lies behind the one before it.

The functions of `fdt.c` and `fdt_ro.c` walk over the bytes.  Their loops have no bound of
their own, and are given one here, `n`; from a place where there is a list of less than `n`
tags each of them comes to its end, and at the place that its namesake on the list gives (`At`).
-/

namespace Boxing.Fdt.Raw

open C

/-! ### The list of tags -/

/-- What is in memory from a place on; before the blob there is nothing that is known. -/
def memory (fdt : Bytes) (p : Int) : Bytes := if 0 ≤ p then fdt.drop p.toNat else []

/-- `fdt_string(fdt, stroffset)`. -/
def fdt_string (fdt : Bytes) (stroffset : Int) : Bytes :=
  memory fdt (fdt_off_dt_strings fdt + stroffset)

/-- How the tags stop, by the `nextoffset` of `FDT_END`. -/
def stop (nextoffset : Int) : Stop :=
  if 0 ≤ nextoffset then .fdt_end
  else if nextoffset = -FDT_ERR_TRUNCATED then .truncated
  else .badstructure

/-- The property at a place: its name, its value, and what lies behind it. -/
def property (fdt : Bytes) (o : Nat) : Tag :=
  .prop (str (fdt_string fdt (int32 (word fdt (o + 8)))))
    ((fdt.drop (fdt_off_dt_struct fdt + (o + 12))).take (word fdt (o + 4)))
    (fdt.drop (fdt_off_dt_struct fdt + (o + 12) + word fdt (o + 4)))

/-- From `o` on `fdt_next_tag` reports the tags `l`, and then they stop. -/
inductive Reads (fdt : Bytes) : Nat → List Tag → Stop → Prop
  | stop {o : Nat} {nextoffset : Int} (h : fdt_next_tag fdt o = (FDT_END, nextoffset)) :
      Reads fdt o [] (stop nextoffset)
  | begin_node {o o' : Nat} {l : List Tag} {s : Stop}
      (h : fdt_next_tag fdt o = (FDT_BEGIN_NODE, (o' : Int))) (hl : Reads fdt o' l s) :
      Reads fdt o (.begin_node (name fdt (o + 4)) :: l) s
  | prop {o o' : Nat} {l : List Tag} {s : Stop}
      (h : fdt_next_tag fdt o = (FDT_PROP, (o' : Int))) (hlen : 12 + word fdt (o + 4) < 2 ^ 32)
      (hl : Reads fdt o' l s) : Reads fdt o (property fdt o :: l) s
  | end_node {o o' : Nat} {l : List Tag} {s : Stop}
      (h : fdt_next_tag fdt o = (FDT_END_NODE, (o' : Int))) (hl : Reads fdt o' l s) :
      Reads fdt o (.end_node :: l) s
  | nop {o o' : Nat} {l : List Tag} {s : Stop}
      (h : fdt_next_tag fdt o = (FDT_NOP, (o' : Int))) (hl : Reads fdt o' l s) :
      Reads fdt o (.nop :: l) s

/-- The tag at one place is followed by the one at the other. -/
def Follows (fdt : Bytes) (o o' : Nat) : Prop :=
  ∃ tag, fdt_next_tag fdt o = (tag, (o' : Int)) ∧ tag ≠ FDT_END

/-- A place that a walk from `o` comes to. -/
abbrev Reached (fdt : Bytes) : Nat → Nat → Prop := Relation.ReflTransGen (Follows fdt)

/-- The length of a property wraps when the twelve bytes before its value are added. -/
def Wraps (fdt : Bytes) (o : Nat) : Prop :=
  (fdt_next_tag fdt o).1 = FDT_PROP ∧ 2 ^ 32 ≤ 12 + word fdt (o + 4)

variable {fdt : Bytes} {o o' : Nat} {l : List Tag} {s : Stop}

/-- The tags stop, or there is one and then the rest of them. -/
theorem Reads.cases (h : Reads fdt o l s) :
    (l = [] ∧ ∃ nextoffset, fdt_next_tag fdt o = (FDT_END, nextoffset) ∧ s = Raw.stop nextoffset) ∨
      ∃ t l' o', l = t :: l' ∧ Follows fdt o o' ∧ ¬ Wraps fdt o ∧ Reads fdt o' l' s := by
  cases h with
  | stop h => exact Or.inl ⟨rfl, _, h, rfl⟩
  | begin_node h hl =>
    refine Or.inr ⟨_, _, _, rfl, ⟨_, h, by decide⟩, fun hwrap => ?_, hl⟩
    exact absurd (show FDT_BEGIN_NODE = FDT_PROP by simpa only [h] using hwrap.1) (by decide)
  | prop h hlen hl =>
    exact Or.inr ⟨_, _, _, rfl, ⟨_, h, by decide⟩, fun hwrap => Nat.not_le.mpr hlen hwrap.2, hl⟩
  | end_node h hl =>
    refine Or.inr ⟨_, _, _, rfl, ⟨_, h, by decide⟩, fun hwrap => ?_, hl⟩
    exact absurd (show FDT_END_NODE = FDT_PROP by simpa only [h] using hwrap.1) (by decide)
  | nop h hl =>
    refine Or.inr ⟨_, _, _, rfl, ⟨_, h, by decide⟩, fun hwrap => ?_, hl⟩
    exact absurd (show FDT_NOP = FDT_PROP by simpa only [h] using hwrap.1) (by decide)

/-- Only one place follows. -/
theorem Follows.eq {p q : Nat} (h : Follows fdt o p) (h' : Follows fdt o q) : p = q := by
  obtain ⟨tag, hp, -⟩ := h
  obtain ⟨tag', hq, -⟩ := h'
  rw [hp] at hq
  cases hq
  rfl

/-- A tag whose length does not wrap, in front of a list. -/
theorem exists_reads_of_follows (hf : Follows fdt o o') (hwrap : ¬ Wraps fdt o)
    (h : ∃ l s, Reads fdt o' l s) : ∃ l s, Reads fdt o l s := by
  obtain ⟨tag, htag, hne⟩ := hf
  obtain ⟨l, s, hl⟩ := h
  rcases fdt_next_tag_cases htag with ⟨rfl, -⟩ | ⟨-, rfl | rfl | rfl | rfl | rfl⟩
  · exact absurd rfl hne
  · exact ⟨_, s, .begin_node htag hl⟩
  · refine ⟨_, s, .prop htag (Nat.lt_of_not_le fun hle => hwrap ⟨?_, hle⟩) hl⟩
    rw [htag]
  · exact absurd rfl hne
  · exact ⟨_, s, .end_node htag hl⟩
  · exact ⟨_, s, .nop htag hl⟩

/-- What follows in a blob that is in memory lies behind. -/
theorem Follows.lt (hm : Mapped fdt) (h4 : o % 4 = 0) (ho : o < 2 ^ 31) (h : Follows fdt o o')
    (hwrap : ¬ Wraps fdt o) : o < o' ∧ o' % 4 = 0 ∧ o' < fdt_totalsize fdt + 4 := by
  obtain ⟨tag, htag, hne⟩ := h
  rcases fdt_next_tag_step hm h4 ho htag with ⟨rfl, -⟩ | ⟨k, hk, hmod, -, hlt, hzero⟩
  · exact absurd rfl hne
  · have hpos : k ≠ 0 := by
      intro hk0
      obtain ⟨hword, hlen⟩ := hzero.mp hk0
      refine hwrap ⟨?_, by omega⟩
      rcases fdt_next_tag_step hm h4 ho htag with ⟨rfl, -⟩ | ⟨-, -, -, hw, -⟩
      · exact absurd rfl hne
      · rw [htag, hw, hword]
    omega

/-- **There is a list of tags** exactly when no length wraps on the way. -/
theorem exists_reads_iff (hm : Mapped fdt) (h4 : o % 4 = 0) (ho : o < 2 ^ 31) :
    (∃ l s, Reads fdt o l s) ↔ ∀ o', Reached fdt o o' → ¬ Wraps fdt o' := by
  constructor
  · rintro ⟨l, s, h⟩ o' hreach hwraps
    induction l generalizing o with
    | nil =>
      rcases h.cases with ⟨-, nextoffset, hend, -⟩ | ⟨t, l', p, he, -⟩
      · rcases Relation.ReflTransGen.cases_head hreach with rfl | ⟨p, ⟨tag, hp, hne⟩, -⟩
        · exact absurd (show FDT_END = FDT_PROP by simpa only [hend] using hwraps.1) (by decide)
        · rw [hend] at hp
          cases hp
          exact hne rfl
      · cases he
    | cons t l ih =>
      rcases h.cases with ⟨he, -⟩ | ⟨t', l', p, he, hf, hwrap, hl⟩
      · cases he
      · cases he
        rcases Relation.ReflTransGen.cases_head hreach with rfl | ⟨q, hq, hreach⟩
        · exact hwrap hwraps
        · obtain rfl := hf.eq hq
          have hlt := hf.lt hm h4 ho hwrap
          have ht := hm.lt
          exact ih hlt.2.1 (by omega) hl hreach
  · intro hall
    induction hn : fdt_totalsize fdt + 4 - o using Nat.strongRecOn generalizing o with
    | ind n ih =>
      have hwrap := hall o .refl
      rcases htag : fdt_next_tag fdt o with ⟨tag, nextoffset⟩
      by_cases hend : tag = FDT_END
      · exact ⟨[], _, .stop (hend ▸ htag)⟩
      rcases fdt_next_tag_step hm h4 ho htag with ⟨h, -⟩ | ⟨k, rfl, -⟩
      · exact absurd h hend
      · have hf : Follows fdt o (o + k) := ⟨tag, htag, hend⟩
        have hlt := hf.lt hm h4 ho hwrap
        have ht := hm.lt
        exact exists_reads_of_follows hf hwrap (ih _ (by omega) hlt.2.1 (by omega)
          (fun o' hreach => hall o' (.head hf hreach)) rfl)

/-- A tag has four bytes or more. -/
theorem Reads.length_lt (hm : Mapped fdt) (h4 : o % 4 = 0) (ho : o < fdt_totalsize fdt + 4)
    (h : Reads fdt o l s) : 4 * l.length + o < fdt_totalsize fdt + 4 := by
  induction l generalizing o with
  | nil => simpa using ho
  | cons t l ih =>
    rcases h.cases with ⟨he, -⟩ | ⟨t', l', o', he, hf, hwrap, hl⟩
    · cases he
    · cases he
      have ht := hm.lt
      have hnext := hf.lt hm h4 (by omega) hwrap
      have hle := ih hnext.2.1 hnext.2.2 hl
      rw [List.length_cons]
      omega

/-! ### Nodes -/

/-- `_fdt_check_node_offset(fdt, offset)`. -/
def check_node_offset (fdt : Bytes) (offset : Int) : Int :=
  if offset < 0 ∨ offset % FDT_TAGSIZE ≠ 0 ∨ (fdt_next_tag fdt offset).1 ≠ FDT_BEGIN_NODE then
    -FDT_ERR_BADOFFSET
  else (fdt_next_tag fdt offset).2

/-- The loop of `fdt_next_node`: the offset it returns, and `*depth`. -/
def fdt_next_node_loop (fdt : Bytes) : Nat → Int → Int → Option (Int × Int)
  | 0, _, _ => none
  | n + 1, offset, depth =>
    if (fdt_next_tag fdt offset).1 = FDT_BEGIN_NODE then some (offset, depth + 1)
    else if (fdt_next_tag fdt offset).1 = FDT_END then
      some (if 0 ≤ (fdt_next_tag fdt offset).2 then -FDT_ERR_NOTFOUND
        else (fdt_next_tag fdt offset).2, depth)
    else if (fdt_next_tag fdt offset).1 = FDT_END_NODE then
      if depth - 1 < 0 then some ((fdt_next_tag fdt offset).2, depth - 1)
      else fdt_next_node_loop fdt n (fdt_next_tag fdt offset).2 (depth - 1)
    else fdt_next_node_loop fdt n (fdt_next_tag fdt offset).2 depth

/-- `fdt_next_node(fdt, offset, &depth)`. -/
def fdt_next_node (fdt : Bytes) (n : Nat) (offset depth : Int) : Option (Int × Int) :=
  if offset < 0 then fdt_next_node_loop fdt n 0 depth
  else if check_node_offset fdt offset < 0 then some (check_node_offset fdt offset, depth)
  else fdt_next_node_loop fdt n (check_node_offset fdt offset) depth

/-- `fdt_first_subnode(fdt, offset)`. -/
def fdt_first_subnode (fdt : Bytes) (n : Nat) (offset : Int) : Option Int :=
  (fdt_next_node fdt n offset 0).map fun r =>
    if r.1 < 0 ∨ r.2 ≠ 1 then -FDT_ERR_NOTFOUND else r.1

/-- `do { ... } while (depth > 1);` of `fdt_next_subnode`. -/
def fdt_next_subnode_loop (fdt : Bytes) : Nat → Int → Int → Option Int
  | 0, _, _ => none
  | n + 1, offset, depth =>
    (fdt_next_node fdt n offset depth).bind fun r =>
      if r.1 < 0 ∨ r.2 < 1 then some (-FDT_ERR_NOTFOUND)
      else if 1 < r.2 then fdt_next_subnode_loop fdt n r.1 r.2
      else some r.1

/-- `fdt_next_subnode(fdt, offset)`. -/
def fdt_next_subnode (fdt : Bytes) (n : Nat) (offset : Int) : Option Int :=
  fdt_next_subnode_loop fdt n offset 1

/-- A place from which the tags are `l`. -/
structure Place (fdt : Bytes) (o : Nat) (l : List Tag) (s : Stop) : Prop where
  mod : o % 4 = 0
  lt : o < 2 ^ 31
  reads : Reads fdt o l s

/-- The offset that a function returns is where its namesake is on the list of tags. -/
inductive At (fdt : Bytes) (s : Stop) : Offset → Int → Prop
  | ok {o : Nat} {l : List Tag} (h : Place fdt o l s) : At fdt s (.ok l) o
  | error {e : Int} (he : e < 0) : At fdt s (.error e) e

/-- A blob of tags that is read from memory. -/
structure Image (fdt : Bytes) (b : Blob) : Prop where
  header : b.fdt_check_header = fdt_check_header fdt
  reads : Reads fdt 0 b.tags b.stop

section Nodes

variable {b : Blob} {n : Nat}

/-- The error of a walk that comes to `FDT_END`. -/
theorem stop_code (hm : Mapped fdt) (h4 : o % 4 = 0) (ho : o < 2 ^ 31) {nextoffset : Int}
    (h : fdt_next_tag fdt o = (FDT_END, nextoffset)) :
    (if 0 ≤ nextoffset then -FDT_ERR_NOTFOUND else nextoffset) = (Raw.stop nextoffset).code := by
  rw [Raw.stop]
  rcases fdt_next_tag_step hm h4 ho h with ⟨-, rfl | rfl⟩ | ⟨k, rfl, -⟩
  · rfl
  · rfl
  · rw [if_pos (by omega), if_pos (by omega)]
    rfl

theorem code_neg (s : Stop) : s.code < 0 := by cases s <;> decide

/-- The offset behind a tag. -/
theorem next_bounds {tag : Nat} (hm : Mapped fdt) (h4 : o % 4 = 0) (ho : o < 2 ^ 31)
    (h : fdt_next_tag fdt o = (tag, (o' : Int))) (hne : tag ≠ FDT_END) :
    o' % 4 = 0 ∧ o' < 2 ^ 31 := by
  have ht := hm.lt
  rcases fdt_next_tag_step hm h4 ho h with ⟨rfl, -⟩ | ⟨k, hk, hmod, -, hlt, -⟩
  · exact absurd rfl hne
  · omega

/-- The place behind a tag. -/
theorem Place.behind {tag : Nat} (hm : Mapped fdt) (h4 : o % 4 = 0) (ho : o < 2 ^ 31)
    (h : fdt_next_tag fdt o = (tag, (o' : Int))) (hne : tag ≠ FDT_END) (hl : Reads fdt o' l s) :
    Place fdt o' l s :=
  have hnext := next_bounds hm h4 ho h hne
  ⟨hnext.1, hnext.2, hl⟩

section Loop

variable {startoffset nextoffset depth : Int}

theorem next_node_begin (h : fdt_next_tag fdt startoffset = (FDT_BEGIN_NODE, nextoffset)) :
    fdt_next_node_loop fdt (n + 1) startoffset depth = some (startoffset, depth + 1) := by
  rw [fdt_next_node_loop, h, if_pos rfl]

theorem next_node_end (h : fdt_next_tag fdt startoffset = (FDT_END, nextoffset)) :
    fdt_next_node_loop fdt (n + 1) startoffset depth =
      some (if 0 ≤ nextoffset then -FDT_ERR_NOTFOUND else nextoffset, depth) := by
  simp [fdt_next_node_loop, h, FDT_END, FDT_BEGIN_NODE]

theorem next_node_end_node (h : fdt_next_tag fdt startoffset = (FDT_END_NODE, nextoffset)) :
    fdt_next_node_loop fdt (n + 1) startoffset depth =
      if depth - 1 < 0 then some (nextoffset, depth - 1)
      else fdt_next_node_loop fdt n nextoffset (depth - 1) := by
  simp [fdt_next_node_loop, h, FDT_END, FDT_BEGIN_NODE, FDT_END_NODE]

theorem next_node_pass {tag : Nat} (h : fdt_next_tag fdt startoffset = (tag, nextoffset))
    (htag : tag = FDT_PROP ∨ tag = FDT_NOP) :
    fdt_next_node_loop fdt (n + 1) startoffset depth =
      fdt_next_node_loop fdt n nextoffset depth := by
  rcases htag with rfl | rfl
  · simp [fdt_next_node_loop, h, FDT_END, FDT_BEGIN_NODE, FDT_END_NODE, FDT_PROP]
  · simp [fdt_next_node_loop, h, FDT_END, FDT_BEGIN_NODE, FDT_END_NODE, FDT_NOP]

end Loop

/-- **The loop of `fdt_next_node`** from a place where there is a list of tags. -/
theorem fdt_next_node_loop_at (hm : Mapped fdt) (h : Place fdt o l s) (depth : Int)
    (hn : l.length < n) :
    ∃ o', fdt_next_node_loop fdt n o depth = some (o', (Fdt.fdt_next_node_loop s l depth).2) ∧
      At fdt s (Fdt.fdt_next_node_loop s l depth).1 o' := by
  obtain ⟨h4, ho, h⟩ := h
  induction h generalizing n depth with
  | stop h =>
    obtain ⟨n, rfl⟩ := Nat.exists_eq_add_one_of_ne_zero (Nat.ne_zero_of_lt hn)
    rw [next_node_end h, stop_code hm h4 ho h]
    exact ⟨_, rfl, .error (code_neg _)⟩
  | @begin_node o o' l s h hl ih =>
    obtain ⟨n, rfl⟩ := Nat.exists_eq_add_one_of_ne_zero (Nat.ne_zero_of_lt hn)
    rw [next_node_begin h]
    exact ⟨o, rfl, .ok ⟨h4, ho, .begin_node h hl⟩⟩
  | prop h hlen hl ih =>
    obtain ⟨n, rfl⟩ := Nat.exists_eq_add_one_of_ne_zero (Nat.ne_zero_of_lt hn)
    have hnext := Place.behind hm h4 ho h (by decide) hl
    rw [next_node_pass h (Or.inl rfl)]
    exact ih depth (Nat.lt_of_succ_lt_succ hn) hnext.mod hnext.lt
  | @end_node o o' l s h hl ih =>
    obtain ⟨n, rfl⟩ := Nat.exists_eq_add_one_of_ne_zero (Nat.ne_zero_of_lt hn)
    have hnext := Place.behind hm h4 ho h (by decide) hl
    rw [next_node_end_node h, Fdt.fdt_next_node_loop]
    by_cases hdepth : depth - 1 < 0
    · rw [if_pos hdepth, if_pos hdepth]
      exact ⟨o', rfl, .ok hnext⟩
    · rw [if_neg hdepth, if_neg hdepth]
      exact ih (depth - 1) (Nat.lt_of_succ_lt_succ hn) hnext.mod hnext.lt
  | nop h hl ih =>
    obtain ⟨n, rfl⟩ := Nat.exists_eq_add_one_of_ne_zero (Nat.ne_zero_of_lt hn)
    have hnext := Place.behind hm h4 ho h (by decide) hl
    rw [next_node_pass h (Or.inr rfl)]
    exact ih depth (Nat.lt_of_succ_lt_succ hn) hnext.mod hnext.lt

/-- A place is at a node, and behind its name there are the tags of it, or it is none. -/
theorem Place.node_cases (hm : Mapped fdt) (h : Place fdt o l s) :
    (∃ name l' o', l = .begin_node name :: l' ∧ check_node_offset fdt o = ((o' : Nat) : Int) ∧
      Place fdt o' l' s ∧ name = Raw.name fdt (o + 4) ∧ (fdt_next_tag fdt o).1 = FDT_BEGIN_NODE) ∨
      (∀ name l', l ≠ .begin_node name :: l') ∧ check_node_offset fdt o = -FDT_ERR_BADOFFSET := by
  obtain ⟨h4, ho, h⟩ := h
  have hmod : (o : Int) % FDT_TAGSIZE = 0 := by
    rw [FDT_TAGSIZE]
    omega
  have hcheck : check_node_offset fdt o =
      if (fdt_next_tag fdt o).1 = FDT_BEGIN_NODE then (fdt_next_tag fdt o).2
      else -FDT_ERR_BADOFFSET := by
    rw [check_node_offset, hmod]
    by_cases htag : (fdt_next_tag fdt o).1 = FDT_BEGIN_NODE
    · rw [if_neg (by simp [htag]), if_pos htag]
    · rw [if_pos (by simp [htag]), if_neg htag]
  rw [hcheck]
  cases h with
  | begin_node h hl =>
    refine Or.inl ⟨_, _, _, rfl, ?_, Place.behind hm h4 ho h (by decide) hl, rfl, by rw [h]⟩
    rw [h, if_pos rfl]
  | stop h => exact Or.inr ⟨fun _ _ he => (by cases he), by simp [h, FDT_END, FDT_BEGIN_NODE]⟩
  | prop h hlen hl =>
    exact Or.inr ⟨fun _ _ he => (by cases he), by simp [h, FDT_PROP, FDT_BEGIN_NODE]⟩
  | end_node h hl =>
    exact Or.inr ⟨fun _ _ he => (by cases he), by simp [h, FDT_END_NODE, FDT_BEGIN_NODE]⟩
  | nop h hl => exact Or.inr ⟨fun _ _ he => (by cases he), by simp [h, FDT_NOP, FDT_BEGIN_NODE]⟩

/-- **`fdt_next_node`** on the bytes and on the tags. -/
theorem fdt_next_node_at (hm : Mapped fdt) (h : Place fdt o l b.stop) (depth : Int)
    (hn : l.length ≤ n) :
    ∃ o', fdt_next_node fdt n o depth = some (o', (Fdt.fdt_next_node b l depth).2) ∧
      At fdt b.stop (Fdt.fdt_next_node b l depth).1 o' := by
  rw [fdt_next_node, if_neg (by omega)]
  rcases h.node_cases hm with ⟨name, l', o', rfl, hcheck, hnext, -⟩ | ⟨hnot, hcheck⟩
  · rw [hcheck, if_neg (by omega)]
    exact fdt_next_node_loop_at hm hnext depth hn
  · rw [hcheck, if_pos (by decide)]
    have herror : Fdt.fdt_next_node b l depth = (Except.error (-FDT_ERR_BADOFFSET), depth) := by
      rcases Fdt.node_cases l with ⟨name, l', rfl⟩ | ⟨-, herror⟩
      · exact absurd rfl (hnot name l')
      · exact herror b depth
    rw [herror]
    exact ⟨_, rfl, .error (by decide)⟩

/-- **`fdt_first_subnode`**. -/
theorem fdt_first_subnode_at (hm : Mapped fdt) (h : Place fdt o l b.stop) (hn : l.length ≤ n) :
    ∃ o', fdt_first_subnode fdt n o = some o' ∧ At fdt b.stop (Fdt.fdt_first_subnode b l) o' := by
  obtain ⟨o', hnext, hat⟩ := fdt_next_node_at hm h 0 hn
  rcases hr : Fdt.fdt_next_node b l 0 with ⟨r, depth⟩
  rw [fdt_first_subnode, hnext, Option.map_some, Fdt.fdt_first_subnode, hr]
  refine ⟨_, rfl, ?_⟩
  rw [hr] at hat
  cases hat with
  | @ok o' l' h' =>
    by_cases hdepth : depth = 1
    · simp only [hdepth, if_neg (show ¬ ((o' : Int) < 0 ∨ (1 : Int) ≠ 1) by omega)]
      exact .ok h'
    · simp only [if_pos (show (o' : Int) < 0 ∨ depth ≠ 1 from Or.inr hdepth), if_pos hdepth]
      exact .error (by decide)
  | error he =>
    simp only [if_pos (Or.inl he)]
    exact .error (by decide)

/-- The loop of `fdt_next_subnode`. -/
theorem fdt_next_subnode_loop_at (hm : Mapped fdt) (h : Place fdt o l b.stop) (depth : Int)
    (hn : l.length < n) :
    ∃ o', fdt_next_subnode_loop fdt n o depth = some o' ∧
      At fdt b.stop (Fdt.fdt_next_subnode_loop b l depth) o' := by
  induction n generalizing o l depth with
  | zero => exact absurd hn (Nat.not_lt_zero _)
  | succ n ih =>
    obtain ⟨o', hnext, hat⟩ := fdt_next_node_at hm h depth (Nat.le_of_lt_succ hn)
    rw [fdt_next_subnode_loop, hnext, Option.bind_some]
    rcases hr : Fdt.fdt_next_node b l depth with ⟨r, d⟩
    rw [hr] at hat
    cases hat with
    | @ok o' l' h' =>
      rw [fdt_next_subnode_loop_of_ok hr]
      have hlt := fdt_next_node_length hr
      by_cases h1 : d < 1
      · rw [if_pos (Or.inr h1), if_pos h1]
        exact ⟨_, rfl, .error (by decide)⟩
      rw [if_neg (by simp only; omega), if_neg h1]
      by_cases h2 : 1 < d
      · rw [if_pos h2, if_pos h2]
        exact ih h' d (by omega)
      · rw [if_neg h2, if_neg h2]
        exact ⟨_, rfl, .ok h'⟩
    | error he =>
      rw [fdt_next_subnode_loop_of_error hr, if_pos (Or.inl he)]
      exact ⟨_, rfl, .error (by decide)⟩

/-- **`fdt_next_subnode`**. -/
theorem fdt_next_subnode_at (hm : Mapped fdt) (h : Place fdt o l b.stop) (hn : l.length < n) :
    ∃ o', fdt_next_subnode fdt n o = some o' ∧ At fdt b.stop (Fdt.fdt_next_subnode b l) o' :=
  fdt_next_subnode_loop_at hm h 1 hn

end Nodes

/-! ### Walks without an end -/

/-- The loop of `fdt_next_node` comes from `o` to `p`, without a node on the way. -/
inductive Passed (fdt : Bytes) : Nat → Int → Nat → Prop
  | here (o : Nat) (depth : Int) : Passed fdt o depth o
  | pass {o o' p tag : Nat} {depth : Int} (h : fdt_next_tag fdt o = (tag, (o' : Int)))
      (htag : tag = FDT_PROP ∨ tag = FDT_NOP) (hp : Passed fdt o' depth p) : Passed fdt o depth p
  | end_node {o o' p : Nat} {depth : Int} (h : fdt_next_tag fdt o = (FDT_END_NODE, (o' : Int)))
      (hdepth : ¬ depth - 1 < 0) (hp : Passed fdt o' (depth - 1) p) : Passed fdt o depth p

/-- A property with its length inside of the blob, which is followed by itself. -/
def Stuck (fdt : Bytes) (o : Nat) : Prop := Stays fdt o ∧ Fits fdt (o + 8)

instance (fdt : Bytes) (o : Nat) : Decidable (Stuck fdt o) := by
  unfold Stuck Stays
  infer_instance

/-- The length of a property that is found is inside of the blob. -/
theorem fits_of_found (hm : Mapped fdt) (ho : o < 2 ^ 31)
    (h : (fdt_next_tag fdt o).1 = FDT_PROP) : Fits fdt (o + 8) := by
  rw [fdt_next_tag_eq hm ho] at h
  split at h
  swap
  · exact absurd h (by decide)
  cases hextent : extent fdt o with
  | none =>
    rw [hextent, Option.elim_none] at h
    exact absurd h (by decide)
  | some k =>
    rw [hextent, Option.elim_some] at h
    split at h
    swap
    · exact absurd h (by decide)
    have hword : word fdt o = FDT_PROP := h
    rw [extent, if_neg (by rw [hword]; decide), if_pos hword] at hextent
    split at hextent
    · assumption
    · cases hextent

theorem Stuck.next_tag (hm : Mapped fdt) (h4 : o % 4 = 0) (ho : o < 2 ^ 31) (h : Stuck fdt o) :
    fdt_next_tag fdt o = (FDT_PROP, (o : Int)) := by
  obtain ⟨⟨hword, hlen⟩, hfits⟩ := h
  have hextent : extent fdt o = some 0 := by
    rw [extent, if_neg (by rw [hword]; decide), if_pos hword, if_pos hfits, hlen]
    rfl
  have hround : (o + 0 + 3) / 4 * 4 = o := by omega
  rw [fdt_next_tag_eq hm ho, if_pos (hfits.mono (by omega)), hextent, Option.elim_some,
    if_pos (hfits.mono (by omega)), hword, hround]

/-- From a place that is stuck the loop does not come to its end. -/
theorem Stuck.loop (hm : Mapped fdt) (h4 : o % 4 = 0) (ho : o < 2 ^ 31) (h : Stuck fdt o)
    (n : Nat) (depth : Int) : fdt_next_node_loop fdt n o depth = none := by
  induction n with
  | zero => rfl
  | succ n ih => rw [next_node_pass (h.next_tag hm h4 ho) (Or.inl rfl), ih]

/-- The loop does not come to its end exactly when it comes to a place that is stuck. -/
theorem fdt_next_node_loop_hangs_iff (hm : Mapped fdt) (h4 : o % 4 = 0) (ho : o < 2 ^ 31)
    (depth : Int) :
    (∀ n, fdt_next_node_loop fdt n o depth = none) ↔ ∃ p, Passed fdt o depth p ∧ Stuck fdt p := by
  constructor
  · intro hnone
    induction hk : fdt_totalsize fdt + 4 - o using Nat.strongRecOn generalizing o depth with
    | ind k ih =>
      by_cases hstuck : Stuck fdt o
      · exact ⟨o, .here o depth, hstuck⟩
      have hone := hnone 1
      rcases htag : fdt_next_tag fdt o with ⟨tag, nextoffset⟩
      -- what is not stuck is followed by what lies behind it
      have hbehind : tag ≠ FDT_END → ∃ o' : Nat, nextoffset = (o' : Int) ∧ o < o' ∧ o' % 4 = 0 ∧
          o' < 2 ^ 31 ∧ fdt_totalsize fdt + 4 - o' < k := by
        intro hne
        have ht := hm.lt
        rcases fdt_next_tag_step hm h4 ho htag with ⟨h, -⟩ | ⟨j, hj, hmod, htagj, hlt, hzero⟩
        · exact absurd h hne
        have hpos : j ≠ 0 := by
          intro hj0
          have hstays := hzero.mp hj0
          refine hstuck ⟨hstays, fits_of_found hm ho ?_⟩
          rw [htag, htagj, hstays.1]
        exact ⟨o + j, hj, by omega, by omega, by omega, by omega⟩
      rcases fdt_next_tag_cases htag with ⟨rfl, -⟩ | ⟨-, rfl | rfl | rfl | rfl | rfl⟩
      · rw [next_node_end htag] at hone
        cases hone
      · rw [next_node_begin htag] at hone
        cases hone
      · obtain ⟨o', rfl, -, hmod, hlt, hless⟩ := hbehind (by decide)
        obtain ⟨p, hp, hs⟩ := ih _ hless hmod hlt depth
          (fun n => by rw [← next_node_pass htag (Or.inl rfl)]; exact hnone (n + 1)) rfl
        exact ⟨p, .pass htag (Or.inl rfl) hp, hs⟩
      · rw [next_node_end htag] at hone
        cases hone
      · obtain ⟨o', rfl, -, hmod, hlt, hless⟩ := hbehind (by decide)
        have hdepth : ¬ depth - 1 < 0 := by
          intro hlt
          rw [next_node_end_node htag, if_pos hlt] at hone
          cases hone
        obtain ⟨p, hp, hs⟩ := ih _ hless hmod hlt (depth - 1)
          (fun n => by
            have hn := hnone (n + 1)
            rwa [next_node_end_node htag, if_neg hdepth] at hn) rfl
        exact ⟨p, .end_node htag hdepth hp, hs⟩
      · obtain ⟨o', rfl, -, hmod, hlt, hless⟩ := hbehind (by decide)
        obtain ⟨p, hp, hs⟩ := ih _ hless hmod hlt depth
          (fun n => by rw [← next_node_pass htag (Or.inr rfl)]; exact hnone (n + 1)) rfl
        exact ⟨p, .pass htag (Or.inr rfl) hp, hs⟩
  · rintro ⟨p, hp, hs⟩
    induction hp with
    | here o depth => exact fun n => hs.loop hm h4 ho n depth
    | pass h htag hp ih =>
      have hnext := next_bounds hm h4 ho h (by rcases htag with rfl | rfl <;> decide)
      intro n
      cases n with
      | zero => rfl
      | succ n =>
        rw [next_node_pass h htag]
        exact ih hnext.1 hnext.2 hs n
    | end_node h hdepth hp ih =>
      have hnext := next_bounds hm h4 ho h (by decide)
      intro n
      cases n with
      | zero => rfl
      | succ n =>
        rw [next_node_end_node h, if_neg hdepth]
        exact ih hnext.1 hnext.2 hs n

/-- **`fdt_next_node` does not return** exactly when it is at a node, and there is a property on the
way from it whose length is `-12`: before the next node, and before the `FDT_END_NODE` that takes the
depth below zero. -/
theorem fdt_next_node_hangs_iff (hm : Mapped fdt) (ho : o < 2 ^ 31) (depth : Int) :
    (∀ n, fdt_next_node fdt n o depth = none) ↔ o % 4 = 0 ∧ ∃ o' p : Nat,
      fdt_next_tag fdt o = (FDT_BEGIN_NODE, (o' : Int)) ∧ Passed fdt o' depth p ∧ Stuck fdt p := by
  have hnode : ∀ n, fdt_next_node fdt n o depth =
      if check_node_offset fdt o < 0 then some (check_node_offset fdt o, depth)
      else fdt_next_node_loop fdt n (check_node_offset fdt o) depth := fun n => by
    rw [fdt_next_node, if_neg (by omega)]
  by_cases hat : o % 4 = 0 ∧ (fdt_next_tag fdt o).1 = FDT_BEGIN_NODE
  · obtain ⟨h4, htag⟩ := hat
    rcases hnext : fdt_next_tag fdt o with ⟨tag, nextoffset⟩
    obtain rfl : tag = FDT_BEGIN_NODE := by rw [← htag, hnext]
    rcases fdt_next_tag_step hm h4 ho hnext with ⟨h, -⟩ | ⟨k, rfl, -⟩
    · exact absurd h (by decide)
    have hcheck : check_node_offset fdt o = ((o + k : Nat) : Int) := by
      rw [check_node_offset, hnext, if_neg]
      rw [FDT_TAGSIZE]
      omega
    have hbounds := next_bounds hm h4 ho hnext (by decide)
    have hloop := fdt_next_node_loop_hangs_iff hm hbounds.1 hbounds.2 depth
    have hsame : ∀ n, fdt_next_node fdt n o depth = fdt_next_node_loop fdt n (o + k : Nat) depth :=
      fun n => by rw [hnode, hcheck, if_neg (by omega)]
    simp only [hsame, hloop]
    constructor
    · rintro ⟨p, hp, hs⟩
      exact ⟨h4, o + k, p, rfl, hp, hs⟩
    · rintro ⟨-, o', p, he, hp, hs⟩
      have ho' : o + k = o' := by
        have := congrArg Prod.snd he
        simp only at this
        omega
      exact ⟨p, ho' ▸ hp, hs⟩
  · have hcheck : check_node_offset fdt o = -FDT_ERR_BADOFFSET := by
      rw [check_node_offset, if_pos]
      rcases not_and_or.mp hat with h4 | htag
      · refine Or.inr (Or.inl ?_)
        rw [FDT_TAGSIZE]
        omega
      · exact Or.inr (Or.inr htag)
    refine iff_of_false (fun h => ?_) fun h => ?_
    · have hzero := h 0
      rw [hnode, hcheck, if_pos (by decide)] at hzero
      cases hzero
    · obtain ⟨h4, o', p, he, -⟩ := h
      exact hat ⟨h4, by rw [he]⟩

/-- A blob of one node, with a property whose length is `-12`. -/
def stuckBlob : Bytes :=
  [0xd00dfeed, 60, 40, 60, 40, 17, 16, 0, 0, 20, FDT_BEGIN_NODE, 0, FDT_PROP, 2 ^ 32 - 12,
    0].flatMap htonl

/-- From that node there is no next one, ever. -/
theorem fdt_next_node_hangs_stuckBlob :
    Mapped stuckBlob ∧ ∀ n, fdt_next_node stuckBlob n 0 0 = none := by
  have hm : Mapped stuckBlob := ⟨by decide, by decide⟩
  refine ⟨hm, (fdt_next_node_hangs_iff hm (by decide) 0).mpr ?_⟩
  exact ⟨rfl, 8, 8, by decide +kernel, .here 8 0, by decide +kernel⟩

end Boxing.Fdt.Raw
