import Boxing.C.Str

/-!
# Walking a device tree

`libfdt` walks the structure block of a blob tag by tag, and what its functions give back is
an offset: a place in the block, or a negative error.  Here the block is the list of the tags
that `fdt_next_tag` reports from its start, and a place is the list of the tags from there on;
behind the last tag there is `FDT_END`, or the block ends too soon, or what follows is no tag
(`Stop`).

The functions that walk keep a depth as they go.  What they visit does not depend on how: the
nodes below a place, each with its depth, are `below`, and `fdt_next_node` goes from each to
the next (`fdt_next_node_cases`).  The subnodes of a node are those at depth 1 (`subnodes`),
and `fdt_first_subnode` and `fdt_next_subnode` enumerate them.
-/

namespace Boxing.Fdt

open C

/-- A tag: a property has its value and what lies in memory behind the value. -/
inductive Tag
  | begin_node (name : Bytes)
  | prop (name value behind : Bytes)
  | end_node
  | nop
deriving DecidableEq, Repr

/-- What follows the tags. -/
inductive Stop
  | fdt_end
  | truncated
  | badstructure
deriving DecidableEq, Repr

/-- A blob: the answer of `fdt_check_header`, and the structure block. -/
structure Blob where
  fdt_check_header : Int
  tags : List Tag
  stop : Stop

/-- `FDT_ERR_NOTFOUND`. -/
def FDT_ERR_NOTFOUND : Int := 1

/-- `FDT_ERR_BADOFFSET`. -/
def FDT_ERR_BADOFFSET : Int := 4

/-- `FDT_ERR_TRUNCATED`. -/
def FDT_ERR_TRUNCATED : Int := 8

/-- `FDT_ERR_BADSTRUCTURE`. -/
def FDT_ERR_BADSTRUCTURE : Int := 11

/-- What a walk gives back at `FDT_END`. -/
def Stop.code : Stop → Int
  | .fdt_end => -FDT_ERR_NOTFOUND
  | .truncated => -FDT_ERR_TRUNCATED
  | .badstructure => -FDT_ERR_BADSTRUCTURE

/-- An offset: the tags from a place on, or an error. -/
abbrev Offset := Except Int (List Tag)

/-! ### Nodes -/

/-- The loop of `fdt_next_node`, behind the tag it starts at. -/
def fdt_next_node_loop (stop : Stop) : List Tag → Int → Offset × Int
  | [], depth => (.error stop.code, depth)
  | .begin_node name :: l, depth => (.ok (.begin_node name :: l), depth + 1)
  | .end_node :: l, depth =>
    if depth - 1 < 0 then (.ok l, depth - 1) else fdt_next_node_loop stop l (depth - 1)
  | .prop _ _ _ :: l, depth => fdt_next_node_loop stop l depth
  | .nop :: l, depth => fdt_next_node_loop stop l depth

/-- `fdt_next_node(fdt, offset, &depth)`. -/
def fdt_next_node (fdt : Blob) (offset : List Tag) (depth : Int) : Offset × Int :=
  match offset with
  | .begin_node _ :: l => fdt_next_node_loop fdt.stop l depth
  | _ => (.error (-FDT_ERR_BADOFFSET), depth)

theorem fdt_next_node_loop_length {stop : Stop} {l l' : List Tag} {depth d : Int}
    (h : fdt_next_node_loop stop l depth = (.ok l', d)) : l'.length ≤ l.length := by
  induction l generalizing depth with
  | nil => simp [fdt_next_node_loop] at h
  | cons t l ih =>
    rw [List.length_cons]
    cases t with
    | begin_node name =>
      rw [fdt_next_node_loop] at h
      simp only [Prod.mk.injEq, Except.ok.injEq] at h
      rw [← h.1, List.length_cons]
    | end_node =>
      rw [fdt_next_node_loop] at h
      split at h
      · simp only [Prod.mk.injEq, Except.ok.injEq] at h
        rw [h.1]
        exact Nat.le_succ _
      · exact Nat.le_succ_of_le (ih h)
    | prop name value behind => exact Nat.le_succ_of_le (ih h)
    | nop => exact Nat.le_succ_of_le (ih h)

theorem fdt_next_node_length {fdt : Blob} {offset l' : List Tag} {depth d : Int}
    (h : fdt_next_node fdt offset depth = (.ok l', d)) : l'.length < offset.length := by
  unfold fdt_next_node at h
  split at h
  · exact Nat.lt_succ_of_le (fdt_next_node_loop_length h)
  · simp at h

/-- `fdt_first_subnode(fdt, offset)`. -/
def fdt_first_subnode (fdt : Blob) (offset : List Tag) : Offset :=
  match fdt_next_node fdt offset 0 with
  | (.error _, _) => .error (-FDT_ERR_NOTFOUND)
  | (.ok l, depth) => if depth ≠ 1 then .error (-FDT_ERR_NOTFOUND) else .ok l

/-- `do { ... } while (depth > 1);` of `fdt_next_subnode`. -/
def fdt_next_subnode_loop (fdt : Blob) (offset : List Tag) (depth : Int) : Offset :=
  match _h : fdt_next_node fdt offset depth with
  | (.error _, _) => .error (-FDT_ERR_NOTFOUND)
  | (.ok l, d) =>
    if d < 1 then .error (-FDT_ERR_NOTFOUND)
    else if 1 < d then fdt_next_subnode_loop fdt l d
    else .ok l
termination_by offset.length
decreasing_by exact fdt_next_node_length _h

/-- `fdt_next_subnode(fdt, offset)`. -/
def fdt_next_subnode (fdt : Blob) (offset : List Tag) : Offset :=
  fdt_next_subnode_loop fdt offset 1

/-- `_fdt_nodename_eq(fdt, offset, s, len)`: an `@` and what follows it may be left out. -/
def fdt_nodename_eq (offset : List Tag) (s : Bytes) : Bool :=
  match offset with
  | .begin_node name :: _ =>
    name.take s.length = s ∧ (name.length = s.length ∨ 64 ∉ s ∧ name.getD s.length 0 = 64)
  | _ => false

/-- `fdt_get_name(fdt, nodeoffset, NULL)`. -/
def fdt_get_name (offset : List Tag) : Option Bytes :=
  match offset with
  | .begin_node name :: _ => some name
  | _ => none

/-- The loop of `fdt_subnode_offset_namelen`. -/
def fdt_subnode_offset_loop (fdt : Blob) (offset : List Tag) (depth : Int) (name : Bytes) :
    Offset :=
  if depth < 0 then .error (-FDT_ERR_NOTFOUND)
  else if depth = 1 ∧ fdt_nodename_eq offset name then .ok offset
  else
    match _h : fdt_next_node fdt offset depth with
    | (.error e, d) => if d < 0 then .error (-FDT_ERR_NOTFOUND) else .error e
    | (.ok l, d) => fdt_subnode_offset_loop fdt l d name
termination_by offset.length
decreasing_by exact fdt_next_node_length _h

/-- `fdt_subnode_offset_namelen(fdt, offset, name, namelen)`. -/
def fdt_subnode_offset_namelen (fdt : Blob) (offset : List Tag) (name : Bytes) : Offset :=
  if fdt.fdt_check_header ≠ 0 then .error fdt.fdt_check_header
  else fdt_subnode_offset_loop fdt offset 0 name

/-- `while (*p && (p < end))` of `fdt_path_offset_namelen`, for as many components as `p` has
characters at most. -/
def fdt_path_offset_loop (fdt : Blob) : Nat → Bytes → List Tag → Offset
  | 0, _, offset => .ok offset
  | n + 1, p, offset =>
    match p.dropWhile (· = 47) with
    | [] => .ok offset
    | c :: p =>
      if c = 58 then .ok offset
      else
        match fdt_subnode_offset_namelen fdt offset
            ((c :: p).takeWhile fun b => b ≠ 47 ∧ b ≠ 58) with
        | .error e => .error e
        | .ok l => fdt_path_offset_loop fdt n ((c :: p).dropWhile fun b => b ≠ 47 ∧ b ≠ 58) l

/-- `fdt_path_offset(fdt, path)`, for a path that begins with a slash. -/
def fdt_path_offset (fdt : Blob) (path : Bytes) : Offset :=
  if fdt.fdt_check_header ≠ 0 then .error fdt.fdt_check_header
  else fdt_path_offset_loop fdt path.length path fdt.tags

/-! ### Properties -/

/-- The loop of `fdt_get_property_namelen`: properties come before everything else. -/
def fdt_get_property_loop (name : Bytes) : List Tag → Option (Bytes × Bytes)
  | .prop n value behind :: l =>
    if n = name then some (value, behind) else fdt_get_property_loop name l
  | .nop :: l => fdt_get_property_loop name l
  | _ => none

/-- `fdt_getprop(fdt, nodeoffset, name, &len)`: the value, and what lies behind it. -/
def fdt_getprop (offset : List Tag) (name : Bytes) : Option (Bytes × Bytes) :=
  match offset with
  | .begin_node _ :: l => fdt_get_property_loop name l
  | _ => none

/-! ### What a walk visits -/

/-- The nodes below a place, with their depths, to the end of the node the place is in. -/
def below : List Tag → Nat → List (Nat × List Tag)
  | [], _ => []
  | .begin_node name :: l, depth => (depth + 1, .begin_node name :: l) :: below l (depth + 1)
  | .end_node :: _, 0 => []
  | .end_node :: l, depth + 1 => below l depth
  | .prop _ _ _ :: l, depth => below l depth
  | .nop :: l, depth => below l depth

/-- The node the place is in comes to its end. -/
def closed : List Tag → Nat → Bool
  | [], _ => false
  | .begin_node _ :: l, depth => closed l (depth + 1)
  | .end_node :: _, 0 => true
  | .end_node :: l, depth + 1 => closed l depth
  | .prop _ _ _ :: l, depth => closed l depth
  | .nop :: l, depth => closed l depth

/-- The nodes of them at depth 1. -/
def level (l : List Tag) (depth : Nat) : List (List Tag) :=
  ((below l depth).filter fun v => v.1 = 1).map Prod.snd

/-- The direct subnodes of a node, in order. -/
def subnodes (node : List Tag) : List (List Tag) :=
  match node with
  | .begin_node _ :: l => level l 0
  | _ => []

/-- A place is at a node, or nothing can be walked from it. -/
theorem node_cases (offset : List Tag) :
    (∃ name l, offset = .begin_node name :: l) ∨ subnodes offset = [] ∧
      ∀ (fdt : Blob) (depth : Int),
        fdt_next_node fdt offset depth = (Except.error (-FDT_ERR_BADOFFSET), depth) := by
  cases offset with
  | nil => exact Or.inr ⟨rfl, fun _ _ => rfl⟩
  | cons t l =>
    cases t with
    | begin_node name => exact Or.inl ⟨name, l, rfl⟩
    | prop name value behind => exact Or.inr ⟨rfl, fun _ _ => rfl⟩
    | end_node => exact Or.inr ⟨rfl, fun _ _ => rfl⟩
    | nop => exact Or.inr ⟨rfl, fun _ _ => rfl⟩

/-- What lies below a place are nodes. -/
theorem exists_of_mem_below {l node : List Tag} {depth d : Nat} (h : (d, node) ∈ below l depth) :
    ∃ name l', node = .begin_node name :: l' := by
  induction l generalizing depth with
  | nil => cases h
  | cons t l ih =>
    cases t with
    | begin_node name =>
      rcases List.mem_cons.mp h with he | h
      · cases he
        exact ⟨name, l, rfl⟩
      · exact ih h
    | end_node =>
      cases depth with
      | zero => cases h
      | succ depth => exact ih h
    | prop name value behind => exact ih h
    | nop => exact ih h

theorem exists_of_mem_level {l node : List Tag} {depth : Nat} (h : node ∈ level l depth) :
    ∃ name l', node = .begin_node name :: l' := by
  obtain ⟨v, hv, rfl⟩ := List.mem_map.mp h
  exact exists_of_mem_below (List.mem_of_mem_filter hv)

theorem exists_of_mem_subnodes {node image : List Tag} (h : image ∈ subnodes node) :
    ∃ name l, image = .begin_node name :: l := by
  unfold subnodes at h
  split at h
  · exact exists_of_mem_level h
  · cases h

/-- **One step of a walk**: to the next node below, if there is one; otherwise out of the
node the place is in, or to where the tags stop. -/
theorem fdt_next_node_cases (fdt : Blob) (name : Bytes) (l : List Tag) (depth : Nat) :
    (∃ d n l', below l depth = (d + 1, .begin_node n :: l') :: below l' (d + 1) ∧
      closed l depth = closed l' (d + 1) ∧ d ≤ depth ∧ l'.length < l.length ∧
        fdt_next_node fdt (.begin_node name :: l) depth =
          (Except.ok (.begin_node n :: l'), ((d + 1 : Nat) : Int))) ∨
    (below l depth = [] ∧ closed l depth = true ∧
      ∃ l', fdt_next_node fdt (.begin_node name :: l) depth = (Except.ok l', -1)) ∨
    (below l depth = [] ∧ closed l depth = false ∧
      ∃ d : Nat, fdt_next_node fdt (.begin_node name :: l) depth =
        (Except.error fdt.stop.code, (d : Int))) := by
  simp only [fdt_next_node]
  induction l generalizing depth with
  | nil => exact Or.inr (Or.inr ⟨rfl, rfl, depth, rfl⟩)
  | cons t l ih =>
    -- a tag that is no node leaves everything as it is behind it
    have hrest : ∀ depth' ≤ depth, below (t :: l) depth = below l depth' →
        closed (t :: l) depth = closed l depth' →
          fdt_next_node_loop fdt.stop (t :: l) depth = fdt_next_node_loop fdt.stop l depth' →
        (∃ d n l', below (t :: l) depth = (d + 1, .begin_node n :: l') :: below l' (d + 1) ∧
          closed (t :: l) depth = closed l' (d + 1) ∧ d ≤ depth ∧ l'.length < (t :: l).length ∧
            fdt_next_node_loop fdt.stop (t :: l) depth =
              (Except.ok (.begin_node n :: l'), ((d + 1 : Nat) : Int))) ∨
        (below (t :: l) depth = [] ∧ closed (t :: l) depth = true ∧
          ∃ l', fdt_next_node_loop fdt.stop (t :: l) depth = (Except.ok l', -1)) ∨
        (below (t :: l) depth = [] ∧ closed (t :: l) depth = false ∧
          ∃ d : Nat, fdt_next_node_loop fdt.stop (t :: l) depth =
            (Except.error fdt.stop.code, (d : Int))) := by
      intro depth' hle hbelow hclosed hloop
      rw [hbelow, hclosed, hloop]
      refine (ih depth').imp_left ?_
      rintro ⟨d, n, l', hb, hc, hd, hlt, hl⟩
      exact ⟨d, n, l', hb, hc, Nat.le_trans hd hle, Nat.lt_succ_of_lt hlt, hl⟩
    cases t with
    | begin_node n =>
      exact Or.inl ⟨depth, n, l, rfl, rfl, Nat.le_refl _, Nat.lt_succ_self _, rfl⟩
    | end_node =>
      cases depth with
      | zero => exact Or.inr (Or.inl ⟨rfl, rfl, l, rfl⟩)
      | succ depth =>
        have hdepth : ((depth + 1 : Nat) : Int) - 1 = depth := by omega
        refine hrest depth (Nat.le_succ _) rfl rfl ?_
        rw [fdt_next_node_loop, hdepth, if_neg (by omega)]
    | prop n value behind => exact hrest depth (Nat.le_refl _) rfl rfl rfl
    | nop => exact hrest depth (Nat.le_refl _) rfl rfl rfl

/-! ### Subnodes -/

section Subnodes

variable {fdt : Blob} {l l' : List Tag} {name : Bytes} {depth d : Nat}

theorem level_eq_nil (h : below l depth = []) : level l depth = [] := by
  rw [level, h]
  rfl

/-- A node at depth 1 is the first of its level. -/
theorem level_eq_cons {node : List Tag} (h : below l depth = (1, node) :: below l' 1) :
    level l depth = node :: level l' 1 := by
  rw [level, h, List.filter_cons_of_pos (by simp)]
  rfl

/-- A deeper one is passed over. -/
theorem level_eq_of_deeper {node : List Tag}
    (h : below l depth = (d + 2, node) :: below l' (d + 2)) : level l depth = level l' (d + 2) := by
  rw [level, h, List.filter_cons_of_neg (by simp)]
  rfl

/-- Behind the first node of a level comes the rest of it. -/
theorem level_cases (l : List Tag) (depth : Nat) :
    level l depth = [] ∨ ∃ name l', level l depth = (.begin_node name :: l') :: level l' 1 ∧
      l'.length < l.length := by
  induction l generalizing depth with
  | nil => exact Or.inl rfl
  | cons t l ih =>
    have hrest : ∀ depth', level (t :: l) depth = level l depth' →
        level (t :: l) depth = [] ∨ ∃ name l', level (t :: l) depth =
          (.begin_node name :: l') :: level l' 1 ∧ l'.length < (t :: l).length := by
      intro depth' he
      rw [he]
      rcases ih depth' with hnil | ⟨name, l', hcons, hlt⟩
      · exact Or.inl hnil
      · exact Or.inr ⟨name, l', hcons, Nat.lt_succ_of_lt hlt⟩
    cases t with
    | begin_node name =>
      cases depth with
      | zero => exact Or.inr ⟨name, l, level_eq_cons rfl, Nat.lt_succ_self _⟩
      | succ depth => exact hrest _ (level_eq_of_deeper rfl)
    | end_node =>
      cases depth with
      | zero => exact Or.inl rfl
      | succ depth => exact hrest depth rfl
    | prop n value behind => exact hrest depth rfl
    | nop => exact hrest depth rfl

/-- What `libfdt` gives back for a list of subnodes: the first. -/
def first (nodes : List (List Tag)) : Offset :=
  match nodes with
  | [] => .error (-FDT_ERR_NOTFOUND)
  | node :: _ => .ok node

/-- **`fdt_first_subnode`** finds the first subnode. -/
theorem fdt_first_subnode_eq (fdt : Blob) (name : Bytes) (l : List Tag) :
    fdt_first_subnode fdt (.begin_node name :: l) = first (level l 0) := by
  rw [fdt_first_subnode]
  rcases fdt_next_node_cases fdt name l 0 with
    ⟨d, n, l', hbelow, -, hle, -, hnext⟩ | ⟨hbelow, -, l', hnext⟩ | ⟨hbelow, -, d, hnext⟩
  · obtain rfl : d = 0 := Nat.le_zero.mp hle
    rw [Int.natCast_zero] at hnext
    rw [hnext, level_eq_cons hbelow]
    rfl
  · rw [Int.natCast_zero] at hnext
    rw [hnext, level_eq_nil hbelow]
    rfl
  · rw [Int.natCast_zero] at hnext
    rw [hnext, level_eq_nil hbelow]
    rfl

theorem fdt_next_subnode_loop_of_ok {offset l : List Tag} {depth d : Int}
    (h : fdt_next_node fdt offset depth = (.ok l, d)) :
    fdt_next_subnode_loop fdt offset depth =
      if d < 1 then .error (-FDT_ERR_NOTFOUND)
      else if 1 < d then fdt_next_subnode_loop fdt l d
      else .ok l := by
  rw [fdt_next_subnode_loop]
  split
  · rename_i he
    rw [h] at he
    cases he
  · rename_i he
    rw [h] at he
    cases he
    rfl

theorem fdt_next_subnode_loop_of_error {offset : List Tag} {depth d e : Int}
    (h : fdt_next_node fdt offset depth = (.error e, d)) :
    fdt_next_subnode_loop fdt offset depth = .error (-FDT_ERR_NOTFOUND) := by
  rw [fdt_next_subnode_loop]
  split
  · rfl
  · rename_i he
    rw [h] at he
    cases he

/-- The loop of `fdt_next_subnode` goes to the next node at depth 1. -/
theorem fdt_next_subnode_loop_eq (fdt : Blob) (name : Bytes) (l : List Tag) (depth : Nat) :
    fdt_next_subnode_loop fdt (.begin_node name :: l) depth = first (level l depth) := by
  induction hn : l.length using Nat.strongRecOn generalizing name l depth with
  | ind n ih =>
    rcases fdt_next_node_cases fdt name l depth with
      ⟨d, n', l', hbelow, -, -, hlt, hnext⟩ | ⟨hbelow, -, l', hnext⟩ | ⟨hbelow, -, d, hnext⟩
    · rw [fdt_next_subnode_loop_of_ok hnext, if_neg (by omega)]
      cases d with
      | zero =>
        rw [if_neg (by omega), level_eq_cons hbelow]
        rfl
      | succ d =>
        rw [if_pos (by omega), ih _ (hn ▸ hlt) _ _ _ rfl, level_eq_of_deeper hbelow]
    · rw [fdt_next_subnode_loop_of_ok hnext, if_pos (by decide), level_eq_nil hbelow]
      rfl
    · rw [fdt_next_subnode_loop_of_error hnext, level_eq_nil hbelow]
      rfl

/-- **`fdt_next_subnode`** finds the one behind a subnode. -/
theorem fdt_next_subnode_eq (fdt : Blob) (name : Bytes) (l : List Tag) :
    fdt_next_subnode fdt (.begin_node name :: l) = first (level l 1) :=
  fdt_next_subnode_loop_eq fdt name l 1

theorem fdt_next_subnode_length {offset : List Tag} (h : fdt_next_subnode fdt offset = .ok l) :
    l.length < offset.length := by
  rcases node_cases offset with ⟨name, l₀, rfl⟩ | ⟨-, hnext⟩
  · rw [fdt_next_subnode_eq] at h
    rcases level_cases l₀ 1 with hnil | ⟨n, l', hcons, hlt⟩
    · rw [hnil, first] at h
      cases h
    · rw [hcons, first] at h
      obtain rfl := Except.ok.inj h
      exact Nat.succ_lt_succ hlt
  · rw [fdt_next_subnode, fdt_next_subnode_loop_of_error (hnext fdt 1)] at h
    cases h

/-! ### Paths -/

/-- What has a name is a node. -/
theorem exists_of_nodename {offset : List Tag} {s : Bytes} (h : fdt_nodename_eq offset s = true) :
    ∃ name l, offset = .begin_node name :: l := by
  unfold fdt_nodename_eq at h
  split at h
  · exact ⟨_, _, rfl⟩
  · cases h

theorem fdt_subnode_offset_loop_of_ok {offset : List Tag} {depth e : Int} {s : Bytes}
    (hdepth : 0 ≤ depth) (hname : ¬ (depth = 1 ∧ fdt_nodename_eq offset s = true))
    (h : fdt_next_node fdt offset depth = (.ok l, e)) :
    fdt_subnode_offset_loop fdt offset depth s = fdt_subnode_offset_loop fdt l e s := by
  rw [fdt_subnode_offset_loop, if_neg (Int.not_lt.mpr hdepth), if_neg hname]
  split
  · rename_i he
    rw [h] at he
    cases he
  · rename_i he
    rw [h] at he
    cases he
    rfl

theorem fdt_subnode_offset_loop_of_error {offset : List Tag} {depth d e : Int} {s : Bytes}
    (hdepth : 0 ≤ depth) (hname : ¬ (depth = 1 ∧ fdt_nodename_eq offset s = true))
    (h : fdt_next_node fdt offset depth = (.error e, d)) :
    ∃ e, fdt_subnode_offset_loop fdt offset depth s = .error e := by
  rw [fdt_subnode_offset_loop, if_neg (Int.not_lt.mpr hdepth), if_neg hname]
  split
  · split
    · exact ⟨_, rfl⟩
    · exact ⟨_, rfl⟩
  · rename_i he
    rw [h] at he
    cases he

/-- The loop of `fdt_subnode_offset_namelen` finds the first node at depth 1 with the name. -/
theorem fdt_subnode_offset_loop_iff (fdt : Blob) (s name : Bytes) (l c : List Tag) (depth : Nat)
    (hname : ¬ ((depth : Int) = 1 ∧ fdt_nodename_eq (.begin_node name :: l) s = true)) :
    fdt_subnode_offset_loop fdt (.begin_node name :: l) depth s = .ok c ↔
      (level l depth).find? (fun node => fdt_nodename_eq node s) = some c := by
  induction hn : l.length using Nat.strongRecOn generalizing name l depth with
  | ind n ih =>
    rcases fdt_next_node_cases fdt name l depth with
      ⟨d, n', l', hbelow, -, -, hlt, hnext⟩ | ⟨hbelow, -, l', hnext⟩ | ⟨hbelow, -, d, hnext⟩
    · rw [fdt_subnode_offset_loop_of_ok (Int.natCast_nonneg _) hname hnext]
      cases d with
      | zero =>
        rw [level_eq_cons hbelow]
        by_cases hfound : fdt_nodename_eq (.begin_node n' :: l') s = true
        · rw [List.find?_cons_of_pos (p := fun node => fdt_nodename_eq node s) hfound,
            fdt_subnode_offset_loop, if_neg (by decide), if_pos ⟨rfl, hfound⟩, Except.ok.injEq,
            Option.some.injEq]
        · rw [List.find?_cons_of_neg (p := fun node => fdt_nodename_eq node s) hfound]
          exact ih _ (hn ▸ hlt) n' l' 1 (fun h => hfound h.2) rfl
      | succ d =>
        rw [level_eq_of_deeper hbelow]
        exact ih _ (hn ▸ hlt) n' l' (d + 2) (fun h => absurd h.1 (by omega)) rfl
    · rw [fdt_subnode_offset_loop_of_ok (Int.natCast_nonneg _) hname hnext,
        fdt_subnode_offset_loop, if_pos (by decide), level_eq_nil hbelow]
      simp
    · obtain ⟨e, he⟩ := fdt_subnode_offset_loop_of_error (Int.natCast_nonneg _) hname hnext
      rw [he, level_eq_nil hbelow]
      simp

/-- **`fdt_subnode_offset_namelen`** finds the first subnode with the name. -/
theorem fdt_subnode_offset_namelen_iff (fdt : Blob) (node c : List Tag) (s : Bytes) :
    fdt_subnode_offset_namelen fdt node s = .ok c ↔ fdt.fdt_check_header = 0 ∧
      (subnodes node).find? (fun node => fdt_nodename_eq node s) = some c := by
  have hdepth : ¬ ((0 : Int) = 1 ∧ fdt_nodename_eq node s = true) :=
    fun h => absurd h.1 (by decide)
  rw [fdt_subnode_offset_namelen]
  split
  · rename_i hcheck
    simp [hcheck]
  rename_i hcheck
  rw [and_iff_right (not_not.mp hcheck)]
  rcases node_cases node with ⟨name, l, rfl⟩ | ⟨hnil, hnext⟩
  · exact fdt_subnode_offset_loop_iff fdt s name l c 0 hdepth
  · obtain ⟨e, he⟩ := fdt_subnode_offset_loop_of_error (Int.le_refl 0) hdepth (hnext fdt 0)
    rw [he, hnil]
    simp

theorem fdt_path_offset_loop_nil (fdt : Blob) (n : Nat) (offset : List Tag) :
    fdt_path_offset_loop fdt n [] offset = .ok offset := by
  cases n with
  | zero => rfl
  | succ n => rfl

/-- A path of one component. -/
theorem fdt_path_offset_eq (fdt : Blob) {s : Bytes} (hne : s ≠ [])
    (hs : ∀ b ∈ s, b ≠ 47 ∧ b ≠ 58) :
    fdt_path_offset fdt (47 :: s) = fdt_subnode_offset_namelen fdt fdt.tags s := by
  obtain ⟨b, t, rfl⟩ := List.exists_cons_of_ne_nil hne
  have hb := hs b (List.mem_cons_self ..)
  have hslash : (47 :: b :: t).dropWhile (· = 47) = b :: t := by
    rw [List.dropWhile_cons_of_pos (by simp), List.dropWhile_cons_of_neg (by simpa using hb.1)]
  have htake : ((b :: t).takeWhile fun b => b ≠ 47 ∧ b ≠ 58) = b :: t := by
    rw [List.takeWhile_eq_self_iff]
    intro x hx
    simpa using hs x hx
  have hdrop : ((b :: t).dropWhile fun b => b ≠ 47 ∧ b ≠ 58) = [] := by
    rw [List.dropWhile_eq_nil_iff]
    intro x hx
    simpa using hs x hx
  rw [fdt_path_offset]
  split
  · rename_i hcheck
    rw [fdt_subnode_offset_namelen, if_pos hcheck]
  · rw [List.length_cons, fdt_path_offset_loop, hslash]
    simp only [if_neg hb.2, htake, hdrop]
    cases fdt_subnode_offset_namelen fdt fdt.tags (b :: t) with
    | error e => rfl
    | ok l => exact fdt_path_offset_loop_nil fdt _ l

end Subnodes

end Boxing.Fdt
