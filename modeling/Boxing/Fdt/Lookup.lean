import Boxing.Fdt.Walk

/-!
# Names and properties in memory

The rest of what `fdt_ro.c` reads: the name of a node is behind its tag, and that of a property
in the strings block, at an offset that nothing looks at.  `fdt_subnode_offset_namelen` and
`fdt_path_offset` find a node by its name, `fdt_getprop` a property of a node.

Where there is a list of tags they find what their namesakes find on the list; of a property
that is the value and the memory behind it (`Found`).
-/

namespace Boxing.Fdt.Raw

open C

/-! ### Nodes by their names -/

/-- `_fdt_nodename_eq(fdt, offset, s, len)`. -/
def fdt_nodename_eq (fdt : Bytes) (offset : Int) (s : Bytes) : Bool :=
  (fdt_offset_ptr fdt (offset + FDT_TAGSIZE) (s.length + 1)).elim false fun p =>
    (fdt.drop p).take s.length = s ∧
      (fdt.getD (p + s.length) 0 = 0 ∨ 64 ∉ s ∧ fdt.getD (p + s.length) 0 = 64)

/-- `fdt_get_name(fdt, nodeoffset, NULL)`. -/
def fdt_get_name (fdt : Bytes) (nodeoffset : Int) : Option Bytes :=
  if fdt_check_header fdt ≠ 0 ∨ check_node_offset fdt nodeoffset < 0 then none
  else some (str (memory fdt (fdt_off_dt_struct fdt + nodeoffset + FDT_TAGSIZE)))

/-- The loop of `fdt_subnode_offset_namelen`, and what is behind it. -/
def fdt_subnode_offset_loop (fdt name : Bytes) : Nat → Int → Int → Option Int
  | 0, _, _ => none
  | n + 1, offset, depth =>
    if depth < 0 then some (-FDT_ERR_NOTFOUND)
    else if offset < 0 then some offset
    else if depth = 1 ∧ fdt_nodename_eq fdt offset name then some offset
    else (fdt_next_node fdt n offset depth).bind fun r => fdt_subnode_offset_loop fdt name n r.1 r.2

/-- `fdt_subnode_offset_namelen(fdt, offset, name, namelen)`. -/
def fdt_subnode_offset_namelen (fdt : Bytes) (n : Nat) (offset : Int) (name : Bytes) : Option Int :=
  if fdt_check_header fdt ≠ 0 then some (fdt_check_header fdt)
  else fdt_subnode_offset_loop fdt name n offset 0

/-- `while (*p && (p < end))` of `fdt_path_offset_namelen`, for as many components as `p` has
characters at most. -/
def fdt_path_offset_loop (fdt : Bytes) (n : Nat) : Nat → Bytes → Int → Option Int
  | 0, _, offset => some offset
  | k + 1, p, offset =>
    match p.dropWhile (· = 47) with
    | [] => some offset
    | c :: p =>
      if c = 58 then some offset
      else
        (fdt_subnode_offset_namelen fdt n offset
            ((c :: p).takeWhile fun b => b ≠ 47 ∧ b ≠ 58)).bind fun offset =>
          if offset < 0 then some offset
          else fdt_path_offset_loop fdt n k ((c :: p).dropWhile fun b => b ≠ 47 ∧ b ≠ 58) offset

/-- `fdt_path_offset(fdt, path)`, for a path that begins with a slash. -/
def fdt_path_offset (fdt : Bytes) (n : Nat) (path : Bytes) : Option Int :=
  if fdt_check_header fdt ≠ 0 then some (fdt_check_header fdt)
  else fdt_path_offset_loop fdt n path.length path 0

/-! ### Properties -/

/-- `strnlen(p, n)`. -/
def strnlen (p : Bytes) (n : Nat) : Nat := (str (p.take n)).length

/-- `_fdt_string_eq(fdt, stroffset, s, len)`. -/
def fdt_string_eq (fdt : Bytes) (stroffset : Int) (s : Bytes) : Bool :=
  strnlen (fdt_string fdt stroffset) (s.length + 1) = s.length ∧
    (fdt_string fdt stroffset).take s.length = s

/-- `_fdt_check_prop_offset(fdt, offset)`. -/
def check_prop_offset (fdt : Bytes) (offset : Int) : Int :=
  if offset < 0 ∨ offset % FDT_TAGSIZE ≠ 0 ∨ (fdt_next_tag fdt offset).1 ≠ FDT_PROP then
    -FDT_ERR_BADOFFSET
  else (fdt_next_tag fdt offset).2

/-- `FDT_ERR_INTERNAL`. -/
def FDT_ERR_INTERNAL : Int := 13

/-- `_nextprop(fdt, offset)`. -/
def nextprop (fdt : Bytes) : Nat → Int → Option Int
  | 0, _ => none
  | n + 1, offset =>
    if (fdt_next_tag fdt offset).1 = FDT_END then
      some (if 0 ≤ (fdt_next_tag fdt offset).2 then -FDT_ERR_BADSTRUCTURE
        else (fdt_next_tag fdt offset).2)
    else if (fdt_next_tag fdt offset).1 = FDT_PROP then some offset
    else if (fdt_next_tag fdt offset).1 = FDT_NOP then nextprop fdt n (fdt_next_tag fdt offset).2
    else some (-FDT_ERR_NOTFOUND)

/-- `fdt_first_property_offset(fdt, nodeoffset)`. -/
def fdt_first_property_offset (fdt : Bytes) (n : Nat) (nodeoffset : Int) : Option Int :=
  if check_node_offset fdt nodeoffset < 0 then some (check_node_offset fdt nodeoffset)
  else nextprop fdt n (check_node_offset fdt nodeoffset)

/-- `fdt_next_property_offset(fdt, offset)`. -/
def fdt_next_property_offset (fdt : Bytes) (n : Nat) (offset : Int) : Option Int :=
  if check_prop_offset fdt offset < 0 then some (check_prop_offset fdt offset)
  else nextprop fdt n (check_prop_offset fdt offset)

/-- A word of the property at an offset. -/
def prop_word (fdt : Bytes) (offset : Int) (i : Nat) : Nat :=
  be32 (memory fdt (fdt_off_dt_struct fdt + offset)) i

/-- The loop of `fdt_get_property_namelen`: the offset of the property, or what is in `*lenp`. -/
def fdt_get_property_loop (fdt name : Bytes) : Nat → Int → Option (Except Int Int)
  | 0, _ => none
  | n + 1, offset =>
    if offset < 0 then some (.error offset)
    else if check_prop_offset fdt offset < 0 then some (.error (-FDT_ERR_INTERNAL))
    else if fdt_string_eq fdt (int32 (prop_word fdt offset 8)) name then some (.ok offset)
    else (fdt_next_property_offset fdt n offset).bind (fdt_get_property_loop fdt name n)

/-- `prop->data` and `*lenp`, of the property at an offset. -/
def prop_data (fdt : Bytes) (offset : Int) : Int × Int :=
  (fdt_off_dt_struct fdt + offset + 12, int32 (prop_word fdt offset 4))

/-- `fdt_getprop(fdt, nodeoffset, name, &len)`: the place of the value and `len`, or what is in
`len`. -/
def fdt_getprop (fdt : Bytes) (n : Nat) (nodeoffset : Int) (name : Bytes) :
    Option (Except Int (Int × Int)) :=
  ((fdt_first_property_offset fdt n nodeoffset).bind (fdt_get_property_loop fdt name n)).map
    fun r => r.map (prop_data fdt)

/-- What `fdt_getprop` gives is the value that is found on the list of tags, and what lies behind
it. -/
inductive Found (fdt : Bytes) : Option (Bytes × Bytes) → Except Int (Int × Int) → Prop
  | some {value behind : Bytes} {p : Int} (h : memory fdt p = value ++ behind) :
      Found fdt (some (value, behind)) (.ok (p, value.length))
  | none {e : Int} (he : e < 0) : Found fdt none (.error e)

variable {fdt : Bytes} {o o' : Nat} {l : List Tag} {s : Stop} {b : Blob} {n : Nat}

/-! ### What is found -/

theorem memory_natCast (fdt : Bytes) (o : Nat) : memory fdt o = fdt.drop o := by
  rw [memory, if_pos (by omega)]
  rfl

/-- A string in memory is compared like a string. -/
theorem nodename_iff {m name t s : Bytes} {P : Prop} (hmem : m = name ++ 0 :: t) (hname : 0 ∉ name)
    (hs : 0 ∉ s) :
    (m.take s.length = s ∧ (m.getD s.length 0 = 0 ∨ P ∧ m.getD s.length 0 = 64)) ↔
      name.take s.length = s ∧ (name.length = s.length ∨ P ∧ name.getD s.length 0 = 64) := by
  rcases Nat.lt_or_ge name.length s.length with hlt | hge
  · -- the NUL behind the name is not in `s`
    refine iff_of_false (fun h => hs ?_) fun h => ?_
    · have hget : (m.take s.length)[name.length]? = some 0 := by
        rw [List.getElem?_take_of_lt hlt, hmem, List.getElem?_append_right (Nat.le_refl _),
          Nat.sub_self, List.getElem?_cons_zero]
      rw [h.1] at hget
      exact List.mem_of_getElem? hget
    · have hlen := congrArg List.length h.1
      rw [List.length_take] at hlen
      omega
  · have htake : m.take s.length = name.take s.length := by
      rw [hmem, List.take_append_of_le_length hge]
    rw [htake]
    refine and_congr_right fun _ => ?_
    rcases Nat.lt_or_ge s.length name.length with hlt | hle
    · have hget : m.getD s.length 0 = name.getD s.length 0 := by
        rw [hmem, List.getD_append _ _ _ _ hlt]
      have hne : name.getD s.length 0 ≠ 0 := by
        rw [List.getD_eq_getElem _ _ hlt]
        exact fun h0 => hname (h0 ▸ List.getElem_mem hlt)
      rw [hget]
      exact or_congr (iff_of_false hne (by omega)) Iff.rfl
    · have heq : s.length = name.length := by omega
      have hget : m.getD s.length 0 = 0 := by
        rw [hmem, heq, List.getD_append_right _ _ _ _ (Nat.le_refl _), Nat.sub_self,
          List.getD_cons_zero]
      exact iff_of_true (Or.inl hget) (Or.inl heq.symm)

/-- The name of a node is inside of the blob, with its NUL. -/
theorem fits_of_begin (hm : Mapped fdt) (ho : o < 2 ^ 31)
    (h : (fdt_next_tag fdt o).1 = FDT_BEGIN_NODE) :
    Fits fdt (o + 4 + (name fdt (o + 4)).length + 1) := by
  rw [fdt_next_tag_eq hm ho] at h
  split at h
  swap
  · exact absurd h (by decide)
  cases hextent : extent fdt o with
  | none =>
    rw [hextent, Option.elim_none] at h
    exact absurd h (by decide)
  | some k =>
    rw [hextent, Option.elim_some] at h
    split at h
    swap
    · exact absurd h (by decide)
    rename_i hfits
    have hword : word fdt o = FDT_BEGIN_NODE := h
    rw [extent, if_pos hword] at hextent
    obtain rfl := Option.some.inj hextent
    exact hfits.mono (by omega)

/-- Memory that goes on behind its first string. -/
theorem exists_str_append {m : Bytes} (h : (str m).length < m.length) : ∃ t, m = str m ++ 0 :: t := by
  have h0 : 0 ∈ m := by
    by_contra hnot
    rw [str_of_not_mem m hnot] at h
    exact Nat.lt_irrefl _ h
  obtain ⟨a, t, rfl, ha⟩ := List.eq_append_cons_of_mem h0
  exact ⟨t, by rw [str_append_zero a t ha]⟩

theorem memory_of_name (hm : Mapped fdt) (h : Fits fdt (o + (name fdt o).length + 1)) :
    ∃ t, fdt.drop (fdt_off_dt_struct fdt + o) = name fdt o ++ 0 :: t := by
  have h1 := h.1
  have h2 := hm.within
  refine exists_str_append ?_
  rw [List.length_drop]
  show (name fdt o).length < _
  omega

/-- `_fdt_nodename_eq` at a node. -/
theorem fdt_nodename_eq_at (hm : Mapped fdt) (h : Place fdt o l s) {name : Bytes} {l' : List Tag}
    (hl : l = .begin_node name :: l') {t : Bytes} (ht : 0 ∉ t) (hlen : t.length < 2 ^ 31) :
    fdt_nodename_eq fdt o t = Fdt.fdt_nodename_eq l t := by
  rcases h.node_cases hm with ⟨_, _, o', hl', -, -, hname, htag⟩ | ⟨hnot, -⟩
  swap
  · exact absurd hl (hnot name l')
  rw [hl] at hl'
  cases hl'
  have hfits := fits_of_begin hm h.lt htag
  have hlt := hfits.lt hm
  obtain ⟨rest, hmem⟩ := memory_of_name hm hfits
  have h0 : 0 ∉ name := by
    rw [hname]
    exact zero_not_mem_str _
  have hcast : (o : Int) + FDT_TAGSIZE = ((o + 4 : Nat) : Int) := by
    rw [FDT_TAGSIZE]
    omega
  rw [hl, Fdt.fdt_nodename_eq, fdt_nodename_eq, hcast]
  rw [← hname] at hmem hfits hlt
  rw [fdt_offset_ptr_eq hm (by omega) (by omega)]
  by_cases hf : Fits fdt (o + 4 + (t.length + 1))
  · have hget : fdt.getD (fdt_off_dt_struct fdt + (o + 4) + t.length) 0 =
        (fdt.drop (fdt_off_dt_struct fdt + (o + 4))).getD t.length 0 := by
      rw [List.getD_eq_getElem?_getD, List.getD_eq_getElem?_getD, List.getElem?_drop]
    rw [if_pos hf, Option.elim_some, hget]
    exact decide_eq_decide.mpr (nodename_iff hmem h0 ht)
  · -- the name is shorter than what is looked for
    have hlong : name.length < t.length := Nat.lt_of_not_le fun hle => hf (hfits.mono (by omega))
    rw [if_neg hf, Option.elim_none, eq_comm, decide_eq_false_iff_not]
    intro hn
    have hlen' := congrArg List.length hn.1
    rw [List.length_take] at hlen'
    omega

/-- A walk returns a node, or has left the one it started in. -/
theorem node_of_next_node_loop {d e : Int} {l' : List Tag}
    (h : Fdt.fdt_next_node_loop s l d = (.ok l', e)) :
    (∃ name l'', l' = .begin_node name :: l'') ∨ e < 0 := by
  induction l generalizing d with
  | nil => cases h
  | cons t l ih =>
    cases t with
    | begin_node name =>
      cases h
      exact Or.inl ⟨name, l, rfl⟩
    | end_node =>
      rw [Fdt.fdt_next_node_loop] at h
      split at h
      · rename_i hd
        cases h
        exact Or.inr hd
      · exact ih h
    | prop n value behind => exact ih h
    | nop => exact ih h

theorem node_of_next_node {d e : Int} {l' : List Tag} (h : Fdt.fdt_next_node b l d = (.ok l', e)) :
    (∃ name l'', l' = .begin_node name :: l'') ∨ e < 0 := by
  unfold Fdt.fdt_next_node at h
  split at h
  · exact node_of_next_node_loop h
  · cases h

theorem fdt_subnode_offset_loop_of_next_error {depth d e : Int} {t : Bytes} (hdepth : 0 ≤ depth)
    (hname : ¬ (depth = 1 ∧ Fdt.fdt_nodename_eq l t = true))
    (h : Fdt.fdt_next_node b l depth = (.error e, d)) :
    Fdt.fdt_subnode_offset_loop b l depth t =
      if d < 0 then .error (-FDT_ERR_NOTFOUND) else .error e := by
  rw [Fdt.fdt_subnode_offset_loop, if_neg (Int.not_lt.mpr hdepth), if_neg hname]
  split
  · rename_i he
    rw [h] at he
    cases he
    rfl
  · rename_i he
    rw [h] at he
    cases he

/-- The loop of `fdt_subnode_offset_namelen`. -/
theorem fdt_subnode_offset_loop_at (hm : Mapped fdt) {t : Bytes} (ht : 0 ∉ t)
    (hlen : t.length < 2 ^ 31) (h : Place fdt o l b.stop) (depth : Int)
    (hnode : (∃ name l', l = .begin_node name :: l') ∨ depth ≠ 1) (hn : l.length + 2 ≤ n) :
    ∃ o', fdt_subnode_offset_loop fdt t n o depth = some o' ∧
      At fdt b.stop (Fdt.fdt_subnode_offset_loop b l depth t) o' := by
  induction n generalizing o l depth with
  | zero => omega
  | succ n ih =>
    rw [fdt_subnode_offset_loop]
    by_cases hdepth : depth < 0
    · rw [if_pos hdepth, Fdt.fdt_subnode_offset_loop, if_pos hdepth]
      exact ⟨_, rfl, .error (by decide)⟩
    have hname : fdt_nodename_eq fdt o t = Fdt.fdt_nodename_eq l t ∨ depth ≠ 1 := by
      rcases hnode with ⟨name, l', hl⟩ | hne
      · exact Or.inl (fdt_nodename_eq_at hm h hl ht hlen)
      · exact Or.inr hne
    have hcond : (depth = 1 ∧ fdt_nodename_eq fdt o t = true) ↔
        depth = 1 ∧ Fdt.fdt_nodename_eq l t = true := by
      refine and_congr_right fun h1 => ?_
      rw [hname.resolve_right (not_not.mpr h1)]
    rw [if_neg hdepth, if_neg (by omega)]
    by_cases hfound : depth = 1 ∧ Fdt.fdt_nodename_eq l t = true
    · rw [if_pos (hcond.mpr hfound), Fdt.fdt_subnode_offset_loop, if_neg hdepth, if_pos hfound]
      exact ⟨_, rfl, .ok h⟩
    rw [if_neg (mt hcond.mp hfound)]
    obtain ⟨o', hnext, hat⟩ := fdt_next_node_at (b := b) hm h depth (n := n) (by omega)
    rw [hnext, Option.bind_some]
    rcases hr : Fdt.fdt_next_node b l depth with ⟨r, d⟩
    rw [hr] at hat
    cases hat with
    | @ok o' l' h' =>
      have hlt := fdt_next_node_length hr
      rw [fdt_subnode_offset_loop_of_ok (Int.not_lt.mp hdepth) hfound hr]
      refine ih h' d ?_ (by omega)
      exact (node_of_next_node hr).imp_right fun hd => by omega
    | @error e he =>
      obtain ⟨n, rfl⟩ := Nat.exists_eq_add_one_of_ne_zero (n := n) (by omega)
      rw [fdt_subnode_offset_loop, fdt_subnode_offset_loop_of_next_error (Int.not_lt.mp hdepth)
        hfound hr]
      by_cases hd : d < 0
      · rw [if_pos hd, if_pos hd]
        exact ⟨_, rfl, .error (by decide)⟩
      · rw [if_neg hd, if_neg hd, if_pos he]
        exact ⟨_, rfl, .error he⟩

theorem fdt_check_header_neg (h : fdt_check_header fdt ≠ 0) : fdt_check_header fdt < 0 := by
  rw [fdt_check_header] at *
  repeat' split at *
  all_goals omega

/-- **`fdt_subnode_offset_namelen`** on the bytes and on the tags. -/
theorem fdt_subnode_offset_namelen_at (hm : Mapped fdt)
    (hb : b.fdt_check_header = fdt_check_header fdt) {t : Bytes} (ht : 0 ∉ t)
    (hlen : t.length < 2 ^ 31) (h : Place fdt o l b.stop) (hn : l.length + 2 ≤ n) :
    ∃ o', fdt_subnode_offset_namelen fdt n o t = some o' ∧
      At fdt b.stop (Fdt.fdt_subnode_offset_namelen b l t) o' := by
  rw [fdt_subnode_offset_namelen, Fdt.fdt_subnode_offset_namelen, hb]
  by_cases hcheck : fdt_check_header fdt ≠ 0
  · rw [if_pos hcheck, if_pos hcheck]
    exact ⟨_, rfl, .error (fdt_check_header_neg hcheck)⟩
  · rw [if_neg hcheck, if_neg hcheck]
    exact fdt_subnode_offset_loop_at hm ht hlen h 0 (Or.inr (by decide)) hn

theorem fdt_subnode_offset_loop_length {d : Int} {t : Bytes} {l' : List Tag}
    (h : Fdt.fdt_subnode_offset_loop b l d t = .ok l') : l'.length ≤ l.length := by
  induction hk : l.length using Nat.strongRecOn generalizing l d with
  | ind k ih =>
    subst hk
    rw [Fdt.fdt_subnode_offset_loop] at h
    split at h
    · cases h
    split at h
    · cases h
      exact Nat.le_refl _
    split at h
    · split at h
      · cases h
      · cases h
    · rename_i hnext
      have hlt := fdt_next_node_length hnext
      exact Nat.le_trans (ih _ hlt h rfl) (Nat.le_of_lt hlt)

theorem fdt_subnode_offset_namelen_length {t : Bytes} {l' : List Tag}
    (h : Fdt.fdt_subnode_offset_namelen b l t = .ok l') : l'.length ≤ l.length := by
  rw [Fdt.fdt_subnode_offset_namelen] at h
  split at h
  · cases h
  · exact fdt_subnode_offset_loop_length h

/-- The loop of `fdt_path_offset_namelen`. -/
theorem fdt_path_offset_loop_at (hm : Mapped fdt)
    (hb : b.fdt_check_header = fdt_check_header fdt) {p : Bytes} (hp : 0 ∉ p)
    (hlen : p.length < 2 ^ 31) (h : Place fdt o l b.stop) (hn : l.length + 2 ≤ n) (k : Nat) :
    ∃ o', fdt_path_offset_loop fdt n k p o = some o' ∧
      At fdt b.stop (Fdt.fdt_path_offset_loop b k p l) o' := by
  induction k generalizing p o l with
  | zero => exact ⟨o, rfl, .ok h⟩
  | succ k ih =>
    rw [fdt_path_offset_loop, Fdt.fdt_path_offset_loop]
    have hsub := List.dropWhile_sublist (l := p) (fun b => decide (b = 47))
    cases hskip : p.dropWhile (· = 47) with
    | nil => exact ⟨o, rfl, .ok h⟩
    | cons c q =>
      rw [hskip] at hsub
      simp only
      by_cases hc : c = 58
      · rw [if_pos hc, if_pos hc]
        exact ⟨o, rfl, .ok h⟩
      rw [if_neg hc, if_neg hc]
      have htake := List.takeWhile_sublist (l := c :: q) fun b => decide (b ≠ 47 ∧ b ≠ 58)
      have hdrop := List.dropWhile_sublist (l := c :: q) fun b => decide (b ≠ 47 ∧ b ≠ 58)
      obtain ⟨o', hname, hat⟩ := fdt_subnode_offset_namelen_at hm hb
        (fun h0 => hp ((htake.trans hsub).subset h0))
        (Nat.lt_of_le_of_lt (htake.trans hsub).length_le hlen) h hn
      rw [hname, Option.bind_some]
      cases hr : Fdt.fdt_subnode_offset_namelen b l
          ((c :: q).takeWhile fun b => decide (b ≠ 47 ∧ b ≠ 58)) with
      | error e =>
        rw [hr] at hat
        cases hat with
        | error he =>
          rw [if_pos he]
          exact ⟨_, rfl, .error he⟩
      | ok l' =>
        have hle := fdt_subnode_offset_namelen_length hr
        rw [hr] at hat
        cases hat with
        | ok h' =>
          rw [if_neg (by omega)]
          exact ih (fun h0 => hp ((hdrop.trans hsub).subset h0))
            (Nat.lt_of_le_of_lt (hdrop.trans hsub).length_le hlen) h' (by omega)

/-- The start of the structure block. -/
theorem Image.place (h : Image fdt b) : Place fdt 0 b.tags b.stop :=
  ⟨rfl, by decide, h.reads⟩

/-- **`fdt_path_offset`**. -/
theorem fdt_path_offset_at (hm : Mapped fdt) (hi : Image fdt b) (path : Bytes) (hp : 0 ∉ path)
    (hlen : path.length < 2 ^ 31) (hn : b.tags.length + 2 ≤ n) :
    ∃ o', fdt_path_offset fdt n path = some o' ∧
      At fdt b.stop (Fdt.fdt_path_offset b path) o' := by
  rw [fdt_path_offset, Fdt.fdt_path_offset, hi.header]
  by_cases hcheck : fdt_check_header fdt ≠ 0
  · rw [if_pos hcheck, if_pos hcheck]
    exact ⟨_, rfl, .error (fdt_check_header_neg hcheck)⟩
  · rw [if_neg hcheck, if_neg hcheck]
    exact fdt_path_offset_loop_at hm hi.header hp hlen hi.place hn _

/-- **`fdt_get_name`**. -/
theorem fdt_get_name_at (hm : Mapped fdt) (hcheck : fdt_check_header fdt = 0)
    (h : Place fdt o l s) : fdt_get_name fdt o = Fdt.fdt_get_name l := by
  rw [fdt_get_name]
  rcases h.node_cases hm with ⟨_, l', o', rfl, hoff, -, rfl, -⟩ | ⟨hnot, hoff⟩
  · have hcast : (fdt_off_dt_struct fdt : Int) + o + FDT_TAGSIZE =
        ((fdt_off_dt_struct fdt + (o + 4) : Nat) : Int) := by
      rw [FDT_TAGSIZE]
      omega
    rw [if_neg (by omega), hcast, memory_natCast]
    rfl
  · rw [hoff, if_pos (Or.inr (by decide)), Fdt.fdt_get_name]
    exact fun name l' he => absurd he (hnot name l')

/-! ### Finding a property -/

/-- The value of a property is inside of the blob. -/
theorem fits_of_prop (hm : Mapped fdt) (ho : o < 2 ^ 31) (h : (fdt_next_tag fdt o).1 = FDT_PROP)
    (hlen : 12 + word fdt (o + 4) < 2 ^ 32) : Fits fdt (o + (12 + word fdt (o + 4))) := by
  rw [fdt_next_tag_eq hm ho] at h
  split at h
  swap
  · exact absurd h (by decide)
  cases hextent : extent fdt o with
  | none =>
    rw [hextent, Option.elim_none] at h
    exact absurd h (by decide)
  | some k =>
    rw [hextent, Option.elim_some] at h
    split at h
    swap
    · exact absurd h (by decide)
    rename_i hfits
    have hword : word fdt o = FDT_PROP := h
    rw [extent, if_neg (by rw [hword]; decide), if_pos hword] at hextent
    split at hextent
    · obtain rfl := Option.some.inj hextent
      rwa [Nat.mod_eq_of_lt hlen] at hfits
    · cases hextent

/-- A place is at a property, and behind its value there are the tags of it, or it is at none. -/
theorem Place.prop_cases (hm : Mapped fdt) (h : Place fdt o l s) :
    (∃ l' o', l = property fdt o :: l' ∧ check_prop_offset fdt o = ((o' : Nat) : Int) ∧
      Place fdt o' l' s ∧ (fdt_next_tag fdt o).1 = FDT_PROP ∧
        Fits fdt (o + (12 + word fdt (o + 4)))) ∨
      (∀ name value behind l', l ≠ .prop name value behind :: l') ∧
        (fdt_next_tag fdt o).1 ≠ FDT_PROP := by
  obtain ⟨h4, ho, h⟩ := h
  have hmod : (o : Int) % FDT_TAGSIZE = 0 := by
    rw [FDT_TAGSIZE]
    omega
  cases h with
  | prop h hlen hl =>
    have htag : (fdt_next_tag fdt o).1 = FDT_PROP := by rw [h]
    refine Or.inl ⟨_, _, rfl, ?_, Place.behind hm h4 ho h (by decide) hl, htag,
      fits_of_prop hm ho htag hlen⟩
    rw [check_prop_offset, hmod, h, if_neg (by simp)]
  | stop h => exact Or.inr ⟨fun _ _ _ _ he => (by cases he), by simp [h, FDT_END, FDT_PROP]⟩
  | begin_node h hl => exact Or.inr ⟨fun _ _ _ _ he => (by cases he), by simp [h, FDT_BEGIN_NODE, FDT_PROP]⟩
  | end_node h hl => exact Or.inr ⟨fun _ _ _ _ he => (by cases he), by simp [h, FDT_END_NODE, FDT_PROP]⟩
  | nop h hl => exact Or.inr ⟨fun _ _ _ _ he => (by cases he), by simp [h, FDT_NOP, FDT_PROP]⟩

/-- Where the next property of a node is, as `fdt_get_property_loop` looks for it. -/
inductive Next (fdt : Bytes) (s : Stop) (l : List Tag) : Int → Prop
  | prop {o : Nat} {l' : List Tag} (h : Place fdt o l' s) (hle : l'.length ≤ l.length)
      (htag : (fdt_next_tag fdt o).1 = FDT_PROP)
      (hl : ∀ name, Fdt.fdt_get_property_loop name l = Fdt.fdt_get_property_loop name l') :
      Next fdt s l o
  | error {e : Int} (he : e < 0) (hl : ∀ name, Fdt.fdt_get_property_loop name l = none) : Next fdt s l e

/-- **`_nextprop`** passes over what is no tag. -/
theorem nextprop_at (hm : Mapped fdt) (h : Place fdt o l s) (hn : l.length < n) :
    ∃ r, nextprop fdt n o = some r ∧ Next fdt s l r := by
  obtain ⟨h4, ho, h⟩ := h
  induction h generalizing n with
  | @stop o nextoffset h =>
    obtain ⟨n, rfl⟩ := Nat.exists_eq_add_one_of_ne_zero (Nat.ne_zero_of_lt hn)
    refine ⟨if 0 ≤ nextoffset then -FDT_ERR_BADSTRUCTURE else nextoffset, ?_, .error ?_ fun _ => rfl⟩
    · rw [nextprop, h, if_pos rfl]
    · split
      · decide
      · omega
  | begin_node h hl ih =>
    obtain ⟨n, rfl⟩ := Nat.exists_eq_add_one_of_ne_zero (Nat.ne_zero_of_lt hn)
    refine ⟨-FDT_ERR_NOTFOUND, ?_, .error (by decide) fun _ => rfl⟩
    simp [nextprop, h, FDT_END, FDT_PROP, FDT_NOP, FDT_BEGIN_NODE]
  | @prop o o' l s h hlen hl ih =>
    obtain ⟨n, rfl⟩ := Nat.exists_eq_add_one_of_ne_zero (Nat.ne_zero_of_lt hn)
    refine ⟨o, ?_, .prop ⟨h4, ho, .prop h hlen hl⟩ (Nat.le_refl _) (by rw [h]) fun _ => rfl⟩
    simp [nextprop, h, FDT_END, FDT_PROP]
  | end_node h hl ih =>
    obtain ⟨n, rfl⟩ := Nat.exists_eq_add_one_of_ne_zero (Nat.ne_zero_of_lt hn)
    refine ⟨-FDT_ERR_NOTFOUND, ?_, .error (by decide) fun _ => rfl⟩
    simp [nextprop, h, FDT_END, FDT_PROP, FDT_NOP, FDT_END_NODE]
  | @nop o o' l s h hl ih =>
    obtain ⟨n, rfl⟩ := Nat.exists_eq_add_one_of_ne_zero (Nat.ne_zero_of_lt hn)
    have hnext := Place.behind hm h4 ho h (by decide) hl
    obtain ⟨r, hr, hat⟩ := ih (Nat.lt_of_succ_lt_succ hn) hnext.mod hnext.lt
    refine ⟨r, ?_, ?_⟩
    · rw [← hr]
      simp [nextprop, h, FDT_END, FDT_PROP, FDT_NOP]
    · cases hat with
      | prop h' hle htag hl' => exact .prop h' (Nat.le_succ_of_le hle) htag hl'
      | error he hl' => exact .error he hl'

/-- A name in the strings block is compared like a string. -/
theorem fdt_string_eq_iff (fdt : Bytes) (stroffset : Int) {t : Bytes} (ht : 0 ∉ t) :
    fdt_string_eq fdt stroffset t = true ↔ str (fdt_string fdt stroffset) = t := by
  rw [fdt_string_eq, strnlen, decide_eq_true_iff]
  generalize fdt_string fdt stroffset = m
  constructor
  · rintro ⟨hlen, htake⟩
    have hm : m = t ++ m.drop t.length := by
      rw [← List.take_append_drop t.length m, htake, List.drop_left]
    cases hrest : m.drop t.length with
    | nil =>
      rw [hm, hrest, List.append_nil]
      exact str_of_not_mem t ht
    | cons c rest =>
      rw [hrest] at hm
      by_cases hc : c = 0
      · rw [hm, hc]
        exact str_append_zero t rest ht
      · have hlong : m.take (t.length + 1) = t ++ [c] := by
          rw [hm, List.take_append, List.take_of_length_le (Nat.le_succ _), Nat.add_sub_cancel_left]
          rfl
        have hnot : 0 ∉ t ++ [c] := by
          simp [ht, Ne.symm hc]
        rw [hlong, str_of_not_mem _ hnot, List.length_append, List.length_singleton] at hlen
        omega
  · intro hstr
    by_cases h0 : 0 ∈ m
    · obtain ⟨a, rest, rfl, ha⟩ := List.eq_append_cons_of_mem h0
      rw [str_append_zero a rest ha] at hstr
      subst hstr
      rw [List.take_append, List.take_of_length_le (Nat.le_succ _), Nat.add_sub_cancel_left,
        List.take_left]
      exact ⟨congrArg List.length (str_append_zero a [] ha), rfl⟩
    · rw [str_of_not_mem m h0] at hstr
      subst hstr
      rw [List.take_of_length_le (Nat.le_succ _), List.take_length, str_of_not_mem m h0]
      exact ⟨rfl, rfl⟩

theorem be32_drop (d : Bytes) (k off : Nat) : be32 (d.drop k) off = be32 d (k + off) := by
  have hget : ∀ i, (d.drop k).getD (off + i) 0 = d.getD (k + off + i) 0 := by
    intro i
    rw [List.getD_eq_getElem?_getD, List.getD_eq_getElem?_getD, List.getElem?_drop, Nat.add_assoc]
  have h0 : (d.drop k).getD off 0 = d.getD (k + off) 0 := hget 0
  rw [be32, be32, h0, hget 1, hget 2, hget 3]

theorem prop_word_eq (fdt : Bytes) (o i : Nat) : prop_word fdt o i = word fdt (o + i) := by
  have hcast : (fdt_off_dt_struct fdt : Int) + o = ((fdt_off_dt_struct fdt + o : Nat) : Int) := by
    omega
  rw [prop_word, hcast, memory_natCast, word, be32_drop, Nat.add_assoc]

/-- The value of a property that is inside of the blob. -/
theorem prop_data_eq (hm : Mapped fdt) (h : Fits fdt (o + (12 + word fdt (o + 4)))) :
    prop_data fdt o = (((fdt_off_dt_struct fdt + (o + 12) : Nat) : Int),
      (((fdt.drop (fdt_off_dt_struct fdt + (o + 12))).take (word fdt (o + 4))).length : Int)) := by
  have hcast : (fdt_off_dt_struct fdt : Int) + o + 12 =
      ((fdt_off_dt_struct fdt + (o + 12) : Nat) : Int) := by
    omega
  have h1 := h.1
  have h2 := hm.within
  have h3 := hm.lt
  have hlen : word fdt (o + 4) ≤ fdt.length - (fdt_off_dt_struct fdt + (o + 12)) := by omega
  rw [prop_data, prop_word_eq, hcast, List.length_take, List.length_drop, Nat.min_eq_left hlen,
    int32_of_lt (by omega) (by omega)]

/-- The loop of `fdt_get_property_namelen`. -/
theorem fdt_get_property_loop_at (hm : Mapped fdt) {t : Bytes} (ht : 0 ∉ t) {r : Int}
    (h : Next fdt s l r) (hn : l.length < n) :
    ∃ v, fdt_get_property_loop fdt t n r = some v ∧
      Found fdt (Fdt.fdt_get_property_loop t l) (v.map (prop_data fdt)) := by
  induction n generalizing l r with
  | zero => exact absurd hn (Nat.not_lt_zero _)
  | succ n ih =>
    cases h with
    | error he hl =>
      rw [fdt_get_property_loop, if_pos he, hl]
      exact ⟨_, rfl, .none he⟩
    | @prop o l' h hle htag hl =>
      rcases h.prop_cases hm with ⟨l'', o', rfl, hoff, hnext, -, hfits⟩ | ⟨-, hne⟩
      swap
      · exact absurd htag hne
      rw [List.length_cons] at hle
      have hstr := fdt_string_eq_iff fdt (int32 (prop_word fdt o 8)) ht
      rw [fdt_get_property_loop, if_neg (by omega), hoff, if_neg (by omega), hl, property,
        Fdt.fdt_get_property_loop, ← prop_word_eq fdt o 8]
      by_cases hfound : str (fdt_string fdt (int32 (prop_word fdt o 8))) = t
      · rw [if_pos (hstr.mpr hfound), if_pos hfound]
        refine ⟨_, rfl, ?_⟩
        rw [Except.map, prop_data_eq hm hfits]
        refine .some ?_
        rw [memory_natCast, ← List.drop_drop (i := word fdt (o + 4)), List.take_append_drop]
      · obtain ⟨r, hr, hat⟩ := nextprop_at hm hnext (n := n) (by omega)
        rw [if_neg (mt hstr.mp hfound), if_neg hfound, fdt_next_property_offset, hoff,
          if_neg (by omega), hr, Option.bind_some]
        exact ih hat (by omega)

/-- **`fdt_getprop`** on the bytes and on the tags. -/
theorem fdt_getprop_at (hm : Mapped fdt) (h : Place fdt o l s) {t : Bytes} (ht : 0 ∉ t)
    (hn : l.length < n) :
    ∃ v, fdt_getprop fdt n o t = some v ∧ Found fdt (Fdt.fdt_getprop l t) v := by
  rw [fdt_getprop, fdt_first_property_offset]
  rcases h.node_cases hm with ⟨_, l', o', rfl, hoff, hnext, -⟩ | ⟨hnot, hoff⟩
  · obtain ⟨r, hr, hat⟩ := nextprop_at hm hnext (Nat.lt_of_succ_lt hn)
    obtain ⟨v, hv, hfound⟩ := fdt_get_property_loop_at hm ht hat (Nat.lt_of_succ_lt hn)
    rw [hoff, if_neg (by omega), hr, Option.bind_some, hv]
    exact ⟨_, rfl, hfound⟩
  · obtain ⟨n, rfl⟩ := Nat.exists_eq_add_one_of_ne_zero (Nat.ne_zero_of_lt hn)
    rw [hoff, if_pos (by decide), Option.bind_some, fdt_get_property_loop, if_pos (by decide)]
    have hnone : Fdt.fdt_getprop l t = none := by
      rw [Fdt.fdt_getprop]
      exact fun name l' he => absurd he (hnot name l')
    rw [hnone]
    exact ⟨_, rfl, .none (by decide)⟩

end Boxing.Fdt.Raw
