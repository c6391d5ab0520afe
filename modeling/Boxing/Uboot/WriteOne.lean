import Boxing.Uboot.Env

/-!
# What `write_ubootcfg` does to the list

The comment over `write_ubootcfg` says `uboot cfg format: var=value`, and the
function is to replace one variable: `update` is that, on the list of entries.

The code drops an entry when `var` begins its text (`strncmp(ptmp, var,
strlen(var))`), not when `var` is its name, so writing `ethaddr` takes `ethaddr2`
along.  And it clears only as far as the old list reached, so a list that grows
can come to stand directly before old bytes and go on into them.
`write_ubootcfg_iff` says that nothing else goes wrong: without these two the
block holds exactly the updated list, and with either it does not.
-/

namespace Boxing.Uboot

open C Device

/-- The name of an entry: its text before the first `=`. -/
def nameOf (e : Bytes) : Bytes := e.takeWhile (· ≠ 61)

/-- The list with the variable `var` set: the entries of other names in their
order, and the new one. -/
def update (es : List Bytes) (var value : Bytes) : List Bytes :=
  (es.filter fun e => nameOf e ≠ var) ++ [entry var value]

/-- What the copy loop keeps of a list: the entries `var` does not begin. -/
def keptBy (var : Bytes) (es : List Bytes) : List Bytes :=
  es.filter fun e => !strncmpEq e var var.length

section Entry

variable {var value : Bytes}

theorem nameOf_entry (hvar : 61 ∉ var) : nameOf (entry var value) = var := by
  have hpos : ∀ c ∈ var, decide (c ≠ 61) = true := fun c hc => by
    simp only [ne_eq, decide_eq_true_eq]
    exact fun h => hvar (h ▸ hc)
  have hd : asc "=" = [61] := by decide
  rw [nameOf, entry, List.append_assoc, List.takeWhile_append_of_pos hpos, hd,
    List.singleton_append, List.takeWhile_cons_of_neg (by simp), List.append_nil]

theorem entry_ne_nil : entry var value ≠ [] := by
  have hd : asc "=" = [61] := by decide
  rw [entry, hd]
  simp

theorem zero_not_mem_entry (hvar : 0 ∉ var) (hvalue : 0 ∉ value) : 0 ∉ entry var value := by
  have hd : asc "=" = [61] := by decide
  rw [entry, hd]
  simp [hvar, hvalue]

/-- An entry begins with its name. -/
theorem nameOf_prefix (e : Bytes) : nameOf e <+: e := List.takeWhile_prefix _

theorem prefix_of_nameOf_eq {e : Bytes} (h : nameOf e = var) : var <+: e := h ▸ nameOf_prefix e

end Entry

/-! ### The data area the code leaves -/

section Write

variable {var value tail : Bytes} {es : List Bytes}

/-- The data area behind the list: zeros where the old list was, then the old
bytes. -/
def behind (es : List Bytes) (tail : Bytes) : Bytes :=
  List.replicate ((pack es).length + 1) 0 ++ tail

/-- **What `write_ubootcfg` puts in the data area** when the list fits: the kept
entries, the new one, and whatever lay behind. -/
theorem build_single_pack (hes : Entries es)
    (hfit : (pack (keptBy var es ++ [entry var value])).length
      ≤ (pack es ++ 0 :: tail).length) :
    build_single var value (pack es ++ 0 :: tail) (pack es).length
      = some (pack (keptBy var es ++ [entry var value])
          ++ (behind es tail).drop (pack (keptBy var es ++ [entry var value])).length) := by
  have hle := length_pack_filter_le (fun e => !strncmpEq e var var.length) es
  have hcat : (pack (keptBy var es ++ [entry var value])).length
      = (pack (keptBy var es)).length + ((entry var value).length + 1) := by
    rw [pack_concat, List.length_append, List.length_append, List.length_singleton]
  rw [hcat, List.length_append, List.length_cons] at hfit
  rw [build_single, refill_pack hes tail (d := fun e => strncmpEq e var var.length)
    fun e _ => rfl, Option.bind_some]
  show strcpy (pack (keptBy var es) ++ (behind es tail).drop (pack (keptBy var es)).length)
    (pack (keptBy var es)).length (entry var value) = _
  rw [strcpy_at _ _ _ (by
    rw [List.length_drop, behind, List.length_append, List.length_replicate]
    omega), List.drop_drop, hcat, pack_concat]

/-- The byte behind the new list is a NUL when the new list is no longer than the
old one, or when it was one before. -/
theorem behind_drop_eq_zero {n : Nat} :
    (∃ t, (behind es tail).drop n = 0 :: t) ↔
      n ≤ (pack es).length ∨ (pack es ++ 0 :: tail)[n]? = some 0 := by
  have hlen : (behind es tail).length = (pack es).length + 1 + tail.length := by
    rw [behind, List.length_append, List.length_replicate]
  have hhead : (∃ t, (behind es tail).drop n = 0 :: t) ↔ (behind es tail)[n]? = some 0 := by
    rw [← List.head?_drop]
    constructor
    · rintro ⟨t, ht⟩
      rw [ht]
      rfl
    · intro h
      cases hd : (behind es tail).drop n with
      | nil => rw [hd] at h; cases h
      | cons c t =>
        rw [hd] at h
        exact ⟨t, by rw [show c = 0 from Option.some.inj h]⟩
  rw [hhead]
  by_cases hle : n ≤ (pack es).length
  · rw [behind, List.getElem?_append_left (by rw [List.length_replicate]; omega),
      List.getElem?_replicate_of_lt (by omega)]
    simp [hle]
  · have h₁ : (behind es tail)[n]? = tail[n - ((pack es).length + 1)]? := by
      rw [behind, List.getElem?_append_right (by rw [List.length_replicate]; omega),
        List.length_replicate]
    have h₂ : (pack es ++ 0 :: tail)[n]? = tail[n - ((pack es).length + 1)]? := by
      rw [List.getElem?_append_right (by omega),
        show n - (pack es).length = n - ((pack es).length + 1) + 1 by omega,
        List.getElem?_cons_succ]
    rw [h₁, h₂]
    simp [hle]

end Write

/-! ### Kept and to be kept -/

/-- Two filters of one list, each followed by `x`: if the second keeps more than
the first and `x` could not be an entry the second keeps, then only equal filters
give a common beginning. -/
theorem filter_append_eq {es : List Bytes} {p q : Bytes → Bool} {x : Bytes} {rest : List Bytes}
    (hpq : ∀ e ∈ es, p e = true → q e = true) (hx : ∀ e ∈ es, q e = true → e ≠ x)
    (h : es.filter p ++ x :: rest = es.filter q ++ [x]) :
    (∀ e ∈ es, p e = q e) ∧ rest = [] := by
  induction es with
  | nil => simpa using h
  | cons e es ih =>
    have hpq' : ∀ y ∈ es, p y = true → q y = true := fun y hy => hpq y (List.mem_cons_of_mem e hy)
    have hx' : ∀ y ∈ es, q y = true → y ≠ x := fun y hy => hx y (List.mem_cons_of_mem e hy)
    cases hp : p e with
    | true =>
      have hq := hpq e (by simp) hp
      rw [List.filter_cons_of_pos hp, List.filter_cons_of_pos hq, List.cons_append,
        List.cons_append] at h
      obtain ⟨hall, hrest⟩ := ih hpq' hx' (List.cons.inj h).2
      refine ⟨fun y hy => ?_, hrest⟩
      rcases List.mem_cons.mp hy with rfl | hy
      · rw [hp, hq]
      · exact hall y hy
    | false =>
      rw [List.filter_cons_of_neg (by simp [hp])] at h
      cases hq : q e with
      | false =>
        rw [List.filter_cons_of_neg (by simp [hq])] at h
        obtain ⟨hall, hrest⟩ := ih hpq' hx' h
        refine ⟨fun y hy => ?_, hrest⟩
        rcases List.mem_cons.mp hy with rfl | hy
        · rw [hp, hq]
        · exact hall y hy
      | true =>
        -- the dropped entry `e` would have to come next, and nothing else can be `e`
        rw [List.filter_cons_of_pos hq, List.cons_append] at h
        exfalso
        have hmem : e ∈ es.filter p ++ x :: rest := by rw [h]; simp
        have hhead : (es.filter p ++ x :: rest).head? = some e := by rw [h]; rfl
        cases hf : es.filter p with
        | nil =>
          rw [hf] at hhead
          exact hx e (by simp) hq (Option.some.inj hhead).symm
        | cons y ys =>
          rw [hf] at hhead
          obtain rfl := Option.some.inj hhead
          have : y ∈ es.filter p := by rw [hf]; simp
          rw [List.mem_filter, hp] at this
          exact absurd this.2 (by simp)

section Main

variable {abi : Abi} {env : EnvBlock} {var value tail : Bytes} {es : List Bytes}

theorem strncmpEq_false_iff {e : Bytes} (h0 : 0 ∉ var) :
    (!strncmpEq e var var.length) = true ↔ ¬ var <+: e := by
  rw [Bool.not_eq_true', ← Bool.not_eq_true, strncmpEq_iff h0]

/-- The code keeps no entry that the update drops. -/
theorem keptBy_le (h0 : 0 ∉ var) (e : Bytes) (h : (!strncmpEq e var var.length) = true) :
    (decide (nameOf e ≠ var)) = true := by
  rw [strncmpEq_false_iff h0] at h
  simp only [ne_eq, decide_eq_true_eq]
  exact fun hn => h (prefix_of_nameOf_eq hn)

theorem keptBy_sublist (h0 : 0 ∉ var) (es : List Bytes) :
    (keptBy var es).Sublist (es.filter fun e => nameOf e ≠ var) :=
  List.monotone_filter_right es (keptBy_le h0)

theorem length_pack_sublist {es fs : List Bytes} (h : es.Sublist fs) :
    (pack es).length ≤ (pack fs).length := by
  induction h with
  | slnil => exact le_refl _
  | cons a _ ih => rw [pack_cons, List.length_append, List.length_cons]; omega
  | cons_cons a _ ih =>
    rw [pack_cons, pack_cons, List.length_append, List.length_append, List.length_cons,
      List.length_cons]
    omega

/-- The data area after `write_ubootcfg`. -/
def written (es : List Bytes) (tail var value : Bytes) : Bytes :=
  pack (keptBy var es ++ [entry var value])
    ++ (behind es tail).drop (pack (keptBy var es ++ [entry var value])).length

theorem length_pack_kept_le (h0 : 0 ∉ var) (es : List Bytes) (value : Bytes) :
    (pack (keptBy var es ++ [entry var value])).length
      ≤ (pack (update es var value)).length :=
  length_pack_sublist ((keptBy_sublist h0 es).append (List.Sublist.refl _))

/-- **A run of `write_ubootcfg`** on a block with a good CRC, when the list fits. -/
theorem run_write_ubootcfg {r : Int} {env' : EnvBlock} (hcrc : crc_int abi env.data = env.crc)
    (hes : Entries es) (hdata : env.data = pack es ++ 0 :: tail)
    (hfit : (pack (keptBy var es ++ [entry var value])).length ≤ env.data.length) :
    Run allOk (write_ubootcfg abi var value) env (some r) env' ↔
      r = 0 ∧ env' = ⟨crc_int abi (written es tail var value), written es tail var value⟩ := by
  rw [hdata] at hfit
  exact run_revise hcrc (by rw [hdata]; exact countLen_pack hes tail)
    (by rw [hdata]; exact build_single_pack hes hfit)

/-- Code and update keep the same entries exactly when `var` begins no other name. -/
theorem keep_iff (h0 : 0 ∉ var) (es : List Bytes) :
    (∀ e ∈ es, (!strncmpEq e var var.length) = decide (nameOf e ≠ var)) ↔
      ∀ e ∈ es, var <+: e → nameOf e = var := by
  refine forall₂_congr fun e _ => ?_
  constructor
  · intro h hpre
    by_contra hn
    rw [decide_eq_true hn, strncmpEq_false_iff h0] at h
    exact h hpre
  · intro h
    by_cases hn : nameOf e = var
    · rw [decide_eq_false (not_not.mpr hn), Bool.not_eq_false', strncmpEq_iff h0]
      exact prefix_of_nameOf_eq hn
    · rw [decide_eq_true hn, strncmpEq_false_iff h0]
      exact fun hpre => hn (h hpre)

/-- When the data area reads as the updated list. -/
theorem split_written_iff (hes : Entries es) (heq : 61 ∉ var) (h0 : 0 ∉ var)
    (hvalue : 0 ∉ value) :
    split (written es tail var value) = some (update es var value) ↔
      (∀ e ∈ es, var <+: e → nameOf e = var) ∧
        ((pack (update es var value)).length ≤ (pack es).length ∨
          (pack es ++ 0 :: tail)[(pack (update es var value)).length]? = some 0) := by
  have hent : Entries (keptBy var es ++ [entry var value]) :=
    (hes.filter _).append (entries_singleton entry_ne_nil (zero_not_mem_entry h0 hvalue))
  -- where both keep the same, it is the byte behind the list that decides
  have hsame : keptBy var es ++ [entry var value] = update es var value →
      (split (written es tail var value) = some (update es var value) ↔
        ((pack (update es var value)).length ≤ (pack es).length ∨
          (pack es ++ 0 :: tail)[(pack (update es var value)).length]? = some 0)) := by
    intro h
    rw [h] at hent
    rw [written, h, split_pack_eq_iff hent, behind_drop_eq_zero]
  constructor
  · intro h
    have h' := h
    rw [written, split_pack_append _ _ hent] at h'
    obtain ⟨rest, -, hrest⟩ := Option.map_eq_some_iff.mp h'
    rw [List.append_assoc, List.singleton_append] at hrest
    obtain ⟨hkeep, -⟩ := filter_append_eq (fun e _ => keptBy_le h0 e)
      (fun e _ hq he => by
        rw [he, nameOf_entry heq] at hq
        exact absurd hq (by simp)) hrest
    have hlist : keptBy var es ++ [entry var value] = update es var value := by
      rw [keptBy, update, List.filter_congr hkeep]
    exact ⟨(keep_iff h0 es).mp hkeep, (hsame hlist).mp h⟩
  · rintro ⟨hpre, hzero⟩
    have hlist : keptBy var es ++ [entry var value] = update es var value := by
      rw [keptBy, update, List.filter_congr ((keep_iff h0 es).mpr hpre)]
    exact (hsame hlist).mpr hzero

/-- **When `write_ubootcfg` is the update of one variable.**  On a block with a
good CRC, a closed list and room for the new one, every run that returns 0 leaves
the updated list if and only if no entry of another name begins with `var`, and
the new list ends where the old list reached or before a NUL. -/
theorem write_ubootcfg_iff (hcrc : crc_int abi env.data = env.crc) (hes : Entries es)
    (hdata : env.data = pack es ++ 0 :: tail) (hvar : var ≠ [] ∧ 61 ∉ var ∧ 0 ∉ var)
    (hvalue : 0 ∉ value) (hfit : (pack (update es var value)).length + 1 ≤ env.data.length) :
    (∀ env', Run allOk (write_ubootcfg abi var value) env (some 0) env' →
        split env'.data = some (update es var value)) ↔
      (∀ e ∈ es, var <+: e → nameOf e = var) ∧
        ((pack (update es var value)).length ≤ (pack es).length ∨
          env.data[(pack (update es var value)).length]? = some 0) := by
  obtain ⟨-, heq, h0⟩ := hvar
  have hle := length_pack_kept_le h0 es value
  have hrun : ∀ env', Run allOk (write_ubootcfg abi var value) env (some 0) env' ↔
      env' = ⟨crc_int abi (written es tail var value), written es tail var value⟩ := fun env' => by
    rw [run_write_ubootcfg hcrc hes hdata (by omega)]
    simp only [true_and]
  rw [hdata, ← split_written_iff hes heq h0 hvalue]
  constructor
  · intro h
    exact h _ ((hrun _).mpr rfl)
  · intro h env' hr
    rw [(hrun env').mp hr]
    exact h

end Main

/-! ### The shipped names -/

/-- A block with a good CRC. -/
def sealed (abi : Abi) (data : Bytes) : EnvBlock := ⟨crc_int abi data, data⟩

/-- `serialnumber` begins no other name of the list, and behind the list are zeros. -/
theorem write_ubootcfg_serialnumber :
    (∀ env', Run allOk (write_ubootcfg ⟨true, false⟩ (asc "serialnumber") (asc "7"))
          (sealed ⟨true, false⟩ (pack [asc "ethaddr=1", asc "ethaddr2=2"] ++ padded 40 []))
          (some 0) env' →
        split env'.data
          = some (update [asc "ethaddr=1", asc "ethaddr2=2"] (asc "serialnumber") (asc "7"))) ↔
      (∀ e ∈ [asc "ethaddr=1", asc "ethaddr2=2"], asc "serialnumber" <+: e →
          nameOf e = asc "serialnumber") ∧
        ((pack (update [asc "ethaddr=1", asc "ethaddr2=2"] (asc "serialnumber") (asc "7"))).length
            ≤ (pack [asc "ethaddr=1", asc "ethaddr2=2"]).length ∨
          (sealed ⟨true, false⟩ (pack [asc "ethaddr=1", asc "ethaddr2=2"] ++ padded 40 [])).data[
            (pack (update [asc "ethaddr=1", asc "ethaddr2=2"] (asc "serialnumber")
              (asc "7"))).length]? = some 0) :=
  have hdata : pack [asc "ethaddr=1", asc "ethaddr2=2"] ++ padded 40 []
      = pack [asc "ethaddr=1", asc "ethaddr2=2"] ++ 0 :: List.replicate 39 0 := rfl
  write_ubootcfg_iff rfl (by decide) hdata (by decide) (by decide) (by decide)

/-- Writing `ethaddr` into the list of the shipped environment loses `ethaddr2`. -/
theorem write_ubootcfg_loses_ethaddr2 :
    ¬ ∀ (abi : Abi) (env : EnvBlock) (es : List Bytes) (tail var value : Bytes),
      crc_int abi env.data = env.crc → Entries es → env.data = pack es ++ 0 :: tail →
      var ≠ [] ∧ 61 ∉ var ∧ 0 ∉ var → 0 ∉ value →
      (pack (update es var value)).length + 1 ≤ env.data.length →
      ∀ env', Run allOk (write_ubootcfg abi var value) env (some 0) env' →
        split env'.data = some (update es var value) := by
  intro h
  have hent : Entries [asc "ethaddr=1", asc "ethaddr2=2"] := by decide
  have hrun : Run allOk (write_ubootcfg ⟨true, false⟩ (asc "ethaddr") (asc "3"))
      (sealed ⟨true, false⟩ (pack [asc "ethaddr=1", asc "ethaddr2=2"] ++ 0 :: List.replicate 39 0))
      (some 0) _ := (run_write_ubootcfg rfl hent rfl (by decide)).mpr ⟨rfl, rfl⟩
  have := h ⟨true, false⟩ _ _ (List.replicate 39 0) _ _ rfl hent rfl (by decide) (by decide)
    (by decide) _ hrun
  rw [split_written_iff hent (by decide) (by decide) (by decide)] at this
  exact absurd (this.1 (asc "ethaddr2=2") (by decide) (by decide)) (by decide)

end Boxing.Uboot
