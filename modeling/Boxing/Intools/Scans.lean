import Boxing.Intools.Lists
import Boxing.Uboot.Read
import Boxing.Uboot.WriteMulti

/-!
# Which blocks the loops can go over

The tools check the CRC of a block and nothing else, and then go over its entries
by their string lengths.  A block of another tool need not end its list, and need
not have a `=` in every entry.  `ScansInside` says that none of the loops leaves its
buffer; `scansInside_iff` says when: the list is closed, the entry at which
`read_ubootcfg` stops has a `=`, and the batch writer finds its way through the
512 bytes of its copy of the request.

The loops end in any case: each round goes at least two bytes on, and the first
byte behind the buffer stops them here.
-/

namespace Boxing.Intools

open C Device Uboot

/-- The loops over the entries of a data area stay inside their buffers: the search
of `read_ubootcfg(name)`; the counting and the copying of `write_ubootcfg(var, ..)`
and of `write_multi_ubootcfg(cfgbuf)`; the listing of `intools`. -/
structure ScansInside (name var cfgbuf data : Bytes) : Prop where
  read_ubootcfg : scan (look_at name) data ≠ none
  write_ubootcfg : ∃ datalen, countLen data = some datalen ∧
    refill (fun ptmp => some (strncmpEq ptmp var var.length)) data datalen ≠ none
  write_multi_ubootcfg : ∃ datalen, countLen data = some datalen ∧
    refill (fun ptmp => find_revised ptmp (tmpcopy tmpbufSize cfgbuf)) data datalen ≠ none
  intools_main : count_cut data 0 ≠ none

/-- The first entry that contains `name`, if there is one, has a `=`. -/
def StopsAtValue (es : List Bytes) (name : Bytes) : Prop :=
  ∀ before e behind, es = before ++ e :: behind → (∀ x ∈ before, ¬ name <:+: x) → name <:+: e →
    61 ∈ e

/-- The request and its NUL fit the copy, or every entry begins with the name of a pair that has
its `;` in the copy. -/
def FoundInCopy (es : List Bytes) (cfgbuf : Bytes) : Prop :=
  cfgbuf.length < tmpbufSize ∨
    ∀ e ∈ es, ∃ pair ∈ ((cfgbuf.take tmpbufSize).splitOn 59).dropLast, nameOf pair <+: e

section Loops

variable {es : List Bytes} {name var cfgbuf tail rest : Bytes}

/-! ### The search for a name in the copy -/

/-- In a copy with a NUL the search comes to an end. -/
theorem find_revised_ne_none (e m : Bytes) (h : 0 ∈ m) : find_revised e m ≠ none := by
  induction hn : m.length using Nat.strongRecOn generalizing m with
  | ind n ih =>
    subst hn
    cases m with
    | nil => exact absurd h List.not_mem_nil
    | cons c m =>
      unfold find_revised
      by_cases hc : c = 0
      · rw [if_pos hc]
        simp
      · rw [if_neg hc]
        split
        · rename_i hs
          exact absurd hs (strsep_ne_none h)
        · rename_i tok rest hs
          have h0 : 0 ∈ tok ++ [0] := by simp
          have hname : strsep 61 (tok ++ [0]) ≠ none := strsep_ne_none h0
          obtain ⟨⟨pvar, pval⟩, hv⟩ := Option.ne_none_iff_exists'.mp hname
          rw [hv, Option.bind_some]
          by_cases hb : strncmpEq e pvar pvar.length = true
          · rw [if_pos hb]
            simp
          · rw [if_neg hb]
            obtain ⟨htok, hr⟩ := strsep_eq_some hs
            rcases hr with ⟨rfl, -⟩ | ⟨m', rfl, hm⟩
            · simp
            · -- the NUL is not in the token
              refine ih m'.length (length_of_strsep hs) m' ?_ rfl
              rw [hm] at h
              simpa [htok] using h

theorem strsep_nameOf {tok : Bytes} (h0 : 0 ∉ tok) :
    ∃ pval, strsep 61 (tok ++ [0]) = some (nameOf tok, pval) := by
  by_cases h : 61 ∈ tok
  · obtain ⟨pvar, value, rfl, hpvar⟩ := List.eq_append_cons_of_mem h
    have hentry : pvar ++ 61 :: value = entry pvar value := by
      have hd : asc "=" = [61] := by decide
      rw [entry, hd, List.append_assoc, List.singleton_append]
    rw [hentry, nameOf_entry hpvar, ← hentry, List.append_assoc]
    exact ⟨_, strsep_delim (by decide) hpvar (fun hm => h0 (List.mem_append_left _ hm)) _⟩
  · have hname : nameOf tok = tok :=
      List.takeWhile_eq_self_iff.mpr fun c hc => by simpa using ne_of_mem_of_not_mem hc h
    rw [hname]
    exact ⟨_, strsep_zero h h0 []⟩

/-- One round of the search in a copy without a NUL. -/
theorem find_revised_round {e m tok m' : Bytes} (h0 : 0 ∉ m)
    (hs : strsep 59 m = some (tok, some m')) :
    find_revised e m = if nameOf tok <+: e then some true else find_revised e m' := by
  obtain ⟨htok, -⟩ := strsep_eq_some hs
  obtain ⟨pval, hval⟩ := strsep_nameOf htok
  have hpre : nameOf tok <+: tok := nameOf_prefix tok
  have hname : 0 ∉ nameOf tok := fun h => htok (hpre.subset h)
  cases m with
  | nil => cases hs
  | cons c m =>
    obtain ⟨hc, -⟩ := List.ne_and_not_mem_of_not_mem_cons h0
    rw [find_revised, if_neg (Ne.symm hc)]
    split
    · rename_i hs'
      cases hs.symm.trans hs'
    · rename_i tok' rest' hs'
      cases hs.symm.trans hs'
      rw [hval, Option.bind_some]
      simp only [strncmpEq_iff hname]

/-- In a copy without a NUL the search goes from `;` to `;`, and comes to an end only by finding a
name. -/
theorem find_revised_open (e m : Bytes) (h0 : 0 ∉ m) :
    find_revised e m ≠ none ↔ ∃ pair ∈ (m.splitOn 59).dropLast, nameOf pair <+: e := by
  induction hn : m.length using Nat.strongRecOn generalizing m with
  | ind n ih =>
    subst hn
    by_cases hm : 59 ∈ m
    · obtain ⟨tok, m', rfl, htok⟩ := List.eq_append_cons_of_mem hm
      have htok0 : 0 ∉ tok := fun h => h0 (List.mem_append_left _ h)
      have hm0 : 0 ∉ m' := fun h => h0 (List.mem_append_right _ (.tail _ h))
      have hs := strsep_delim (by decide) htok htok0 m'
      rw [find_revised_round h0 hs, List.splitOn_append_cons_self_of_not_mem htok,
        List.dropLast_cons_of_ne_nil (List.splitOn_ne_nil _ _)]
      by_cases hpre : nameOf tok <+: e
      · rw [if_pos hpre]
        exact iff_of_true (Option.some_ne_none _) ⟨tok, .head _, hpre⟩
      · rw [if_neg hpre, ih m'.length (length_of_strsep hs) m' hm0 rfl]
        simp only [List.mem_cons, exists_eq_or_imp, hpre, false_or]
    · rw [find_revised_eq_none hm h0, List.splitOn_eq_singleton hm]
      simp

theorem foundInCopy_iff (h0 : 0 ∉ cfgbuf) :
    FoundInCopy es cfgbuf ↔
      ∀ e ∈ es, find_revised e (tmpcopy tmpbufSize cfgbuf) ≠ none := by
  unfold FoundInCopy
  by_cases hlt : cfgbuf.length < tmpbufSize
  · apply iff_of_true (Or.inl hlt)
    intro e _
    obtain ⟨t, ht⟩ := tmpcopy_end hlt
    apply find_revised_ne_none
    rw [ht]
    simp
  · have hcopy : tmpcopy tmpbufSize cfgbuf = cfgbuf.take tmpbufSize := by
      have := tmpcopy_of_le (Nat.le_of_not_lt hlt) []
      rwa [List.append_nil] at this
    have hopen : 0 ∉ cfgbuf.take tmpbufSize := fun hm => h0 (List.mem_of_mem_take hm)
    rw [hcopy, or_iff_right hlt]
    apply forall₂_congr
    intro e _
    rw [find_revised_open e _ hopen]

/-! ### The loops -/

/-- Where the list is closed, the search of `read_ubootcfg` stops inside it, and
reads on only through a missing `=`. -/
theorem scan_ne_none_iff (hes : Entries es) :
    scan (look_at name) (pack es ++ 0 :: tail) ≠ none ↔ StopsAtValue es name := by
  rcases exists_first es name with hnone | ⟨before, e, behind, rfl, hbefore, he⟩
  · rw [scan_look_at_none hes hnone, scan_zero]
    apply iff_of_true (by simp)
    intro before e behind hsplit _ he
    exact absurd he (hnone e (by rw [hsplit]; simp))
  · rw [scan_look_at hes hbefore he]
    constructor
    · intro h before' e' behind' hsplit hbefore' he'
      obtain ⟨rfl, rfl, rfl⟩ := first_unique hsplit hbefore hbefore' he he'
      by_contra heq
      apply h
      rw [look_at, if_pos (strstr_isSome_iff.mpr he), index, if_neg heq]
      rfl
    · intro h
      rw [look_at_found he (h before e behind rfl hbefore he)]
      simp

theorem refill_ne_none_iff {drop : Bytes → Option Bool} (hes : Entries es) :
    refill drop (pack es ++ 0 :: tail) (pack es).length ≠ none ↔ ∀ e ∈ es, drop e ≠ none := by
  constructor
  · intro h e he hd
    exact h (refill_eq_none hes tail he hd)
  · intro h
    have hd : ∀ e ∈ es, drop e = some ((drop e).getD false) := by
      intro e he
      obtain ⟨b, hb⟩ := Option.ne_none_iff_exists'.mp (h e he)
      rw [hb]
      rfl
    rw [refill_pack hes tail hd]
    simp

/-- On a list that is not closed the counting loop leaves the block. -/
theorem countLen_open (hes : Entries es) (h : 0 ∉ rest) : countLen (pack es ++ rest) = none :=
  walk_open 0 hes h

theorem count_cut_ne_none (hes : Entries es) : count_cut (pack es ++ 0 :: tail) 0 ≠ none := by
  obtain ⟨data, hc, -⟩ := count_cut_pack es [] tail hes
  rw [pack_nil, List.nil_append, List.length_nil] at hc
  rw [hc]
  simp

/-- **Which blocks the loops can go over.**  For every data area, whatever its CRC,
and every request: all the loops stay inside their buffers if and only if the list
is closed, the first entry that contains the wanted name has a `=`, and the batch
writer's copy of the request is long enough. -/
theorem scansInside_iff {data : Bytes} (h0 : 0 ∉ cfgbuf) :
    ScansInside name var cfgbuf data ↔
      ∃ es, split data = some es ∧ StopsAtValue es name ∧ FoundInCopy es cfgbuf := by
  obtain ⟨es, rest, hes, rfl, hclosed | hopen⟩ := exists_pack_append data
  · obtain ⟨c, tail, rfl⟩ : ∃ c t, rest = c :: t := by
      cases rest with
      | nil => cases hclosed
      | cons c t => exact ⟨c, t, rfl⟩
    obtain rfl : c = 0 := Option.some.inj hclosed
    rw [split_pack hes]
    have hcount := countLen_pack hes tail
    constructor
    · intro h
      obtain ⟨n, hn, hmulti⟩ := h.write_multi_ubootcfg
      obtain rfl : (pack es).length = n := Option.some.inj (hcount.symm.trans hn)
      exact ⟨es, rfl, (scan_ne_none_iff hes).mp h.read_ubootcfg,
        (foundInCopy_iff h0).mpr ((refill_ne_none_iff hes).mp hmulti)⟩
    · intro h
      obtain ⟨es', hsome, hstop, hfound⟩ := h
      obtain rfl : es = es' := Option.some.inj hsome
      exact {
        read_ubootcfg := (scan_ne_none_iff hes).mpr hstop
        write_ubootcfg := ⟨_, hcount, (refill_ne_none_iff hes).mpr fun e _ => by simp⟩
        write_multi_ubootcfg :=
          ⟨_, hcount, (refill_ne_none_iff hes).mpr ((foundInCopy_iff h0).mp hfound)⟩
        intools_main := count_cut_ne_none hes }
  · constructor
    · intro h
      obtain ⟨n, hn, -⟩ := h.write_ubootcfg
      rw [countLen_open hes hopen] at hn
      cases hn
    · intro h
      obtain ⟨es', hsome, -⟩ := h
      rw [split_open hes hopen] at hsome
      cases hsome

end Loops

/-- The list of a shipped block, closed. -/
theorem scansInside_closed :
    ScansInside (asc "ethaddr") (asc "ethaddr") (asc "ethaddr=3")
        (pack [asc "ethaddr=1", asc "ethaddr2=2"] ++ [0]) ↔
      ∃ es, split (pack [asc "ethaddr=1", asc "ethaddr2=2"] ++ [0]) = some es ∧
        StopsAtValue es (asc "ethaddr") ∧ FoundInCopy es (asc "ethaddr=3") :=
  scansInside_iff (by decide)

/-- A block of 64 KiB with a matching CRC and not one NUL in its data area: the loops
read on behind it. -/
theorem sealed_block_left :
    ¬ ∀ (abi : Abi) (env : EnvBlock) (name var cfgbuf : Bytes), env.data.length = 65532 →
      crc_int abi env.data = env.crc → 0 ∉ cfgbuf → ScansInside name var cfgbuf env.data := by
  intro h
  have hopen : 0 ∉ List.replicate 65532 (97 : UInt8) := by
    rw [List.mem_replicate]
    decide
  obtain ⟨n, hn, -⟩ := (h ⟨true, false⟩ (sealed ⟨true, false⟩ (List.replicate 65532 97)) [] [] []
    List.length_replicate rfl List.not_mem_nil).write_ubootcfg
  have hcount := countLen_open entries_nil hopen
  exact absurd (hn.symm.trans hcount) (by simp)

end Boxing.Intools
