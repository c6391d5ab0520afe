import Boxing.C.Token
import Boxing.Uboot.WellFormed

/-!
# The batch writer

`write_multi_ubootcfg` takes its pairs as one string `n1=v1;...;nk=vk`.  It goes
over the old list once: for every old entry it copies the request into a buffer
of 512 bytes, takes the copy apart with `strsep`, and drops the entry when one of
the names begins it.  Then it takes the request itself apart and puts the new
entries behind, each by way of the same 512 bytes.

The buffer is what the batch writer and the single writer can disagree about.  A
copy of 512 bytes or more has no NUL, so the search for a name reads on behind the
buffer unless it succeeds before (`lookup_isSome_iff`), and a pair that long is
written behind it.  `write_multi_iff` says that this is all: the two writers agree
exactly when names and pairs stay inside the buffer, and no name holds the `;` at
which the request is taken apart.
-/

namespace Boxing.Uboot

open C Device

/-! ### The source -/

/-- `sizeof(tmpbuf)`. -/
def tmpbufSize : Nat := 512

/-- `while (tmpcfg != NULL && tmpcfg[0] != 0)`: does a name of the list at `tmpcfg`
begin the entry `ptmp`? -/
def find_revised (ptmp : Bytes) (tmpcfg : Bytes) : Option Bool :=
  match tmpcfg with
  | [] => none
  | c :: m =>
    if c = 0 then some false
    else
      match _hs : strsep 59 (c :: m) with
      | none => none
      | some (tok, rest) =>
        (strsep 61 (tok ++ [0])).bind fun pvar =>
          if strncmpEq ptmp pvar.1 pvar.1.length then some true
          else
            match rest with
            | none => some false
            | some m' => find_revised ptmp m'
termination_by tmpcfg.length
decreasing_by exact length_of_strsep ‹_›

/-- `strncpy(tmpbuf, cfgbuf, sizeof(tmpbuf))`: the copy, with its NUL only when the
request is shorter. -/
def tmpcopy (n : Nat) (cfgbuf : Bytes) : Bytes := (cfgbuf ++ List.replicate n 0).take n

/-- `while (cfgbuf != NULL && cfgbuf[0] != 0)`: write the pairs of the request.
`sprintf` of a null `pval`, or of a pair that does not fit `tmpbuf`, is none. -/
def write_pairs (st : Bytes × Nat) (cfgbuf : Bytes) : Option (Bytes × Nat) :=
  match cfgbuf with
  | [] => none
  | c :: m =>
    if c = 0 then some st
    else
      match hs : strsep 59 (c :: m) with
      | none => none
      | some (tok, rest) =>
        (strsep 61 (tok ++ [0])).bind fun (pvar, pval) =>
          match pval with
          | none => none
          | some v =>
            let text := entry pvar (str v)
            if text.length + 1 ≤ tmpbufSize then
              (strcpy st.1 st.2 text).bind fun data =>
                match rest with
                | none => some (data, st.2 + text.length + 1)
                | some m' => write_pairs (data, st.2 + text.length + 1) m'
            else none
termination_by cfgbuf.length
decreasing_by exact length_of_strsep hs

/-- The middle of `write_multi_ubootcfg`. -/
def build_multi (cfgbuf data : Bytes) (datalen : Nat) : Option Bytes :=
  (refill (fun ptmp => find_revised ptmp (tmpcopy tmpbufSize cfgbuf)) data datalen).bind fun st =>
    (write_pairs st (cfgbuf ++ [0])).map (·.1)

/-- `write_multi_ubootcfg(cfgbuf)`. -/
def write_multi_ubootcfg (abi : Abi) (cfgbuf : Bytes) : Prog EnvRet Int :=
  revise abi (build_multi cfgbuf)

/-! ### The request -/

/-- The request `n1=v1;...;nk=vk`. -/
def request (ps : List (Bytes × Bytes)) : Bytes :=
  [59].intercalate (ps.map fun p => entry p.1 p.2)

/-- Names and values as they stand in a request. -/
def IsPair (p : Bytes × Bytes) : Prop := 61 ∉ p.1 ∧ 0 ∉ p.1 ∧ 59 ∉ p.2 ∧ 0 ∉ p.2

instance (p : Bytes × Bytes) : Decidable (IsPair p) :=
  inferInstanceAs (Decidable (61 ∉ p.1 ∧ 0 ∉ p.1 ∧ 59 ∉ p.2 ∧ 0 ∉ p.2))

/-- `write_ubootcfg(n1, v1), ..., write_ubootcfg(nk, vk)`. -/
def write_each (abi : Abi) : List (Bytes × Bytes) → Prog EnvRet Unit
  | [] => pure ()
  | p :: ps => do
    let _ ← write_ubootcfg abi p.1 p.2
    write_each abi ps

/-- Some name of the request begins the entry. -/
def begun (ps : List (Bytes × Bytes)) (e : Bytes) : Bool :=
  ps.any fun p => strncmpEq e p.1 p.1.length

/-- The list after `write_multi_ubootcfg`. -/
def setMany (es : List Bytes) (ps : List (Bytes × Bytes)) : List Bytes :=
  (es.filter fun e => !begun ps e) ++ ps.map fun p => entry p.1 p.2

/-- The list after the calls of `write_ubootcfg`. -/
def setEach (es : List Bytes) (ps : List (Bytes × Bytes)) : List Bytes :=
  ps.foldl (fun es p => setOne es p.1 p.2) es

/-- In a copy of `n` bytes the search for the entry comes to an end: the whole
request is there with its NUL, or a name that begins the entry, with the `;`
behind its pair. -/
def Covered (n : Nat) (ps : List (Bytes × Bytes)) (e : Bytes) : Prop :=
  (request ps).length < n ∨
    ∃ qs p, qs ++ [p] <+: ps ∧ strncmpEq e p.1 p.1.length = true ∧
      (request (qs ++ [p])).length < n

section Request

variable {p : Bytes × Bytes} {ps : List (Bytes × Bytes)}

theorem request_singleton (p : Bytes × Bytes) : request [p] = entry p.1 p.2 :=
  List.intercalate_singleton

theorem request_cons (p : Bytes × Bytes) (h : ps ≠ []) :
    request (p :: ps) = entry p.1 p.2 ++ 59 :: request ps := by
  rw [request, List.map_cons, List.intercalate_cons_of_ne_nil (by simpa using h),
    List.append_assoc]
  rfl

theorem length_request_cons (p : Bytes × Bytes) (h : ps ≠ []) :
    (request (p :: ps)).length = (entry p.1 p.2).length + 1 + (request ps).length := by
  rw [request_cons p h, List.length_append, List.length_cons]
  omega

theorem IsPair.zero_not_mem (h : IsPair p) : 0 ∉ entry p.1 p.2 :=
  zero_not_mem_entry h.2.1 h.2.2.2

theorem IsPair.semicolon_not_mem (h : IsPair p) (hn : 59 ∉ p.1) : 59 ∉ entry p.1 p.2 := by
  have hd : asc "=" = [61] := by decide
  rw [entry, hd]
  simp [hn, h.2.2.1]

/-- The second `strsep` of a token finds the name and the value. -/
theorem strsep_entry (h : IsPair p) :
    strsep 61 (entry p.1 p.2 ++ [0]) = some (p.1, some (p.2 ++ [0])) := by
  have hd : asc "=" = [61] := by decide
  rw [entry, hd, List.append_assoc, List.append_assoc, List.singleton_append]
  exact strsep_delim (by decide) h.1 h.2.1 _

theorem str_value (h : IsPair p) : str (p.2 ++ [0]) = p.2 := str_append_zero _ _ h.2.2.2

end Request

/-! ### The search in the copy -/

section Search

variable {e m : Bytes} {p : Bytes × Bytes} {ps : List (Bytes × Bytes)} {n : Nat}

theorem find_revised_zero (e m : Bytes) : find_revised e (0 :: m) = some false := by
  rw [find_revised]
  exact if_pos rfl

/-- Without a `;` or a NUL the search leaves the buffer. -/
theorem find_revised_eq_none (h : 59 ∉ m) (h0 : 0 ∉ m) : find_revised e m = none := by
  cases m with
  | nil => rw [find_revised]
  | cons c m =>
    obtain ⟨hc, -⟩ := List.ne_and_not_mem_of_not_mem_cons h0
    rw [find_revised, if_neg (Ne.symm hc)]
    split
    · rfl
    · rename_i hs
      rw [strsep_eq_none h h0] at hs
      cases hs

/-- One round of the search, on a token that ends inside the buffer. -/
theorem find_revised_token {rest : Option Bytes} (hp : IsPair p) (hm : m.head? ≠ some 0)
    (hs : strsep 59 m = some (entry p.1 p.2, rest)) :
    find_revised e m =
      if strncmpEq e p.1 p.1.length then some true
      else
        match rest with
        | none => some false
        | some m' => find_revised e m' := by
  cases m with
  | nil => cases hs
  | cons c m =>
    rw [find_revised, if_neg (by simpa using hm)]
    split
    · rename_i hs'
      rw [hs] at hs'
      cases hs'
    · rename_i tok rest' hs'
      rw [hs] at hs'
      cases hs'
      rw [strsep_entry hp, Option.bind_some]
      cases rest with
      | none => rfl
      | some m' => rfl

theorem head_entry_ne_zero (hp : IsPair p) (m : Bytes) :
    (entry p.1 p.2 ++ m).head? ≠ some 0 := by
  have hne : entry p.1 p.2 ≠ [] := entry_ne_nil
  obtain ⟨c, t, hct⟩ := List.exists_cons_of_ne_nil hne
  have h0 := hp.zero_not_mem
  rw [hct] at h0 ⊢
  obtain ⟨hc, -⟩ := List.ne_and_not_mem_of_not_mem_cons h0
  simpa using Ne.symm hc

theorem find_revised_last (hp : IsPair p) (hn : 59 ∉ p.1) (m : Bytes) :
    find_revised e (entry p.1 p.2 ++ 0 :: m) = some (strncmpEq e p.1 p.1.length) := by
  rw [find_revised_token hp (head_entry_ne_zero hp _)
    (strsep_zero (hp.semicolon_not_mem hn) hp.zero_not_mem m)]
  by_cases h : strncmpEq e p.1 p.1.length = true
  · rw [if_pos h, h]
  · rw [if_neg h, Bool.eq_false_iff.mpr h]

theorem find_revised_cons (hp : IsPair p) (hn : 59 ∉ p.1) (m : Bytes) :
    find_revised e (entry p.1 p.2 ++ 59 :: m)
      = if strncmpEq e p.1 p.1.length then some true else find_revised e m :=
  find_revised_token hp (head_entry_ne_zero hp _)
    (strsep_delim (by decide) (hp.semicolon_not_mem hn) hp.zero_not_mem m)

/-- A copy that does not reach the end of its first token. -/
theorem tmpcopy_of_le {s : Bytes} (h : n ≤ s.length) (t : Bytes) :
    tmpcopy n (s ++ t) = s.take n := by
  rw [tmpcopy, List.append_assoc, List.take_append_of_le_length h]

/-- A copy that does. -/
theorem tmpcopy_cons {s : Bytes} (h : s.length < n) (c : UInt8) (t : Bytes) :
    tmpcopy n (s ++ c :: t) = s ++ c :: tmpcopy (n - s.length - 1) t := by
  have htake : ∀ k, k ≤ n → (t ++ List.replicate n (0 : UInt8)).take k = tmpcopy k t := by
    intro k hk
    rw [tmpcopy, List.take_append, List.take_append, List.take_replicate, List.take_replicate]
    congr 2
    omega
  obtain ⟨k, hk⟩ : ∃ k, n = s.length + (k + 1) := ⟨n - s.length - 1, by omega⟩
  rw [show n - s.length - 1 = k by omega, ← htake k (by omega), tmpcopy, List.append_assoc,
    List.cons_append, List.take_append, List.take_of_length_le h.le,
    show n - s.length = k + 1 by omega, List.take_succ_cons]

theorem tmpcopy_end {s : Bytes} (h : s.length < n) :
    ∃ t, tmpcopy n s = s ++ 0 :: t := by
  obtain ⟨k, hk⟩ : ∃ k, n = s.length + (k + 1) := ⟨n - s.length - 1, by omega⟩
  refine ⟨List.replicate k 0, ?_⟩
  rw [tmpcopy, List.take_append, List.take_of_length_le h.le, List.take_replicate,
    show min (n - s.length) n = k + 1 by omega, List.replicate_succ]

theorem covered_nil : Covered n [] e ↔ 0 < n := by
  constructor
  · rintro (h | ⟨qs, p, hpre, -⟩)
    · exact h
    · exact absurd (List.prefix_nil.mp hpre) (by simp)
  · intro h
    exact Or.inl h

theorem covered_singleton : Covered n [p] e ↔ (entry p.1 p.2).length < n := by
  rw [← request_singleton]
  constructor
  · rintro (h | ⟨qs, q, hpre, -, h⟩)
    · exact h
    · obtain ⟨rfl, rfl⟩ : qs = [] ∧ q = p := by
        have hlen := hpre.length_le
        rw [List.length_append, List.length_singleton, List.length_singleton] at hlen
        obtain rfl : qs = [] := List.length_eq_zero_iff.mp (by omega)
        simpa using hpre
      exact h
  · exact fun h => Or.inl h

theorem covered_cons (h : ps ≠ []) :
    Covered n (p :: ps) e ↔
      (entry p.1 p.2).length < n ∧
        (strncmpEq e p.1 p.1.length = true ∨ Covered (n - (entry p.1 p.2).length - 1) ps e) := by
  constructor
  · rintro (hlen | ⟨qs, q, hpre, hq, hlen⟩)
    · rw [length_request_cons p h] at hlen
      exact ⟨by omega, Or.inr (Or.inl (by omega))⟩
    · cases qs with
      | nil =>
        obtain rfl : q = p := by
          rw [List.nil_append, List.prefix_cons_iff] at hpre
          simpa using hpre
        rw [List.nil_append, request_singleton] at hlen
        exact ⟨hlen, Or.inl hq⟩
      | cons x qs =>
        rw [List.cons_append, List.cons_prefix_cons] at hpre
        obtain ⟨rfl, hpre⟩ := hpre
        rw [List.cons_append, length_request_cons x (by simp)] at hlen
        exact ⟨by omega, Or.inr (Or.inr ⟨qs, q, hpre, hq, by omega⟩)⟩
  · rintro ⟨hlen, hp | hlen' | ⟨qs, q, hpre, hq, hlen'⟩⟩
    · exact Or.inr ⟨[], p, by simp, hp, by rw [List.nil_append, request_singleton]; exact hlen⟩
    · exact Or.inl (by rw [length_request_cons p h]; omega)
    · refine Or.inr ⟨p :: qs, q, ?_, hq, ?_⟩
      · rw [List.cons_append, List.cons_prefix_cons]
        exact ⟨rfl, hpre⟩
      · rw [List.cons_append, length_request_cons p (by simp)]
        omega

/-- **The search in the copy**: where it comes to an end its answer is right, and
elsewhere it leaves the buffer. -/
theorem find_revised_request (e : Bytes) : ∀ (ps : List (Bytes × Bytes)) (n : Nat),
    (∀ p ∈ ps, IsPair p ∧ 59 ∉ p.1) →
    (Covered n ps e → find_revised e (tmpcopy n (request ps)) = some (begun ps e)) ∧
      (¬ Covered n ps e → find_revised e (tmpcopy n (request ps)) = none) := by
  intro ps
  induction ps with
  | nil =>
    intro n _
    rw [covered_nil]
    constructor
    · intro hn
      obtain ⟨t, ht⟩ := tmpcopy_end (s := request []) hn
      rw [ht]
      exact find_revised_zero e t
    · intro hn
      obtain rfl : n = 0 := by omega
      exact find_revised_eq_none (by simp [tmpcopy]) (by simp [tmpcopy])
  | cons p ps ih =>
    intro n h
    obtain ⟨hp, hn⟩ := h p (by simp)
    have h' : ∀ q ∈ ps, IsPair q ∧ 59 ∉ q.1 := fun q hq => h q (List.mem_cons_of_mem p hq)
    -- a token longer than the copy hides its end
    have hlong : ∀ t, n ≤ (entry p.1 p.2).length →
        find_revised e (tmpcopy n (entry p.1 p.2 ++ t)) = none := by
      intro t hle
      rw [tmpcopy_of_le hle]
      exact find_revised_eq_none
        (fun hm => hp.semicolon_not_mem hn (List.mem_of_mem_take hm))
        (fun hm => hp.zero_not_mem (List.mem_of_mem_take hm))
    by_cases hps : ps = []
    · subst hps
      rw [covered_singleton, request_singleton]
      constructor
      · intro hlt
        obtain ⟨t, ht⟩ := tmpcopy_end hlt
        rw [ht, find_revised_last hp hn, begun, List.any_cons, List.any_nil, Bool.or_false]
      · intro hle
        have := hlong [] (by omega)
        rwa [List.append_nil] at this
    · rw [covered_cons hps, request_cons p hps]
      by_cases hlt : (entry p.1 p.2).length < n
      · obtain ⟨ihs, ihn⟩ := ih (n - (entry p.1 p.2).length - 1) h'
        rw [tmpcopy_cons hlt, find_revised_cons hp hn, begun, List.any_cons]
        by_cases hb : strncmpEq e p.1 p.1.length = true
        · rw [if_pos hb, hb, Bool.true_or]
          exact ⟨fun _ => rfl, fun hno => absurd ⟨hlt, Or.inl rfl⟩ hno⟩
        · rw [if_neg hb, Bool.eq_false_iff.mpr hb, Bool.false_or]
          refine ⟨fun hc => ihs ?_, fun hc => ihn fun hc' => hc ⟨hlt, Or.inr hc'⟩⟩
          rcases hc.2 with hbad | hc
          · exact absurd hbad (by simp)
          · exact hc
      · exact ⟨fun hc => absurd hc.1 hlt, fun _ => hlong _ (by omega)⟩

end Search

/-! ### Writing the pairs -/

section Pairs

variable {st : Bytes × Nat} {p : Bytes × Bytes} {ps : List (Bytes × Bytes)} {a m : Bytes}

/-- One round of the writing loop. -/
theorem write_pairs_token {tok : Bytes} {rest : Option Bytes} (hm : m.head? ≠ some 0)
    (hs : strsep 59 m = some (tok, rest)) :
    write_pairs st m =
      (strsep 61 (tok ++ [0])).bind fun (pvar, pval) =>
        match pval with
        | none => none
        | some v =>
          if (entry pvar (str v)).length + 1 ≤ tmpbufSize then
            (strcpy st.1 st.2 (entry pvar (str v))).bind fun data =>
              match rest with
              | none => some (data, st.2 + (entry pvar (str v)).length + 1)
              | some m' => write_pairs (data, st.2 + (entry pvar (str v)).length + 1) m'
          else none := by
  cases m with
  | nil => cases hs
  | cons c m =>
    rw [write_pairs, if_neg (by simpa using hm)]
    split
    · rename_i hs'
      rw [hs] at hs'
      cases hs'
    · rename_i tok' rest' hs'
      rw [hs] at hs'
      cases hs'
      cases rest with
      | none => rfl
      | some m' => rfl

theorem write_pairs_zero (st : Bytes × Nat) (m : Bytes) : write_pairs st (0 :: m) = some st := by
  rw [write_pairs]
  exact if_pos rfl

/-- A token without `=` has no value to print. -/
theorem write_pairs_no_value (h : 59 ∉ a) (heq : 61 ∉ a) (h0 : 0 ∉ a) (m : Bytes) :
    write_pairs st (a ++ 59 :: m) = none := by
  have hm : (a ++ 59 :: m).head? ≠ some 0 := by
    cases a with
    | nil => simp
    | cons c a =>
      obtain ⟨hc, -⟩ := List.ne_and_not_mem_of_not_mem_cons h0
      simpa using Ne.symm hc
  rw [write_pairs_token hm (strsep_delim (by decide) h h0 m), strsep_zero heq h0 []]
  rfl

/-- The pair is written when its text fits the buffer, and the loop goes on. -/
theorem write_pairs_cons (hp : IsPair p) (hn : 59 ∉ p.1) (m : Bytes) :
    write_pairs st (entry p.1 p.2 ++ 59 :: m) =
      if (entry p.1 p.2).length + 1 ≤ tmpbufSize then
        (strcpy st.1 st.2 (entry p.1 p.2)).bind fun data =>
          write_pairs (data, st.2 + (entry p.1 p.2).length + 1) m
      else none := by
  rw [write_pairs_token (head_entry_ne_zero hp _)
    (strsep_delim (by decide) (hp.semicolon_not_mem hn) hp.zero_not_mem m), strsep_entry hp,
    Option.bind_some]
  simp only [str_value hp]

theorem write_pairs_last (hp : IsPair p) (hn : 59 ∉ p.1) :
    write_pairs st (entry p.1 p.2 ++ [0]) =
      if (entry p.1 p.2).length + 1 ≤ tmpbufSize then
        (strcpy st.1 st.2 (entry p.1 p.2)).map fun data =>
          (data, st.2 + (entry p.1 p.2).length + 1)
      else none := by
  rw [write_pairs_token (head_entry_ne_zero hp _)
    (strsep_zero (hp.semicolon_not_mem hn) hp.zero_not_mem []), strsep_entry hp,
    Option.bind_some]
  simp only [str_value hp, Option.map_eq_bind]
  rfl

/-- A `;` in a name, or a pair too long for the buffer, is the end of it. -/
theorem write_pairs_eq_none : ∀ (ps : List (Bytes × Bytes)) (st : Bytes × Nat),
    (∀ p ∈ ps, IsPair p) → (∃ p ∈ ps, 59 ∈ p.1 ∨ tmpbufSize ≤ (entry p.1 p.2).length) →
    write_pairs st (request ps ++ [0]) = none := by
  intro ps
  induction ps with
  | nil =>
    rintro st - ⟨p, hp, -⟩
    exact absurd hp List.not_mem_nil
  | cons p ps ih =>
    intro st h hbad
    have hp := h p (by simp)
    have h' : ∀ q ∈ ps, IsPair q := fun q hq => h q (List.mem_cons_of_mem p hq)
    by_cases hn : 59 ∈ p.1
    · -- the first token is the beginning of the name
      obtain ⟨a, b, hab, ha⟩ := List.eq_append_cons_of_mem hn
      have heq : 61 ∉ a := fun hm => hp.1 (by rw [hab]; simp [hm])
      have h0 : 0 ∉ a := fun hm => hp.2.1 (by rw [hab]; simp [hm])
      obtain ⟨t, ht⟩ : ∃ t, request (p :: ps) ++ [0] = a ++ 59 :: t := by
        by_cases hps : ps = []
        · rw [hps, request_singleton, entry, hab]
          exact ⟨_, by simp only [List.append_assoc, List.cons_append]; rfl⟩
        · rw [request_cons p hps, entry, hab]
          exact ⟨_, by simp only [List.append_assoc, List.cons_append]; rfl⟩
      rw [ht]
      exact write_pairs_no_value ha heq h0 t
    · by_cases hlong : tmpbufSize ≤ (entry p.1 p.2).length
      · by_cases hps : ps = []
        · rw [hps, request_singleton, write_pairs_last hp hn, if_neg (by omega)]
        · rw [request_cons p hps, List.append_assoc, List.cons_append, write_pairs_cons hp hn,
            if_neg (by omega)]
      · have hrest : ∃ q ∈ ps, 59 ∈ q.1 ∨ tmpbufSize ≤ (entry q.1 q.2).length := by
          obtain ⟨q, hq, hbad⟩ := hbad
          rcases List.mem_cons.mp hq with rfl | hq
          · exact absurd hbad (not_or.mpr ⟨hn, hlong⟩)
          · exact ⟨q, hq, hbad⟩
        have hps : ps ≠ [] := by
          rintro rfl
          obtain ⟨q, hq, -⟩ := hrest
          exact absurd hq List.not_mem_nil
        rw [request_cons p hps, List.append_assoc, List.cons_append, write_pairs_cons hp hn,
          if_pos (by omega)]
        cases strcpy st.1 st.2 (entry p.1 p.2) with
        | none => rfl
        | some data => exact ih _ h' hrest

/-- Behind a list with zeros the pairs become entries of the list. -/
theorem write_pairs_request {n : Nat} : ∀ (ps : List (Bytes × Bytes)) (es : List Bytes),
    (∀ p ∈ ps, IsPair p ∧ 59 ∉ p.1 ∧ (entry p.1 p.2).length < tmpbufSize) →
    (pack (es ++ ps.map fun p => entry p.1 p.2)).length ≤ n →
    write_pairs (padded n (pack es), (pack es).length) (request ps ++ [0])
      = some (padded n (pack (es ++ ps.map fun p => entry p.1 p.2)),
        (pack (es ++ ps.map fun p => entry p.1 p.2)).length) := by
  intro ps
  induction ps with
  | nil =>
    intro es _ _
    rw [List.map_nil, List.append_nil]
    exact write_pairs_zero _ _
  | cons p ps ih =>
    intro es h hfit
    obtain ⟨hp, hn, hshort⟩ := h p (by simp)
    have h' : ∀ q ∈ ps, IsPair q ∧ 59 ∉ q.1 ∧ (entry q.1 q.2).length < tmpbufSize :=
      fun q hq => h q (List.mem_cons_of_mem p hq)
    have hcat : es ++ (p :: ps).map (fun p => entry p.1 p.2)
        = (es ++ [entry p.1 p.2]) ++ ps.map fun p => entry p.1 p.2 := by
      rw [List.map_cons, List.append_assoc, List.singleton_append]
    rw [hcat] at hfit ⊢
    have hone : (pack (es ++ [entry p.1 p.2])).length ≤ n := by
      rw [pack_append, List.length_append] at hfit
      omega
    by_cases hps : ps = []
    · subst hps
      rw [request_singleton, write_pairs_last hp hn, if_pos (by omega), strcpy_pack hone,
        Option.map_some, List.map_nil, List.append_nil, length_pack_concat]
    · rw [request_cons p hps, List.append_assoc, List.cons_append, write_pairs_cons hp hn,
        if_pos (by omega), strcpy_pack hone, Option.bind_some, ← length_pack_concat]
      exact ih _ h' hfit

end Pairs

end Boxing.Uboot
